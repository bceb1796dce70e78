-- SUMMARY: Loading the descriptor files of a directory: one buffer for all of them, which is then registered.
import HdClient.Client.Conn
import HdClient.Pbc.Bootstrap

/-! # Pbc utils -/

namespace HdClient

open Pbc

/-- What is asked of a file system. -/
structure FileSystem where
  /-- The names in a directory, in the order of `readdir`, or none if it cannot be opened. -/
  opendir : CStr → Option (List CString)
  /-- What is in the file under a path, if it can be opened. -/
  fopen : CStr → Option (List UInt8)

/-- A line that is printed while descriptors are loaded. -/
inductive LoadDiag where
  | openDirFailed (dir : CStr)
  | registerFailed (e : RegisterError)
  | alreadyInitialized
  | initializeFailed
  deriving DecidableEq

/-- The format a line is printed with. -/
def LoadDiag.text : LoadDiag → String
  | .openDirFailed _ => "open dir:%s failed\n"
  | .registerFailed _ => "error when register: %s\n"
  | .alreadyInitialized => "env is already initialized.\n"
  | .initializeFailed => "initialize pb env failed.\n"

/-- The variables that the calls which load descriptors read and change. -/
structure Globals where
  /-- The pointer is null until an environment is made. -/
  env : Option Env
  is_env_initialize : Bool
  hadoop_version : Option CString
  printed : List LoadDiag

/-- The size of `all_files.buffer`. -/
def imageSize : ℕ := 2 * 1024 * 1024

/-- The size of `full_file_name`. -/
def pathSize : ℕ := 4066

/-- What happens to be in `all_files`: its length is not set, its buffer is fresh. -/
structure LoadLocals where
  len : BitVec 32
  buffer : List UInt8
  buffer_length : buffer.length = imageSize

/-- `str_ends_with`, for strings that are not null. -/
def strEndsWith (str suffix : CStr) : Bool :=
  if str.length < suffix.length then false
  else (str.drop (str.length - suffix.length)).take suffix.length = suffix

/-- `read_file`: the contents, or nothing where the file cannot be opened.
Undefined where the size does not fit an `int`. -/
def readFile (fs : FileSystem) (filename : CStr) : Option (List UInt8) :=
  match fs.fopen filename with
  | none => some []
  | some contents =>
      let len : BitVec 32 := BitVec.ofNat 32 contents.length
      if len.toInt < 0 then none else some (contents.take len.toNat)

/-- `all_files` -/
structure AllFiles where
  buffer : List UInt8
  len : BitVec 32

namespace AllFiles

/-- Copy a file behind the others; undefined where it would leave the buffer. -/
def append (a : AllFiles) (slice : List UInt8) : Option AllFiles :=
  if a.len.toInt < 0 ∨ a.buffer.length < a.len.toNat + slice.length then none
  else some
    ⟨a.buffer.take a.len.toNat ++ slice ++ a.buffer.drop (a.len.toNat + slice.length),
      a.len + BitVec.ofNat 32 slice.length⟩

/-- The bytes that are passed on; undefined where they are not all there. -/
def slice (a : AllFiles) : Option (List UInt8) :=
  if a.len.toInt < 0 ∨ a.buffer.length < a.len.toNat then none
  else some (a.buffer.take a.len.toNat)

end AllFiles

/-- What `sprintf` stores of a path, without its terminating zero; undefined where it
does not fit. -/
def fullFileName (dir name : CString) : Option CStr :=
  let path := dir.bytes ++ 47 :: name.bytes
  if pathSize < path.length + 1 then none else some path

/-- The loop of `init_pbc_env_with_dir`. -/
def loadEntries (fs : FileSystem) (dir : CString) :
    List CString → AllFiles → BitVec 32 → Option (AllFiles × BitVec 32)
  | [], all_files, total_registered_file => some (all_files, total_registered_file)
  | ent :: entries, all_files, total_registered_file =>
      if 0 < ent.bytes.length ∧ strEndsWith ent.bytes (lit ".pb") then do
        let full_file_name ← fullFileName dir ent
        let slice ← readFile fs full_file_name
        let all_files ← all_files.append slice
        loadEntries fs dir entries all_files (total_registered_file + 1)
      else loadEntries fs dir entries all_files total_registered_file

/-- `init_pbc_env_with_dir` up to its call of `pbc_register`: what it passes to it,
and its count. -/
def readDirectory (fs : FileSystem) (mem : LoadLocals) (dir : CString) (entries : List CString) :
    Option (List UInt8 × BitVec 32) := do
  let (all_files, total_registered_file) ← loadEntries fs dir entries ⟨mem.buffer, mem.len⟩ 0
  let slice ← all_files.slice
  pure (slice, total_registered_file)

def printLoad (d : LoadDiag) : Prog Globals Unit :=
  .modify fun s => { s with printed := s.printed ++ [d] }

/-- `init_pbc_env_with_dir`, on the environment that `env` points to. -/
def initPbcEnvWithDir (fs : FileSystem) (mem : LoadLocals) (dir : CString) : Prog Globals ℤ := do
  match fs.opendir dir.bytes with
  | none => do
      printLoad (.openDirFailed dir.bytes)
      pure (-1)
  | some entries => do
      let (all_files, total_registered_file) ← .ofOption (readDirectory fs mem dir entries)
      let s ← .get
      let p ← .ofOption s.env
      let (rc, env) ← .ofOption (pbcRegister p all_files)
      .modify fun s => { s with env := some env }
      match rc with
      | .error e => do
          printLoad (.registerFailed e)
          pure (-1)
      | .ok _ => pure total_registered_file.toInt

/-! ## What is copied -/

theorem strEndsWith_iff {str suffix : CStr} : strEndsWith str suffix = true ↔ suffix <:+ str := by
  unfold strEndsWith
  split
  · rename_i hlt
    refine iff_of_false (by simp) fun h => ?_
    exact absurd h.length_le (Nat.not_le_of_lt hlt)
  · rename_i hge
    have hdrop : (str.drop (str.length - suffix.length)).length ≤ suffix.length := by
      rw [List.length_drop]
      omega
    rw [decide_eq_true_iff, List.take_of_length_le hdrop, List.suffix_iff_eq_drop]
    exact eq_comm

/-- The entries whose names end in ".pb", in listing order. -/
def pbEntries (entries : List CString) : List CString :=
  entries.filter fun ent => lit ".pb" <:+ ent.bytes

/-- What is in the file of an entry; nothing where it cannot be opened. -/
def contentsOf (fs : FileSystem) (dir ent : CString) : List UInt8 :=
  (fs.fopen (dir.bytes ++ 47 :: ent.bytes)).getD []

/-- What is left of the file of an entry in `slice`. -/
def sliceOf (fs : FileSystem) (dir ent : CString) : List UInt8 :=
  (readFile fs (dir.bytes ++ 47 :: ent.bytes)).getD []

/-- The files of a directory, one behind the other. -/
def pbFiles (fs : FileSystem) (dir : CString) (entries : List CString) : List UInt8 :=
  (pbEntries entries).flatMap (contentsOf fs dir)

/-- The path of every file that is read fits `full_file_name`. -/
def PathsFit (dir : CString) (entries : List CString) : Prop :=
  ∀ ent ∈ pbEntries entries, dir.bytes.length + 1 + ent.bytes.length + 1 ≤ pathSize

private theorem read_iff (ent : CString) :
    (0 < ent.bytes.length ∧ strEndsWith ent.bytes (lit ".pb") = true) ↔
      lit ".pb" <:+ ent.bytes := by
  have hlit : 0 < (lit ".pb").length := by decide
  rw [strEndsWith_iff]
  exact ⟨And.right, fun h => ⟨Nat.lt_of_lt_of_le hlit h.length_le, h⟩⟩

theorem pbEntries_cons (ent : CString) (entries : List CString) :
    pbEntries (ent :: entries) =
      if lit ".pb" <:+ ent.bytes then ent :: pbEntries entries else pbEntries entries := by
  simp [pbEntries, List.filter_cons]

/-- A file whose size fits an `int` is read whole. -/
theorem readFile_eq {fs : FileSystem} {dir ent : CString}
    (h : (contentsOf fs dir ent).length < 2 ^ 31) :
    readFile fs (dir.bytes ++ 47 :: ent.bytes) = some (contentsOf fs dir ent) := by
  unfold readFile contentsOf at *
  cases hopen : fs.fopen (dir.bytes ++ 47 :: ent.bytes) with
  | none => rfl
  | some contents =>
      rw [hopen, Option.getD_some] at h
      have hlen : (BitVec.ofNat 32 contents.length).toNat = contents.length := by
        rw [BitVec.toNat_ofNat]
        omega
      have hnonneg : ¬ (BitVec.ofNat 32 contents.length).toInt < 0 := by
        rw [BitVec.toInt_eq_toNat_of_lt (by omega)]
        omega
      simp only [Option.getD_some]
      rw [if_neg hnonneg, hlen, List.take_length]

theorem fullFileName_eq {dir ent : CString} :
    fullFileName dir ent =
      if dir.bytes.length + 1 + ent.bytes.length + 1 ≤ pathSize
        then some (dir.bytes ++ 47 :: ent.bytes) else none := by
  unfold fullFileName
  have hlen : (dir.bytes ++ 47 :: ent.bytes).length = dir.bytes.length + 1 + ent.bytes.length := by
    simp only [List.length_append, List.length_cons]
    omega
  simp only [hlen]
  split
  · rw [if_neg (by omega)]
  · rw [if_pos (by omega)]

/-! ## The loop -/

section Loop

variable {fs : FileSystem} {dir ent : CString} {entries : List CString} {a : AllFiles}
  {n : BitVec 32}

theorem loadEntries_pb (h : lit ".pb" <:+ ent.bytes) :
    loadEntries fs dir (ent :: entries) a n = (do
      let full_file_name ← fullFileName dir ent
      let slice ← readFile fs full_file_name
      let all_files ← a.append slice
      loadEntries fs dir entries all_files (n + 1)) := by
  rw [loadEntries, if_pos ((read_iff ent).mpr h)]

theorem loadEntries_other (h : ¬ lit ".pb" <:+ ent.bytes) :
    loadEntries fs dir (ent :: entries) a n = loadEntries fs dir entries a n := by
  rw [loadEntries, if_neg (mt (read_iff ent).mp h)]

theorem loadEntries_append (before after : List CString) :
    loadEntries fs dir (before ++ after) a n =
      (loadEntries fs dir before a n).bind fun r => loadEntries fs dir after r.1 r.2 := by
  induction before generalizing a n with
  | nil => rfl
  | cons ent before ih =>
      rw [List.cons_append]
      by_cases hpb : lit ".pb" <:+ ent.bytes
      · rw [loadEntries_pb hpb, loadEntries_pb hpb]
        simp only [Option.bind_eq_bind, Option.bind_assoc, ih]
      · rw [loadEntries_other hpb, loadEntries_other hpb]
        exact ih

/-- What fits is copied behind what is there. -/
theorem AllFiles.append_fits (contents : List UInt8) (hsize : a.buffer.length = imageSize)
    (hfit : a.len.toNat + contents.length ≤ imageSize) :
    ∃ a', a.append contents = some a' ∧ a'.buffer.length = imageSize ∧
      a'.len.toNat = a.len.toNat + contents.length ∧
      a'.buffer.take a'.len.toNat = a.buffer.take a.len.toNat ++ contents := by
  have hsmall : imageSize < 2 ^ 31 := by decide
  have hnonneg : ¬ (a.len.toInt < 0 ∨ a.buffer.length < a.len.toNat + contents.length) := by
    rw [BitVec.toInt_eq_toNat_of_lt (by omega)]
    omega
  have hlen : (a.len + BitVec.ofNat 32 contents.length).toNat =
      a.len.toNat + contents.length := by
    rw [BitVec.toNat_add, BitVec.toNat_ofNat]
    omega
  refine ⟨⟨_, _⟩, if_neg hnonneg, ?_, hlen, ?_⟩
  · simp only [List.length_append, List.length_take, List.length_drop]
    omega
  · refine List.take_left' ?_
    rw [hlen, List.length_append, List.length_take]
    omega

/-- What was copied did fit. -/
theorem AllFiles.append_some {b : AllFiles} {slice : List UInt8} (h : a.append slice = some b) :
    a.len.toNat + slice.length ≤ a.buffer.length ∧
      b.len = a.len + BitVec.ofNat 32 slice.length ∧ b.buffer.length = a.buffer.length := by
  unfold AllFiles.append at h
  split at h
  · cases h
  · rename_i hfits
    rw [not_or, Nat.not_lt] at hfits
    cases h
    refine ⟨hfits.2, rfl, ?_⟩
    simp only [List.length_append, List.length_take, List.length_drop]
    omega

/-- An iteration that copies: its path fits, its file is read, and the copy stays
inside the buffer. -/
theorem loadEntries_pb_some {r : AllFiles × BitVec 32} (hpb : lit ".pb" <:+ ent.bytes)
    (h : loadEntries fs dir (ent :: entries) a n = some r) :
    dir.bytes.length + 1 + ent.bytes.length + 1 ≤ pathSize ∧
      ∃ slice b, readFile fs (dir.bytes ++ 47 :: ent.bytes) = some slice ∧
        a.append slice = some b ∧ loadEntries fs dir entries b (n + 1) = some r := by
  rw [loadEntries_pb hpb, fullFileName_eq] at h
  split at h
  · rename_i hpath
    simp only [Option.bind_eq_bind, Option.bind_some, Option.bind_eq_some_iff] at h
    obtain ⟨slice, hread, b, happend, hrest⟩ := h
    exact ⟨hpath, slice, b, hread, happend, hrest⟩
  · cases h

/-- The loop copies what is read one behind the other, as long as it fits. -/
theorem loadEntries_reads {read : CString → List UInt8} (hsize : a.buffer.length = imageSize)
    (hread : ∀ ent ∈ pbEntries entries,
      readFile fs (dir.bytes ++ 47 :: ent.bytes) = some (read ent))
    (hfit : a.len.toNat + ((pbEntries entries).flatMap read).length ≤ imageSize)
    (hpaths : PathsFit dir entries) (n : BitVec 32) :
    ∃ a', loadEntries fs dir entries a n =
        some (a', n + BitVec.ofNat 32 (pbEntries entries).length) ∧
      a'.buffer.length = imageSize ∧
      a'.len.toNat = a.len.toNat + ((pbEntries entries).flatMap read).length ∧
      a'.buffer.take a'.len.toNat =
        a.buffer.take a.len.toNat ++ (pbEntries entries).flatMap read := by
  -- the buffer holds what was there before and the files so far
  induction entries generalizing a n with
  | nil => exact ⟨a, by simp [loadEntries, pbEntries], hsize, by simp [pbEntries],
      by simp [pbEntries]⟩
  | cons ent entries ih =>
      unfold PathsFit at *
      rw [pbEntries_cons] at hread hfit hpaths ⊢
      by_cases hpb : lit ".pb" <:+ ent.bytes
      · rw [if_pos hpb] at hread hfit hpaths ⊢
        rw [List.flatMap_cons, List.length_append] at hfit
        obtain ⟨b, happend, hbsize, hblen, hbimage⟩ :=
          AllFiles.append_fits (read ent) hsize (by omega)
        obtain ⟨a', hrun, hsize', hlen', himage⟩ := ih hbsize
          (fun e he => hread e (List.mem_cons_of_mem _ he)) (by omega)
          (fun e he => hpaths e (List.mem_cons_of_mem _ he)) (n + 1)
        refine ⟨a', ?_, hsize', ?_, ?_⟩
        · rw [loadEntries_pb hpb, fullFileName_eq, if_pos (hpaths ent List.mem_cons_self)]
          simp only [Option.bind_eq_bind, Option.bind_some, hread ent List.mem_cons_self, happend,
            hrun]
          rw [BitVec.add_assoc, List.length_cons, Nat.add_comm, BitVec.ofNat_add]
          rfl
        · rw [hlen', hblen, List.flatMap_cons, List.length_append, Nat.add_assoc]
        · rw [himage, hbimage, List.flatMap_cons, List.append_assoc]
      · rw [if_neg hpb] at hread hfit hpaths ⊢
        rw [loadEntries_other hpb]
        exact ih hsize hread hfit hpaths n

theorem contentsOf_length_le (fs : FileSystem) (dir : CString) (h : ent ∈ pbEntries entries) :
    (contentsOf fs dir ent).length ≤ (pbFiles fs dir entries).length := by
  obtain ⟨before, after, hsplit⟩ := List.append_of_mem h
  rw [pbFiles, hsplit, List.flatMap_append, List.flatMap_cons]
  simp only [List.length_append]
  omega

/-- Files that fit an `int` together are read whole. -/
theorem reads_whole (h : (pbFiles fs dir entries).length < 2 ^ 31) :
    ∀ ent ∈ pbEntries entries,
      readFile fs (dir.bytes ++ 47 :: ent.bytes) = some (contentsOf fs dir ent) :=
  fun _ hent => readFile_eq (Nat.lt_of_le_of_lt (contentsOf_length_le fs dir hent) h)

/-- What a loop that ends has done, however it was started: every path did fit, every
file was read, and the length is what it was with the sizes of the slices; from
inside the buffer, it has stayed there. -/
theorem loadEntries_some {a' : AllFiles} {n' : BitVec 32}
    (h : loadEntries fs dir entries a n = some (a', n')) :
    PathsFit dir entries ∧
      (∀ ent ∈ pbEntries entries,
        readFile fs (dir.bytes ++ 47 :: ent.bytes) = some (sliceOf fs dir ent)) ∧
      a'.len = a.len + BitVec.ofNat 32 ((pbEntries entries).flatMap (sliceOf fs dir)).length ∧
      (a.buffer.length = imageSize → a.len.toNat ≤ imageSize →
        a.len.toNat + ((pbEntries entries).flatMap (sliceOf fs dir)).length ≤ imageSize) := by
  induction entries generalizing a n with
  | nil =>
      cases h
      exact ⟨by simp [PathsFit, pbEntries], by simp [pbEntries], by simp [pbEntries],
        fun _ hlen => by simpa [pbEntries] using hlen⟩
  | cons ent entries ih =>
      unfold PathsFit at *
      rw [pbEntries_cons]
      by_cases hpb : lit ".pb" <:+ ent.bytes
      · rw [if_pos hpb]
        obtain ⟨hpath, slice, b, hread, happend, hrest⟩ := loadEntries_pb_some hpb h
        obtain ⟨hfits, hblen, hbsize⟩ := AllFiles.append_some happend
        have hslice : sliceOf fs dir ent = slice := by rw [sliceOf, hread, Option.getD_some]
        obtain ⟨hpaths, hreads, htotal, hinside⟩ := ih hrest
        rw [List.flatMap_cons, List.length_append, hslice]
        refine ⟨fun e he => ?_, fun e he => ?_, ?_, fun hsize hlen => ?_⟩
        · rcases List.mem_cons.mp he with rfl | he
          · exact hpath
          · exact hpaths e he
        · rcases List.mem_cons.mp he with rfl | he
          · rw [hslice, hread]
          · exact hreads e he
        · rw [htotal, hblen, BitVec.ofNat_add, BitVec.add_assoc]
        · have hsmall : imageSize < 2 ^ 31 := by decide
          have hb : b.len.toNat = a.len.toNat + slice.length := by
            rw [hblen, BitVec.toNat_add, BitVec.toNat_ofNat]
            omega
          have hbound := hinside (hbsize.trans hsize) (by omega)
          omega
      · rw [if_neg hpb]
        rw [loadEntries_other hpb] at h
        exact ih h

end Loop

end HdClient
