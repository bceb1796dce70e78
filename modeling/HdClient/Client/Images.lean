-- SUMMARY: The image of a directory: when what is passed to pbc_register is the files and nothing else.
import HdClient.Client.PbcUtils

/-! # Images

`all_files.len` is added to without having been set. -/

namespace HdClient

open Pbc

variable {fs : FileSystem} {mem : LoadLocals} {dir : CString} {entries : List CString}

/-- What is passed to `pbc_register` is the files of the directory, in listing order. -/
def PassesFiles (fs : FileSystem) (mem : LoadLocals) (dir : CString) (entries : List CString) :
    Prop :=
  ∃ image n, readDirectory fs mem dir entries = some (image, n) ∧
    image.length = ((pbEntries entries).map fun ent => (contentsOf fs dir ent).length).sum ∧
    image = pbFiles fs dir entries

theorem pbFiles_length (fs : FileSystem) (dir : CString) (entries : List CString) :
    (pbFiles fs dir entries).length =
      ((pbEntries entries).map fun ent => (contentsOf fs dir ent).length).sum :=
  List.length_flatMap

/-- From a length of zero on, the loop leaves what it has read at the beginning of the buffer. -/
theorem loadEntries_start {read : CString → List UInt8} (hlen : mem.len = 0)
    (hread : ∀ ent ∈ pbEntries entries,
      readFile fs (dir.bytes ++ 47 :: ent.bytes) = some (read ent))
    (hfit : ((pbEntries entries).flatMap read).length ≤ imageSize) (hpaths : PathsFit dir entries) :
    ∃ a, loadEntries fs dir entries ⟨mem.buffer, mem.len⟩ 0 =
        some (a, BitVec.ofNat 32 (pbEntries entries).length) ∧ a.buffer.length = imageSize ∧
      a.len.toNat = ((pbEntries entries).flatMap read).length ∧
      a.buffer.take a.len.toNat = (pbEntries entries).flatMap read := by
  have hzero : mem.len.toNat = 0 := by rw [hlen]; rfl
  have hstart : mem.len.toNat + ((pbEntries entries).flatMap read).length ≤ imageSize := by omega
  obtain ⟨a, hrun, hsize, halen, himage⟩ := loadEntries_reads (a := ⟨mem.buffer, mem.len⟩)
    mem.buffer_length hread hstart hpaths 0
  dsimp only at halen himage
  rw [BitVec.ofNat_eq_ofNat, BitVec.zero_add] at hrun
  rw [hzero, Nat.zero_add] at halen
  rw [hzero, List.take_zero, List.nil_append] at himage
  exact ⟨a, hrun, hsize, halen, himage⟩

/-- What is read is passed on if it fits, and the files are counted. -/
theorem readDirectory_reads {read : CString → List UInt8} (hlen : mem.len = 0)
    (hread : ∀ ent ∈ pbEntries entries,
      readFile fs (dir.bytes ++ 47 :: ent.bytes) = some (read ent))
    (hfit : ((pbEntries entries).flatMap read).length ≤ imageSize) (hpaths : PathsFit dir entries) :
    readDirectory fs mem dir entries = some ((pbEntries entries).flatMap read,
      BitVec.ofNat 32 (pbEntries entries).length) := by
  obtain ⟨a, hrun, hsize, halen, himage⟩ := loadEntries_start hlen hread hfit hpaths
  have hsmall : imageSize < 2 ^ 31 := by decide
  have hnonneg : a.len.toInt = a.len.toNat := BitVec.toInt_eq_toNat_of_lt (by omega)
  have hslice : a.slice = some ((pbEntries entries).flatMap read) := by
    unfold AllFiles.slice
    rw [if_neg (by omega), himage]
  unfold readDirectory
  simp only [Option.bind_eq_bind, hrun, Option.bind_some, hslice]
  rfl

/-- Files that fit are passed on whole. -/
theorem readDirectory_eq (hlen : mem.len = 0) (hfit : (pbFiles fs dir entries).length ≤ imageSize)
    (hpaths : PathsFit dir entries) :
    readDirectory fs mem dir entries =
      some (pbFiles fs dir entries, BitVec.ofNat 32 (pbEntries entries).length) :=
  readDirectory_reads hlen (reads_whole (Nat.lt_of_le_of_lt hfit (by decide))) hfit hpaths

/-- What is passed on, from a length of zero on, was read and did fit. -/
theorem readDirectory_read {image : List UInt8} {n : BitVec 32} (hlen : mem.len = 0)
    (h : readDirectory fs mem dir entries = some (image, n)) :
    PathsFit dir entries ∧
      (∀ ent ∈ pbEntries entries,
        readFile fs (dir.bytes ++ 47 :: ent.bytes) = some (sliceOf fs dir ent)) ∧
      ((pbEntries entries).flatMap (sliceOf fs dir)).length ≤ imageSize := by
  have hzero : mem.len.toNat = 0 := by rw [hlen]; rfl
  unfold readDirectory at h
  obtain ⟨⟨a, m⟩, hrun, -⟩ := Option.bind_eq_some_iff.mp h
  obtain ⟨hpaths, hreads, -, hinside⟩ := loadEntries_some hrun
  have htotal := hinside mem.buffer_length (by dsimp only; omega)
  exact ⟨hpaths, hreads, by dsimp only at htotal; omega⟩

/-! ## The call -/

section Call

variable {s t : Globals} {p q : Env} {a : ℤ} {image : List UInt8} {n : BitVec 32}

/-- Once the directory is read, a call comes to what registering its image comes to. -/
theorem initPbcEnvWithDir_of_read {rc : Except RegisterError Unit}
    (hlist : fs.opendir dir.bytes = some entries)
    (hread : readDirectory fs mem dir entries = some (image, n)) (henv : s.env = some p)
    (hregister : pbcRegister p image = some (rc, q)) :
    ∃ a t, (initPbcEnvWithDir fs mem dir).run s = .ret a t ∧ t.env = some q ∧
      (rc = .ok () → a = n.toInt) ∧ ∀ e, rc = .error e → a = -1 := by
  unfold initPbcEnvWithDir
  rw [hlist]
  simp only [Prog.run_bind, hread, Prog.ofOption_some, Prog.run_pure, Outcome.andThen_ret,
    Prog.run_get, henv, hregister, Prog.run_modify]
  cases rc with
  | ok u =>
      refine ⟨_, _, rfl, rfl, fun _ => rfl, fun e he => ?_⟩
      cases he
  | error e =>
      refine ⟨_, _, rfl, rfl, fun hok => ?_, fun _ _ => rfl⟩
      cases hok

/-- A directory that cannot be read without leaving a buffer. -/
theorem initPbcEnvWithDir_undefined (hlist : fs.opendir dir.bytes = some entries)
    (hread : readDirectory fs mem dir entries = none) :
    (initPbcEnvWithDir fs mem dir).run s = .undefined s := by
  unfold initPbcEnvWithDir
  rw [hlist]
  dsimp only
  rw [hread]
  rfl

/-- What a call can do: fail to open the directory, or register what it has read of it. -/
theorem initPbcEnvWithDir_cases (henv : s.env = some p)
    (h : (initPbcEnvWithDir fs mem dir).run s = .ret a t) :
    (fs.opendir dir.bytes = none ∧ a = -1) ∨
      ∃ entries image n rc q, fs.opendir dir.bytes = some entries ∧
        readDirectory fs mem dir entries = some (image, n) ∧
        pbcRegister p image = some (rc, q) ∧ t.env = some q ∧
        (rc = .ok () → a = n.toInt) ∧ ∀ e, rc = .error e → a = -1 := by
  cases hlist : fs.opendir dir.bytes with
  | none =>
      unfold initPbcEnvWithDir at h
      rw [hlist] at h
      cases h
      exact .inl ⟨rfl, rfl⟩
  | some entries =>
      refine .inr ⟨entries, ?_⟩
      cases hread : readDirectory fs mem dir entries with
      | none =>
          rw [initPbcEnvWithDir_undefined hlist hread] at h
          cases h
      | some r =>
          obtain ⟨image, n⟩ := r
          cases hregister : pbcRegister p image with
          | none =>
              unfold initPbcEnvWithDir at h
              rw [hlist] at h
              simp only [Prog.run_bind, hread, Prog.ofOption_some, Prog.run_pure,
                Outcome.andThen_ret, Prog.run_get, henv, hregister] at h
              cases h
          | some r =>
              obtain ⟨rc, q⟩ := r
              obtain ⟨a', t', hrun, hrest⟩ := initPbcEnvWithDir_of_read hlist hread henv hregister
              rw [hrun] at h
              cases h
              exact ⟨image, n, rc, q, rfl, rfl, hregister, hrest⟩

/-- From a length of zero on, a call comes to what registering the files comes to. -/
theorem initPbcEnvWithDir_run {rc : Except RegisterError Unit}
    (hlen : mem.len = 0) (hfit : (pbFiles fs dir entries).length ≤ imageSize)
    (hpaths : PathsFit dir entries) (hlist : fs.opendir dir.bytes = some entries)
    (henv : s.env = some p) (hregister : pbcRegister p (pbFiles fs dir entries) = some (rc, q)) :
    ∃ a t, (initPbcEnvWithDir fs mem dir).run s = .ret a t ∧ t.env = some q ∧
      (rc = .ok () → a = (BitVec.ofNat 32 (pbEntries entries).length).toInt) ∧
      ∀ e, rc = .error e → a = -1 :=
  initPbcEnvWithDir_of_read hlist (readDirectory_eq hlen hfit hpaths) henv hregister

end Call

/-! ## What is passed on -/

/-- What is passed on is as long as the files together with what the length was before. -/
theorem readDirectory_some {image : List UInt8} {n : BitVec 32}
    (hfit : (pbFiles fs dir entries).length ≤ imageSize)
    (h : readDirectory fs mem dir entries = some (image, n)) :
    image.length = (mem.len + BitVec.ofNat 32 (pbFiles fs dir entries).length).toNat ∧
      PathsFit dir entries := by
  unfold readDirectory at h
  simp only [Option.bind_eq_bind, Option.bind_eq_some_iff] at h
  obtain ⟨⟨a, m⟩, hrun, slice, hslice, hpure⟩ := h
  cases hpure
  obtain ⟨hpaths, hreads, hlen, -⟩ := loadEntries_some hrun
  have hwhole : (pbEntries entries).flatMap (sliceOf fs dir) = pbFiles fs dir entries := by
    refine List.flatMap_congr fun ent hent => Option.some.inj ?_
    rw [← hreads ent hent, reads_whole (Nat.lt_of_le_of_lt hfit (by decide)) ent hent]
  rw [hwhole] at hlen
  refine ⟨?_, hpaths⟩
  unfold AllFiles.slice at hslice
  split at hslice
  · cases hslice
  · rename_i hin
    rw [not_or, Nat.not_lt] at hin
    cases hslice
    rw [List.length_take_of_le hin.2, hlen]

theorem PassesFiles.started (hfit : (pbFiles fs dir entries).length ≤ imageSize)
    (h : PassesFiles fs mem dir entries) : mem.len = 0 ∧ PathsFit dir entries := by
  obtain ⟨image, n, hrun, -, rfl⟩ := h
  obtain ⟨hlen, hpaths⟩ := readDirectory_some hfit hrun
  refine ⟨?_, hpaths⟩
  have hsmall : imageSize < 2 ^ 31 := by decide
  rw [BitVec.toNat_add, BitVec.toNat_ofNat] at hlen
  have := mem.len.isLt
  have hzero : mem.len.toNat = 0 := by omega
  exact BitVec.eq_of_toNat_eq hzero

/-- Files that fit the buffer are passed on exactly if `all_files.len` happens to be
zero and every path fits `full_file_name`. -/
theorem passesFiles_iff (hfit : (pbFiles fs dir entries).length ≤ imageSize) :
    PassesFiles fs mem dir entries ↔ mem.len = 0 ∧ PathsFit dir entries := by
  constructor
  · exact fun h => h.started hfit
  · rintro ⟨hlen, hpaths⟩
    exact ⟨_, _, readDirectory_eq hlen hfit hpaths, pbFiles_length fs dir entries, rfl⟩

/-- A file system with the same three bytes in every file. -/
def sameFiles : FileSystem where
  opendir _ := some []
  fopen _ := some [10, 1, 0]

/-- Memory in which `all_files.len` happens to be `len`. -/
def startingAt (len : BitVec 32) : LoadLocals where
  len := len
  buffer := List.replicate imageSize 0
  buffer_length := List.length_replicate

/-- A directory with two files, one of them a descriptor. -/
theorem passesFiles_two :
    PassesFiles sameFiles (startingAt 0) (.lit "pb") [.lit "a.pb", .lit "b.txt"] :=
  (passesFiles_iff (by decide)).mpr ⟨rfl, by unfold PathsFit; decide⟩

/-- A byte of the fresh buffer is passed on in front of the files. -/
theorem image_starts_late : ¬ ∀ (fs : FileSystem) (mem : LoadLocals) (dir : CString)
    (entries : List CString), (pbFiles fs dir entries).length ≤ imageSize →
    PassesFiles fs mem dir entries := by
  intro hclaim
  have hpasses := hclaim sameFiles (startingAt 1) (.lit "pb") [.lit "a.pb"] (by decide)
  have hlen := (hpasses.started (by decide)).1
  exact absurd hlen (by decide)

end HdClient
