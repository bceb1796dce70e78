-- SUMMARY: Whether loading a directory stays inside full_file_name and all_files.buffer, one iteration after the other.
import Mathlib.Data.List.Induction
import HdClient.Client.Images

/-! # Load bounds

Neither the length of a path nor the sum of the sizes is looked at before it is used. -/

namespace HdClient

open Pbc

variable {fs : FileSystem} {mem : LoadLocals} {dir ent : CString} {entries before : List CString}
  {s : Globals} {a : AllFiles} {n : BitVec 32}

/-- The loop comes to an entry that it reads, with what is in `all_files` and its count. -/
structure Reaches (fs : FileSystem) (mem : LoadLocals) (dir : CString)
    (entries before : List CString) (ent : CString) (a : AllFiles) (n : BitVec 32) : Prop where
  listed : before ++ [ent] <+: entries
  pb : lit ".pb" <:+ ent.bytes
  run : loadEntries fs dir before ⟨mem.buffer, mem.len⟩ 0 = some (a, n)

/-- The path of an entry with its terminating zero fits `full_file_name`, and its
file, copied to where `all_files.len` points, fits the buffer. -/
structure StoresInside (fs : FileSystem) (dir ent : CString) (a : AllFiles) : Prop where
  path : (dir.bytes ++ 47 :: ent.bytes).length + 1 ≤ pathSize
  copy : a.len.toInt + (contentsOf fs dir ent).length ≤ imageSize

/-- The loop does not get past an entry, and the function returns minus one. -/
structure Refuses (fs : FileSystem) (mem : LoadLocals) (dir : CString) (before : List CString)
    (ent : CString) (s : Globals) : Prop where
  notCopied : loadEntries fs dir (before ++ [ent]) ⟨mem.buffer, mem.len⟩ 0 = none
  returns : ∃ t, (initPbcEnvWithDir fs mem dir).run s = .ret (-1) t

/-- Each iteration stores inside the buffers, or the function returns minus one instead. -/
def StaysInside (fs : FileSystem) (mem : LoadLocals) (dir : CString) (s : Globals) : Prop :=
  ∀ entries before ent a n, fs.opendir dir.bytes = some entries →
    Reaches fs mem dir entries before ent a n →
    StoresInside fs dir ent a ∨ Refuses fs mem dir before ent s

/-- Nothing is refused: an iteration that does not end has left a buffer. -/
theorem not_refuses (hlist : fs.opendir dir.bytes = some entries)
    (hlisted : before ++ [ent] <+: entries) : ¬ Refuses fs mem dir before ent s := by
  rintro ⟨hnot, t, hret⟩
  obtain ⟨after, rfl⟩ := hlisted
  have hread : readDirectory fs mem dir (before ++ [ent] ++ after) = none := by
    unfold readDirectory
    rw [loadEntries_append, hnot]
    rfl
  rw [initPbcEnvWithDir_undefined hlist hread] at hret
  cases hret

/-! ## Totals -/

theorem pbEntries_append (before after : List CString) :
    pbEntries (before ++ after) = pbEntries before ++ pbEntries after := List.filter_append _ _

theorem pathsFit_append {before after : List CString} :
    PathsFit dir (before ++ after) ↔ PathsFit dir before ∧ PathsFit dir after := by
  unfold PathsFit
  rw [pbEntries_append]
  exact List.forall_mem_append

theorem pbFiles_append (fs : FileSystem) (dir : CString) (before after : List CString) :
    pbFiles fs dir (before ++ after) = pbFiles fs dir before ++ pbFiles fs dir after := by
  rw [pbFiles, pbEntries_append, List.flatMap_append]
  rfl

theorem pbFiles_singleton (h : lit ".pb" <:+ ent.bytes) :
    pbFiles fs dir [ent] = contentsOf fs dir ent := by
  rw [pbFiles, pbEntries_cons, if_pos h]
  exact List.append_nil _

theorem pathsFit_singleton (h : lit ".pb" <:+ ent.bytes) :
    PathsFit dir [ent] ↔ dir.bytes.length + 1 + ent.bytes.length + 1 ≤ pathSize := by
  unfold PathsFit
  rw [pbEntries_cons, if_pos h]
  exact List.forall_mem_singleton

/-- As long as the files fit, the loop goes on behind them. -/
theorem loadEntries_before (hlen : mem.len = 0) (hfit : (pbFiles fs dir before).length ≤ imageSize)
    (hpaths : PathsFit dir before) :
    ∃ a, loadEntries fs dir before ⟨mem.buffer, mem.len⟩ 0 =
        some (a, BitVec.ofNat 32 (pbEntries before).length) ∧
      a.len.toInt = (pbFiles fs dir before).length := by
  obtain ⟨a, hrun, -, halen, -⟩ := loadEntries_start hlen
    (reads_whole (Nat.lt_of_le_of_lt hfit (by decide))) hfit hpaths
  have hsmall : imageSize < 2 ^ 31 := by decide
  have hfiles : a.len.toNat = (pbFiles fs dir before).length := halen
  exact ⟨a, hrun, by rw [BitVec.toInt_eq_toNat_of_lt (by omega), hfiles]⟩

/-- What is stored inside as the loop goes on is, in the end, all of it. -/
theorem StaysInside.fits (hlen : mem.len = 0) (h : StaysInside fs mem dir s)
    (hlist : fs.opendir dir.bytes = some entries) :
    PathsFit dir entries ∧ (pbFiles fs dir entries).length ≤ imageSize := by
  -- by induction on how far the loop has come
  have hprefix : ∀ before : List CString, before <+: entries →
      PathsFit dir before ∧ (pbFiles fs dir before).length ≤ imageSize := by
    intro before
    induction before using List.reverseRecOn with
    | nil => exact fun _ => ⟨by simp [PathsFit, pbEntries], by simp [pbFiles, pbEntries]⟩
    | append_singleton before ent ih =>
        intro hlisted
        obtain ⟨hpaths, hfit⟩ := ih ((List.prefix_append _ _).trans hlisted)
        rw [pathsFit_append, pbFiles_append, List.length_append]
        by_cases hpb : lit ".pb" <:+ ent.bytes
        · obtain ⟨a, hrun, halen⟩ := loadEntries_before hlen hfit hpaths
          rcases h _ _ _ _ _ hlist ⟨hlisted, hpb, hrun⟩ with ⟨hpath, hcopy⟩ | hrefuses
          · rw [List.length_append, List.length_cons] at hpath
            rw [pathsFit_singleton hpb, pbFiles_singleton hpb]
            exact ⟨⟨hpaths, by omega⟩, by omega⟩
          · exact absurd hrefuses (not_refuses hlist hlisted)
        · have hnone : pbEntries [ent] = [] := by rw [pbEntries_cons, if_neg hpb]; rfl
          exact ⟨⟨hpaths, by simp [PathsFit, hnone]⟩, by simpa [pbFiles, hnone] using hfit⟩
  exact hprefix entries (List.prefix_refl _)

/-- From a length of zero on, loading stays inside its buffers exactly if the path of
every descriptor file fits `full_file_name` and their sizes add up to at most that of
the buffer. -/
theorem staysInside_iff (hlen : mem.len = 0) :
    StaysInside fs mem dir s ↔ ∀ entries, fs.opendir dir.bytes = some entries →
      PathsFit dir entries ∧ (pbFiles fs dir entries).length ≤ imageSize := by
  constructor
  · exact fun h entries hlist => h.fits hlen hlist
  · intro hfits entries before ent a n hlist hreaches
    obtain ⟨after, rfl⟩ := hreaches.listed
    obtain ⟨hpaths, hfit⟩ := hfits _ hlist
    rw [pathsFit_append, pathsFit_append, pathsFit_singleton hreaches.pb] at hpaths
    rw [pbFiles_append, pbFiles_append, pbFiles_singleton hreaches.pb, List.length_append,
      List.length_append] at hfit
    obtain ⟨b, hrun, hblen⟩ := loadEntries_before hlen
      (by omega : (pbFiles fs dir before).length ≤ imageSize) hpaths.1.1
    have hsame := hreaches.run.symm.trans hrun
    cases hsame
    refine .inl ⟨?_, by omega⟩
    rw [List.length_append, List.length_cons, ← Nat.add_right_comm]
    exact hpaths.1.2

/-! ## A long path -/

/-- A disk on which every directory has one file, of three bytes. -/
def shortFile : FileSystem where
  opendir _ := some [.lit "a.pb"]
  fopen _ := some [10, 1, 0]

/-- A directory with a short path and a small file. -/
theorem staysInside_short :
    StaysInside shortFile (startingAt 0) (.lit "pb") ⟨none, false, none, []⟩ := by
  refine (staysInside_iff rfl).mpr fun entries hlist => ?_
  cases hlist
  exact ⟨by unfold PathsFit; decide, by decide⟩

/-- The path of the root directory, with 4061 slashes. -/
def manySlashes : CString where
  bytes := List.replicate 4061 47
  no_zero h := absurd (List.eq_of_mem_replicate h) (by decide)

/-- The path of a file in that directory takes 4067 bytes. -/
theorem long_path_overruns : ¬ ∀ (fs : FileSystem) (mem : LoadLocals) (dir : CString) (s : Globals),
    (∀ entries, fs.opendir dir.bytes = some entries → ∀ ent ∈ entries, ent.bytes.length ≤ 255) →
    mem.len = 0 → StaysInside fs mem dir s := by
  intro hclaim
  obtain ⟨mem, hmem⟩ : ∃ mem : LoadLocals, mem.len = 0 := ⟨startingAt 0, rfl⟩
  have hnames : ∀ entries, shortFile.opendir manySlashes.bytes = some entries →
      ∀ ent ∈ entries, ent.bytes.length ≤ 255 := by
    intro entries hlist
    cases hlist
    decide
  have hstays := hclaim shortFile mem manySlashes ⟨none, false, none, []⟩ hnames hmem
  have hpath := (pathsFit_singleton (by decide)).mp (hstays.fits hmem rfl).1
  have hdir : manySlashes.bytes.length = 4061 := List.length_replicate
  have hname : (CString.lit "a.pb").bytes.length = 4 := by decide
  rw [hdir, hname] at hpath
  exact absurd hpath (by decide)

end HdClient
