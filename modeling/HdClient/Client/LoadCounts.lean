-- SUMMARY: Whether the number that loading a directory returns is that of the files that were read and registered.
import HdClient.Client.HadoopRpc
import HdClient.Client.LoadBounds

/-! # Load counts

A file that cannot be opened is counted like one that was read. -/

namespace HdClient

open Pbc

variable {fs : FileSystem} {mem : LoadLocals} {dir ent : CString} {entries before : List CString}
  {p : Env} {s t : Globals}

/-- The file of an entry is opened, and read whole. -/
def Loaded (fs : FileSystem) (dir ent : CString) : Prop :=
  fs.fopen (dir.bytes ++ 47 :: ent.bytes) ≠ none ∧
    readFile fs (dir.bytes ++ 47 :: ent.bytes) = fs.fopen (dir.bytes ++ 47 :: ent.bytes)

instance (fs : FileSystem) (dir ent : CString) : Decidable (Loaded fs dir ent) :=
  inferInstanceAs (Decidable (_ ∧ _))

def loadedEntries (fs : FileSystem) (dir : CString) (entries : List CString) : List CString :=
  (pbEntries entries).filter fun ent => Loaded fs dir ent

/-- The number that is returned for a directory is that of the files that were loaded. -/
structure CountsLoaded (fs : FileSystem) (mem : LoadLocals) (dir : CString) (p : Env) : Prop where
  /-- What the library has accepted is the contents of as many files as are counted. -/
  counts : ∀ s n t, s.env = some p → (initPbcEnvWithDir fs mem dir).run s = .ret n t → 0 ≤ n →
    ∃ entries q, fs.opendir dir.bytes = some entries ∧
      n = (loadedEntries fs dir entries).length ∧
      pbcRegister p ((loadedEntries fs dir entries).flatMap (contentsOf fs dir)) =
        some (.ok (), q) ∧ t.env = some q
  /-- In each iteration, the count goes up only for a file that is loaded. -/
  counted : ∀ s n t entries before ent a b m k, s.env = some p →
    (initPbcEnvWithDir fs mem dir).run s = .ret n t → 0 ≤ n →
    fs.opendir dir.bytes = some entries → before ++ [ent] <+: entries →
    loadEntries fs dir before ⟨mem.buffer, mem.len⟩ 0 = some (a, m) →
    loadEntries fs dir (before ++ [ent]) ⟨mem.buffer, mem.len⟩ 0 = some (b, k) →
    k ≠ m → Loaded fs dir ent
  /-- Minus one is returned for a set that the library does not accept. -/
  fails : ∀ s entries image m e q, s.env = some p → fs.opendir dir.bytes = some entries →
    readDirectory fs mem dir entries = some (image, m) →
    pbcRegister p image = some (.error e, q) →
    ∃ t, (initPbcEnvWithDir fs mem dir).run s = .ret (-1) t
  /-- Calls of `init_pb_env` for the directory succeed only if a file was loaded. -/
  succeeds : pbcNew = some p → ∀ s log t c, s.is_env_initialize = false →
    Prog.Runs (fun c _ => c.fs = fs ∧ c.pb_dir = dir ∧ c.mem.len = 0) initPbEnv s log t →
    (c, 0) ∈ log →
    ∃ entries, fs.opendir dir.bytes = some entries ∧ loadedEntries fs dir entries ≠ []

/-- What is read of a directory stays inside the buffers, and the library accepts it. -/
structure Accepted (p : Env) (fs : FileSystem) (dir : CString) (entries : List CString) :
    Prop where
  paths : PathsFit dir entries
  reads : ∀ ent ∈ pbEntries entries,
    readFile fs (dir.bytes ++ 47 :: ent.bytes) = some (sliceOf fs dir ent)
  fits : ((pbEntries entries).flatMap (sliceOf fs dir)).length ≤ imageSize
  registers : ∃ q, pbcRegister p ((pbEntries entries).flatMap (sliceOf fs dir)) = some (.ok (), q)

/-! ## What is counted -/

theorem loadedEntries_eq (h : ∀ ent ∈ pbEntries entries, Loaded fs dir ent) :
    loadedEntries fs dir entries = pbEntries entries :=
  List.filter_eq_self.mpr fun ent hent => decide_eq_true (h ent hent)

theorem Loaded.sliceOf_eq (h : Loaded fs dir ent) : sliceOf fs dir ent = contentsOf fs dir ent := by
  unfold sliceOf contentsOf
  rw [h.2]

theorem mem_pbEntries : ent ∈ pbEntries entries ↔ ent ∈ entries ∧ lit ".pb" <:+ ent.bytes := by
  simp [pbEntries]

/-- The count of an iteration that reads a file, and of one that does not. -/
theorem loadEntries_counts {a b : AllFiles} {m k : BitVec 32}
    (hrun : loadEntries fs dir before ⟨mem.buffer, mem.len⟩ 0 = some (a, m))
    (hnext : loadEntries fs dir (before ++ [ent]) ⟨mem.buffer, mem.len⟩ 0 = some (b, k)) :
    k ≠ m ↔ lit ".pb" <:+ ent.bytes := by
  rw [loadEntries_append, hrun, Option.bind_some] at hnext
  by_cases hpb : lit ".pb" <:+ ent.bytes
  · obtain ⟨-, slice, c, -, -, hlast⟩ := loadEntries_pb_some hpb hnext
    cases hlast
    refine iff_of_true (fun heq => ?_) hpb
    have hone : (1 : BitVec 32).toNat = 1 := by decide
    have hnat : (m + 1).toNat = m.toNat := congrArg BitVec.toNat heq
    rw [BitVec.toNat_add, hone] at hnat
    omega
  · rw [loadEntries_other hpb] at hnext
    cases hnext
    exact iff_of_false (fun hne => hne rfl) hpb

/-- A directory that was read on the way to what the library accepted. -/
theorem Accepted.of_read {image : List UInt8} {m : BitVec 32} {q : Env} (hlen : mem.len = 0)
    (hread : readDirectory fs mem dir entries = some (image, m))
    (hregister : pbcRegister p image = some (.ok (), q)) :
    Accepted p fs dir entries ∧ image = (pbEntries entries).flatMap (sliceOf fs dir) ∧
      m = BitVec.ofNat 32 (pbEntries entries).length := by
  obtain ⟨hpaths, hreads, hfits⟩ := readDirectory_read hlen hread
  rw [readDirectory_reads hlen hreads hfits hpaths] at hread
  cases hread
  exact ⟨⟨hpaths, hreads, hfits, q, hregister⟩, rfl, rfl⟩

/-- The directory of a call that returned a count, with what was registered of it. -/
theorem initPbcEnvWithDir_count {n : ℤ} (hlen : mem.len = 0) (henv : s.env = some p)
    (hrun : (initPbcEnvWithDir fs mem dir).run s = .ret n t) (hn : 0 ≤ n) :
    ∃ entries q, fs.opendir dir.bytes = some entries ∧ Accepted p fs dir entries ∧
      n = (BitVec.ofNat 32 (pbEntries entries).length).toInt ∧ t.env = some q ∧
      pbcRegister p ((pbEntries entries).flatMap (sliceOf fs dir)) = some (.ok (), q) := by
  rcases initPbcEnvWithDir_cases henv hrun with ⟨-, rfl⟩ |
    ⟨entries, image, m, rc, q, hlist, hread, hregister, ht, hok, herror⟩
  · exact absurd hn (by decide)
  · cases rc with
    | error e =>
        obtain rfl := herror e rfl
        exact absurd hn (by decide)
    | ok u =>
        obtain ⟨haccepted, rfl, rfl⟩ := Accepted.of_read hlen hread hregister
        exact ⟨entries, q, hlist, haccepted, hok rfl, ht, hregister⟩

/-- Conversely, what is accepted is counted. -/
theorem Accepted.run (hlen : mem.len = 0) (hlist : fs.opendir dir.bytes = some entries)
    (h : Accepted p fs dir entries) (henv : s.env = some p) :
    ∃ t, (initPbcEnvWithDir fs mem dir).run s =
      .ret (BitVec.ofNat 32 (pbEntries entries).length).toInt t := by
  obtain ⟨q, hregister⟩ := h.registers
  obtain ⟨a, t, hrun, -, hok, -⟩ := initPbcEnvWithDir_of_read hlist
    (readDirectory_reads hlen h.reads h.fits h.paths) henv hregister
  exact ⟨t, hok rfl ▸ hrun⟩

/-! ## When the count is right -/

/-- The entries are counted without overflow and all of them loaded, or the count is
negative as an `int`, and not taken for one. -/
def CountIsRight (fs : FileSystem) (dir : CString) (entries : List CString) : Prop :=
  2 ^ 31 ≤ (pbEntries entries).length % 2 ^ 32 ∨
    (pbEntries entries).length < 2 ^ 31 ∧ ∀ ent ∈ pbEntries entries, Loaded fs dir ent

private theorem toInt_count (k : ℕ) :
    (0 ≤ (BitVec.ofNat 32 k).toInt ↔ k % 2 ^ 32 < 2 ^ 31) ∧
      (k % 2 ^ 32 < 2 ^ 31 → (BitVec.ofNat 32 k).toInt = (k % 2 ^ 32 : ℕ)) := by
  rw [BitVec.toInt_eq_toNat_cond, BitVec.toNat_ofNat]
  split <;> omega

theorem CountIsRight.of_nonneg (h : CountIsRight fs dir entries)
    (hn : 0 ≤ (BitVec.ofNat 32 (pbEntries entries).length).toInt) :
    (BitVec.ofNat 32 (pbEntries entries).length).toInt = (pbEntries entries).length ∧
      ∀ ent ∈ pbEntries entries, Loaded fs dir ent := by
  obtain ⟨hsign, hvalue⟩ := toInt_count (pbEntries entries).length
  have hlt := hsign.mp hn
  rcases h with hneg | ⟨hcount, hall⟩
  · omega
  · exact ⟨by rw [hvalue hlt, Nat.mod_eq_of_lt (by omega)], hall⟩

theorem CountsLoaded.countIsRight (hlen : mem.len = 0) (h : CountsLoaded fs mem dir p)
    (hlist : fs.opendir dir.bytes = some entries) (haccepted : Accepted p fs dir entries) :
    CountIsRight fs dir entries := by
  obtain ⟨t, hrun⟩ := haccepted.run (s := ⟨some p, false, none, []⟩) hlen hlist rfl
  obtain ⟨hsign, hvalue⟩ := toInt_count (pbEntries entries).length
  by_cases hneg : 2 ^ 31 ≤ (pbEntries entries).length % 2 ^ 32
  · exact .inl hneg
  · have hn := hsign.mpr (Nat.lt_of_not_le hneg)
    have hread := readDirectory_reads hlen haccepted.reads haccepted.fits haccepted.paths
    unfold readDirectory at hread
    obtain ⟨r, hloop, -⟩ := Option.bind_eq_some_iff.mp hread
    have hall : ∀ ent ∈ pbEntries entries, Loaded fs dir ent := by
      intro ent hent
      obtain ⟨hmem, hpb⟩ := mem_pbEntries.mp hent
      obtain ⟨before, after, rfl⟩ := List.append_of_mem hmem
      -- the iterations up to the entry, and the one for it
      rw [List.append_cons, loadEntries_append] at hloop
      obtain ⟨⟨b, k⟩, hnext, -⟩ := Option.bind_eq_some_iff.mp hloop
      have hfirst := hnext
      rw [loadEntries_append] at hfirst
      obtain ⟨⟨a, m⟩, hbefore, -⟩ := Option.bind_eq_some_iff.mp hfirst
      exact h.counted _ _ t _ before ent a b m k rfl hrun hn hlist
        ⟨after, by simp⟩ hbefore hnext ((loadEntries_counts hbefore hnext).mpr hpb)
    obtain ⟨entries', q, hlist', hcount, -⟩ := h.counts _ _ t rfl hrun hn
    rw [hlist] at hlist'
    cases hlist'
    rw [loadedEntries_eq hall, hvalue (Nat.lt_of_not_le hneg)] at hcount
    exact .inr ⟨by omega, hall⟩

section Right

variable (hright : ∀ entries, fs.opendir dir.bytes = some entries → Accepted p fs dir entries →
  CountIsRight fs dir entries)

include hright

/-- What a call has registered if it returns a number. -/
private theorem count_of_right {n : ℤ} (hlen : mem.len = 0) (henv : s.env = some p)
    (hrun : (initPbcEnvWithDir fs mem dir).run s = .ret n t) (hn : 0 ≤ n) :
    ∃ entries q, fs.opendir dir.bytes = some entries ∧ n = (pbEntries entries).length ∧
      (∀ ent ∈ pbEntries entries, Loaded fs dir ent) ∧
      pbcRegister p ((pbEntries entries).flatMap (sliceOf fs dir)) = some (.ok (), q) ∧
      t.env = some q := by
  obtain ⟨entries, q, hlist, haccepted, rfl, ht, hregister⟩ :=
    initPbcEnvWithDir_count hlen henv hrun hn
  obtain ⟨hvalue, hall⟩ := (hright entries hlist haccepted).of_nonneg hn
  exact ⟨entries, q, hlist, hvalue, hall, hregister, ht⟩

/-- The flag is set, and zero is returned, only once a file was loaded. -/
private theorem succeeds_of_right {log : List (InitCall × ℤ)} (hnew : pbcNew = some p)
    (hs : s.is_env_initialize = false)
    (h : Prog.Runs (fun c _ => c.fs = fs ∧ c.pb_dir = dir ∧ c.mem.len = 0) initPbEnv s log t) :
    (t.is_env_initialize = true ∨ ∃ c, (c, 0) ∈ log) →
      ∃ entries, fs.opendir dir.bytes = some entries ∧ loadedEntries fs dir entries ≠ [] := by
  refine h.invariant (I := fun log t => (t.is_env_initialize = true ∨ ∃ c, (c, (0 : ℤ)) ∈ log) →
    ∃ entries, fs.opendir dir.bytes = some entries ∧ loadedEntries fs dir entries ≠ []) ?_ ?_
  · rintro (hflag | ⟨c, hc⟩)
    · rw [hs] at hflag
      cases hflag
    · cases hc
  · rintro log u c a v hlog ⟨rfl, rfl, hlen⟩ hret hv
    have hfirst : u.is_env_initialize = false → a = 0 → ∃ entries,
        c.fs.opendir c.pb_dir.bytes = some entries ∧
          loadedEntries c.fs c.pb_dir entries ≠ [] := by
      rintro hflag rfl
      obtain ⟨n, w, hload, hn, -⟩ := initPbEnv_loaded hnew hflag hret
      obtain ⟨entries, q, hlist, hvalue, hall, -⟩ := count_of_right hright hlen rfl hload (by omega)
      refine ⟨entries, hlist, ?_⟩
      rw [loadedEntries_eq hall]
      exact List.ne_nil_of_length_pos (by omega)
    rcases initPbEnv_cases hret with ⟨hflag, -, -, -⟩ | ⟨hflag, ha, -⟩ | ⟨hflag, ha, hfail⟩
    · exact hlog (.inl hflag)
    · exact hfirst hflag ha
    · rcases hv with hset | ⟨d, hd⟩
      · rw [hfail] at hset
        cases hset
      · rcases List.mem_append.mp hd with hd | hd
        · exact hlog (.inr ⟨d, hd⟩)
        · cases List.mem_singleton.mp hd
          exact absurd ha (by decide)

end Right

/-- From a length of zero on, the count is that of the files that were loaded exactly
if every descriptor file of a directory that is accepted can be opened and read
whole, and an `int` can count them. -/
theorem countsLoaded_iff (hlen : mem.len = 0) :
    CountsLoaded fs mem dir p ↔ ∀ entries, fs.opendir dir.bytes = some entries →
      Accepted p fs dir entries → CountIsRight fs dir entries := by
  constructor
  · exact fun h entries hlist haccepted => h.countIsRight hlen hlist haccepted
  · intro hright
    constructor
    · intro s n t henv hrun hn
      obtain ⟨entries, q, hlist, hvalue, hall, hregister, ht⟩ :=
        count_of_right hright hlen henv hrun hn
      have hsame : (pbEntries entries).flatMap (sliceOf fs dir) =
          (pbEntries entries).flatMap (contentsOf fs dir) :=
        List.flatMap_congr fun ent hent => (hall ent hent).sliceOf_eq
      refine ⟨entries, q, hlist, ?_, ?_, ht⟩
      · rw [loadedEntries_eq hall, hvalue]
      · rw [loadedEntries_eq hall, ← hsame, hregister]
    · intro s n t entries before ent a b m k henv hrun hn hlist hlisted hbefore hnext hne
      obtain ⟨entries', q, hlist', -, hall, -⟩ := count_of_right hright hlen henv hrun hn
      rw [hlist] at hlist'
      cases hlist'
      have hmem : ent ∈ entries := hlisted.subset (by simp)
      exact hall ent (mem_pbEntries.mpr ⟨hmem, (loadEntries_counts hbefore hnext).mp hne⟩)
    · intro s entries image m e q henv hlist hread hregister
      obtain ⟨n, t, hrun, -, -, herror⟩ := initPbcEnvWithDir_of_read hlist hread henv hregister
      exact ⟨t, herror e rfl ▸ hrun⟩
    · exact fun hnew s log t c hs hruns hc => succeeds_of_right hright hnew hs hruns (.inr ⟨c, hc⟩)

/-- One file, which is opened, read and registered. -/
theorem countsLoaded_one : ∃ p t, pbcNew = some p ∧
    (initPbcEnvWithDir oneFile (startingAt 0) (.lit "pb")).run ⟨some p, false, none, []⟩ =
      .ret 1 t ∧
    CountsLoaded oneFile (startingAt 0) (.lit "pb") p := by
  obtain ⟨p, q, -, -, hnew, hregister, -⟩ := loads_M
  have hmem : (startingAt 0).len = 0 := rfl
  have hfiles : pbFiles oneFile (.lit "pb") [.lit "m.pb"] = oneType := by decide
  obtain ⟨n, t, hrun, -, hn, -⟩ := initPbcEnvWithDir_run (s := ⟨some p, false, none, []⟩) hmem
    (by rw [hfiles]; decide) (by unfold PathsFit; decide) rfl rfl (hfiles ▸ hregister)
  have hone : (BitVec.ofNat 32 (pbEntries [.lit "m.pb"]).length).toInt = 1 := by decide
  refine ⟨p, t, hnew, (hn rfl).trans hone ▸ hrun, (countsLoaded_iff hmem).mpr ?_⟩
  intro entries hlist _
  cases hlist
  exact .inr ⟨by decide, by decide⟩

/-- A disk with a directory of two entries, of which one cannot be opened. -/
def oneMissing : FileSystem where
  opendir _ := some [.lit "one.pb", .lit "two.pb"]
  fopen path := if path = lit "pb/one.pb" then some oneType else none

/-- Two is returned for one file. -/
theorem missing_file_counted : ¬ ∀ (fs : FileSystem) (mem : LoadLocals) (dir : CString) (p : Env),
    mem.len = 0 → pbcNew = some p → CountsLoaded fs mem dir p := by
  intro hclaim
  obtain ⟨p, q, -, -, hnew, hregister, -⟩ := loads_M
  obtain ⟨mem, hmem⟩ : ∃ mem : LoadLocals, mem.len = 0 := ⟨startingAt 0, rfl⟩
  have hfiles : pbFiles oneMissing (.lit "pb") [.lit "one.pb", .lit "two.pb"] = oneType := by decide
  obtain ⟨n, t, hrun, -, hn, -⟩ := initPbcEnvWithDir_run (s := ⟨some p, false, none, []⟩) hmem
    (by rw [hfiles]; decide) (by unfold PathsFit; decide) rfl rfl (hfiles ▸ hregister)
  have htwo : (BitVec.ofNat 32 (pbEntries [.lit "one.pb", .lit "two.pb"]).length).toInt = 2 := by decide
  have hone : (loadedEntries oneMissing (.lit "pb") [.lit "one.pb", .lit "two.pb"]).length = 1 := by
    decide
  have hvalue : n = 2 := (hn rfl).trans htwo
  obtain ⟨entries, r, hlist, hcount, -⟩ := (hclaim oneMissing mem (.lit "pb") p hmem hnew).counts
    _ n t rfl hrun (by omega)
  cases hlist
  rw [hone] at hcount
  omega

end HdClient
