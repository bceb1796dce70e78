-- SUMMARY: Loading a directory in whatever order it is listed: what is returned, and which descriptor files are registered.
import HdClient.Client.Images
import HdClient.Pbc.Loading

/-! # Listings

The files of a directory are registered as one set, in the order in which the
directory lists them. -/

namespace HdClient

open Pbc

/-- The descriptors that the library reads of the file of an entry. -/
def descriptorsOf (p : Env) (fs : FileSystem) (dir ent : CString) : List Descriptor :=
  (openDescriptors p (contentsOf fs dir ent)).getD []

/-- The descriptors of the files of a directory, in listing order. -/
def pbDescriptors (p : Env) (fs : FileSystem) (dir : CString) (entries : List CString) :
    List Descriptor :=
  (pbEntries entries).flatMap (descriptorsOf p fs dir)

/-- A directory of descriptor files that can be opened, fit the buffer, and are
sets of files with different names, each of which can be registered wherever its
dependencies are. -/
structure Loadable (p : Env) (fs : FileSystem) (dir : CString) (entries : List CString) :
    Prop where
  readable : ∀ ent ∈ pbEntries entries, fs.fopen (dir.bytes ++ 47 :: ent.bytes) ≠ none
  paths : PathsFit dir entries
  fits : (pbFiles fs dir entries).length ≤ imageSize
  sets : ∀ ent ∈ pbEntries entries, ∃ set, openDescriptors p (contentsOf fs dir ent) = some set
  registers : Registers (pbFiles fs dir entries).length (pbDescriptors p fs dir entries) p
  distinct : ((pbDescriptors p fs dir entries).map Descriptor.name).Nodup
  nonempty : pbDescriptors p fs dir entries ≠ []

/-- One directory, listed in two orders. -/
structure TwoListings (fs fs' : FileSystem) (dir : CString) (entries entries' : List CString) :
    Prop where
  files : fs'.fopen = fs.fopen
  list : fs.opendir dir.bytes = some entries
  list' : fs'.opendir dir.bytes = some entries'
  perm : entries.Perm entries'

/-- What loading a directory comes to: the same value and the same registered
files for both listings, and the number of the files if `loads` is the case and
minus one otherwise. -/
def LoadsAlike (loads : Prop) (fs fs' : FileSystem) (mem mem' : LoadLocals) (dir : CString)
    (entries : List CString) (s : Globals) : Prop :=
  ∃ a t t' q q', (initPbcEnvWithDir fs mem dir).run s = .ret a t ∧
    (initPbcEnvWithDir fs' mem' dir).run s = .ret a t' ∧
    t.env = some q ∧ t'.env = some q' ∧ (∀ n, q.Holds n ↔ q'.Holds n) ∧
    (a = (pbEntries entries).length ∧ loads ∨ a = -1 ∧ ¬ loads)

/-! ## One listing -/

section Listing

variable {p : Env} {fs fs' : FileSystem} {mem mem' : LoadLocals} {dir : CString}
  {entries entries' : List CString} {s : Globals}

theorem openDescriptors_pbFiles (hp : ReadsSets p)
    (hsets : ∀ ent ∈ pbEntries entries, ∃ set, openDescriptors p (contentsOf fs dir ent) = some set)
    (hfit : (pbFiles fs dir entries).length ≤ recordsMax) :
    openDescriptors p (pbFiles fs dir entries) = some (pbDescriptors p fs dir entries) := by
  unfold pbFiles pbDescriptors at *
  generalize pbEntries entries = listed at *
  induction listed with
  | nil => exact openDescriptors_nil hp
  | cons ent listed ih =>
      obtain ⟨set, hset⟩ := hsets ent List.mem_cons_self
      have hhead : descriptorsOf p fs dir ent = set := by
        unfold descriptorsOf
        rw [hset]
        rfl
      rw [List.flatMap_cons] at hfit
      rw [List.flatMap_cons, List.flatMap_cons, hhead]
      refine openDescriptors_append hp hset (ih ?_ ?_) hfit
      · exact fun e he => hsets e (List.mem_cons_of_mem _ he)
      · rw [List.length_append] at hfit
        omega

/-- What one call comes to, for one listing. -/
theorem initPbcEnvWithDir_spec (hp : ReadsSets p) (henv : s.env = some p) (hlen : mem.len = 0)
    (hlist : fs.opendir dir.bytes = some entries) (h : Loadable p fs dir entries)
    (hask : Askable (pbDescriptors p fs dir entries) p)
    (hcount : (pbEntries entries).length < 2 ^ 31) :
    ∃ a t q, (initPbcEnvWithDir fs mem dir).run s = .ret a t ∧ t.env = some q ∧
      (∀ n, q.Holds n ↔ Registrable (pbDescriptors p fs dir entries) p n) ∧
      (a = (pbEntries entries).length ∧ Loads (pbDescriptors p fs dir entries) p ∨
        a = -1 ∧ ¬ Loads (pbDescriptors p fs dir entries) p) := by
  have hsmall : imageSize ≤ recordsMax := by decide
  have hopen := openDescriptors_pbFiles hp h.sets (Nat.le_trans h.fits hsmall)
  obtain ⟨rc, q, hregister, hholds, hrc⟩ :=
    pbcRegister_spec hopen hask h.registers h.distinct h.nonempty
  obtain ⟨a, t, hrun, ht, hok, herror⟩ :=
    initPbcEnvWithDir_run hlen h.fits h.paths hlist henv hregister
  have htotal : (BitVec.ofNat 32 (pbEntries entries).length).toInt = (pbEntries entries).length := by
    rw [BitVec.toInt_eq_toNat_of_lt (by rw [BitVec.toNat_ofNat]; omega), BitVec.toNat_ofNat]
    omega
  refine ⟨a, t, q, hrun, ht, hholds, ?_⟩
  rcases hrc with ⟨hrc, hloads⟩ | ⟨hrc, hloads⟩
  · exact .inl ⟨(hok hrc).trans htotal, hloads⟩
  · exact .inr ⟨herror _ hrc, hloads⟩

/-! ## Another listing -/

theorem pbEntries_perm (h : entries.Perm entries') : (pbEntries entries).Perm (pbEntries entries') :=
  h.filter _

theorem TwoListings.contents (h : TwoListings fs fs' dir entries entries') (ent : CString) :
    contentsOf fs' dir ent = contentsOf fs dir ent := by
  unfold contentsOf
  rw [h.files]

theorem TwoListings.descriptors (h : TwoListings fs fs' dir entries entries') :
    (pbDescriptors p fs dir entries).Perm (pbDescriptors p fs' dir entries') := by
  have hsame : descriptorsOf p fs' dir = descriptorsOf p fs dir := by
    funext ent
    unfold descriptorsOf
    rw [h.contents]
  unfold pbDescriptors
  rw [hsame]
  exact (pbEntries_perm h.perm).flatMap_right _

theorem TwoListings.pbFiles_perm (h : TwoListings fs fs' dir entries entries') :
    (pbFiles fs dir entries).Perm (pbFiles fs' dir entries') := by
  have hsame : contentsOf fs' dir = contentsOf fs dir := funext h.contents
  unfold pbFiles
  rw [hsame]
  exact (pbEntries_perm h.perm).flatMap_right _

theorem Loadable.listing (h : Loadable p fs dir entries)
    (hsame : TwoListings fs fs' dir entries entries') : Loadable p fs' dir entries' where
  readable ent hent := by
    rw [hsame.files]
    exact h.readable ent ((pbEntries_perm hsame.perm).symm.subset hent)
  paths ent hent := h.paths ent ((pbEntries_perm hsame.perm).symm.subset hent)
  fits := hsame.pbFiles_perm.length_eq ▸ h.fits
  sets ent hent := by
    rw [hsame.contents]
    exact h.sets ent ((pbEntries_perm hsame.perm).symm.subset hent)
  registers := hsame.pbFiles_perm.length_eq ▸ h.registers.perm hsame.descriptors
  distinct := (hsame.descriptors.map Descriptor.name).nodup_iff.mp h.distinct
  nonempty hnil := h.nonempty (List.Perm.eq_nil (hnil ▸ hsame.descriptors))

/-- Where the table of files can be asked about every name, the order of a
listing does not matter. -/
theorem loadsAlike_of_askable (hp : ReadsSets p) (henv : s.env = some p) (hlen : mem.len = 0)
    (hlen' : mem'.len = 0) (hsame : TwoListings fs fs' dir entries entries')
    (h : Loadable p fs dir entries) (hask : Askable (pbDescriptors p fs dir entries) p)
    (hcount : (pbEntries entries).length < 2 ^ 31) :
    LoadsAlike (Loads (pbDescriptors p fs dir entries) p) fs fs' mem mem' dir entries s := by
  have hnumber := (pbEntries_perm hsame.perm).length_eq
  obtain ⟨a, t, q, hrun, ht, hholds, ha⟩ :=
    initPbcEnvWithDir_spec hp henv hlen hsame.list h hask hcount
  obtain ⟨a', t', q', hrun', ht', hholds', ha'⟩ :=
    initPbcEnvWithDir_spec hp henv hlen' hsame.list' (h.listing hsame)
      (hask.perm hsame.descriptors) (by omega)
  have hloads : Loads (pbDescriptors p fs' dir entries') p ↔
      Loads (pbDescriptors p fs dir entries) p :=
    (Dependencies.satisfiable_perm (hsame.descriptors.filter _)).symm
  have hvalue : a' = a := by
    rw [hloads, ← hnumber] at ha'
    rcases ha with ⟨rfl, hyes⟩ | ⟨rfl, hno⟩
    · rcases ha' with ⟨rfl, -⟩ | ⟨-, hno⟩
      · rfl
      · exact absurd hyes hno
    · rcases ha' with ⟨-, hyes⟩ | ⟨rfl, -⟩
      · exact absurd hyes hno
      · rfl
  subst hvalue
  refine ⟨a', t, t', q, q', hrun, hrun', ht, ht', fun n => ?_, ha⟩
  rw [hholds, hholds']
  exact Dependencies.obtainable_perm hsame.descriptors n

end Listing

/-! ## Two files -/

/-- A file that declares a package and nothing in it. -/
def declaresNothing (p : Env) (file : RMessage) : Bool :=
  ((file.query (lit "package")).bind id).isSome &&
    (rmessageString p file (lit "package") 0).isSome &&
    [lit "enum_type", lit "message_type", lit "extension"].all fun key =>
      rmessageSize file key = some 0

/-- Of such a file, nothing is registered but its name. -/
theorem registerFile_of_declaresNothing {p : Env} {file : RMessage}
    (h : declaresNothing p file = true) (depth : ℕ) (q : Env) :
    registerFile depth q file = some q := by
  simp only [declaresNothing, Bool.and_eq_true, List.all_eq_true, decide_eq_true_eq,
    Option.isSome_iff_exists] at h
  obtain ⟨⟨⟨v, hv⟩, package, hpackage⟩, hsize⟩ := h
  obtain ⟨found, hquery, rfl⟩ := Option.bind_eq_some_iff.mp hv
  have hpackage' : rmessageString q file (lit "package") 0 = some package :=
    (rmessageString_present hquery 0).trans hpackage
  unfold registerFile registerExtension
  simp only [Option.bind_eq_bind, hpackage', Option.bind_some,
    hsize (lit "enum_type") (by simp), hsize (lit "message_type") (by simp),
    hsize (lit "extension") (by simp), List.range_zero, registerEnums, registerTypes,
    registerExtensions, resolveFields]

/-- A disk with two files, in a directory that is listed as `entries`. -/
def twoFiles (a b : List UInt8) (entries : List CString) : FileSystem where
  opendir _ := some entries
  fopen path := if path = lit "pb/a.pb" then some a else if path = lit "pb/b.pb" then some b else none

section TwoFiles

variable {p : Env} {a b : List UInt8} {d e : Descriptor}

private theorem contentsOf_a (a b : List UInt8) (entries : List CString) :
    contentsOf (twoFiles a b entries) (.lit "pb") (.lit "a.pb") = a := by
  have hpath : (CString.lit "pb").bytes ++ 47 :: (CString.lit "a.pb").bytes = lit "pb/a.pb" := by
    decide
  unfold contentsOf
  rw [hpath]
  simp [twoFiles]

private theorem contentsOf_b (a b : List UInt8) (entries : List CString) :
    contentsOf (twoFiles a b entries) (.lit "pb") (.lit "b.pb") = b := by
  have hpath : (CString.lit "pb").bytes ++ 47 :: (CString.lit "b.pb").bytes = lit "pb/b.pb" := by
    decide
  have hne : lit "pb/b.pb" ≠ lit "pb/a.pb" := by decide
  unfold contentsOf
  rw [hpath]
  simp [twoFiles, hne]

private theorem pbEntries_two :
    pbEntries [.lit "a.pb", .lit "b.pb"] = [.lit "a.pb", .lit "b.pb"] := by
  rw [pbEntries_cons, if_pos (by decide), pbEntries_cons, if_pos (by decide)]
  rfl

private theorem pbFiles_two (a b : List UInt8) (entries : List CString) :
    pbFiles (twoFiles a b entries) (.lit "pb") [.lit "a.pb", .lit "b.pb"] = a ++ b := by
  unfold pbFiles
  rw [pbEntries_two]
  simp [contentsOf_a, contentsOf_b]

private theorem pbDescriptors_two (ha : openDescriptors p a = some [d])
    (hb : openDescriptors p b = some [e]) (entries : List CString) :
    pbDescriptors p (twoFiles a b entries) (.lit "pb") [.lit "a.pb", .lit "b.pb"] = [d, e] := by
  unfold pbDescriptors
  rw [pbEntries_two]
  simp [descriptorsOf, contentsOf_a, contentsOf_b, ha, hb]

/-- Two sets of one file each, which declare nothing, can be loaded. -/
private theorem loadable_two (ha : openDescriptors p a = some [d])
    (hb : openDescriptors p b = some [e]) (hd : declaresNothing p d.file = true)
    (he : declaresNothing p e.file = true) (hne : d.name ≠ e.name)
    (hfit : (a ++ b).length ≤ imageSize) (entries : List CString) :
    Loadable p (twoFiles a b entries) (.lit "pb") [.lit "a.pb", .lit "b.pb"] := by
  have hset := pbDescriptors_two ha hb entries
  have hcontents : ∀ ent ∈ pbEntries [.lit "a.pb", .lit "b.pb"],
      (∃ c, (twoFiles a b entries).fopen ((CString.lit "pb").bytes ++ 47 :: ent.bytes) = some c) ∧
      ∃ set, openDescriptors p (contentsOf (twoFiles a b entries) (.lit "pb") ent) = some set := by
    rw [pbEntries_two]
    intro ent hent
    rcases List.mem_cons.mp hent with rfl | hent
    · exact ⟨⟨a, rfl⟩, _, (contentsOf_a a b entries).symm ▸ ha⟩
    · obtain rfl := List.mem_singleton.mp hent
      exact ⟨⟨b, rfl⟩, _, (contentsOf_b a b entries).symm ▸ hb⟩
  refine ⟨fun ent hent => ?_, by unfold PathsFit; decide, ?_, fun ent hent => (hcontents ent hent).2,
    ?_, ?_, ?_⟩
  · obtain ⟨c, hc⟩ := (hcontents ent hent).1
    rw [hc]
    exact Option.some_ne_none c
  · rw [pbFiles_two]
    exact hfit
  · rw [hset]
    intro q _ f hf _ _
    rcases List.mem_cons.mp hf with rfl | hf
    · exact ⟨_, registerFile_of_declaresNothing hd _ _⟩
    · obtain rfl := List.mem_singleton.mp hf
      exact ⟨_, registerFile_of_declaresNothing he _ _⟩
  · simp [hset, hne]
  · simp [hset]

end TwoFiles

/-! ## A new environment -/

/-- A set of one file, `a`. -/
def setA : List UInt8 := [10, 6, 10, 1, 97, 18, 1, 120]

/-- A set of one file, `b`, which depends on `a`. -/
def setB : List UInt8 := [10, 9, 10, 1, 98, 18, 1, 120, 26, 1, 97]

/-- A set of one file, which is called as the library calls its own. -/
def setDescriptor : List UInt8 :=
  [10, 15, 10, 10, 100, 101, 115, 99, 114, 105, 112, 116, 111, 114, 18, 1, 120]

/-- A set of one file, `e`, which depends on that one. -/
def setE : List UInt8 :=
  [10, 18, 10, 1, 101, 18, 1, 120, 26, 10, 100, 101, 115, 99, 114, 105, 112, 116, 111, 114]

/-- Another set of one file `a`, which depends on `z`. -/
def setAgain : List UInt8 := [10, 9, 10, 1, 97, 18, 1, 120, 26, 1, 122]

/-- What there is to see of a descriptor. -/
structure Shown where
  name : CStr
  dependency : List CStr
  empty : Bool
  deriving DecidableEq

/-- What there is to see of the descriptors of a set. -/
def shown (p : Env) (slice : List UInt8) : Option (List Shown) := do
  let set ← openDescriptors p slice
  pure (set.map fun d => ⟨d.name, d.dependency, declaresNothing p d.file⟩)

private theorem shown_one {p : Env} {slice : List UInt8} {name : CStr} {dependency : List CStr}
    (h : shown p slice = some [⟨name, dependency, true⟩]) :
    ∃ d, openDescriptors p slice = some [d] ∧ d.name = name ∧ d.dependency = dependency ∧
      declaresNothing p d.file = true := by
  obtain ⟨set, hset, hshown⟩ := Option.bind_eq_some_iff.mp h
  obtain ⟨d, rfl, hd⟩ := List.map_eq_singleton_iff.mp (Option.some.inj hshown)
  rw [Shown.mk.injEq] at hd
  exact ⟨d, hset, hd.1, hd.2.1, hd.2.2⟩

/-- What there is to see of the table of files and of the type of sets. -/
structure Seen where
  files : List (CStr × Option Unit)
  numbers : List ℤ
  zero : Option Field
  one : Option Field
  deriving DecidableEq

def seen (p : Env) : Option Seen := do
  let i ← getMessage p (lit "google.protobuf.FileDescriptorSet")
  let m ← p.messages[← i]?
  let ids ← m.id
  pure ⟨p.files.entries, ids.keys, m.queryId 0, m.queryId 1⟩

/-- The field for the files of a set. -/
def fileField : Field := ⟨1, lit "file", .message, .repeated, .integer ⟨0, 0⟩, .m (some 1)⟩

private theorem readsSets_of_seen {p : Env} {files : List (CStr × Option Unit)}
    (h : seen p = some ⟨files, [0, 1], none, some fileField⟩) :
    ReadsSets p ∧ p.files.entries = files := by
  unfold seen at h
  simp only [Option.bind_eq_bind, Option.bind_eq_some_iff] at h
  obtain ⟨found, hfound, i, rfl, m, hm, ids, hids, hpure⟩ := h
  simp only [Option.pure_def, Option.some.injEq, Seen.mk.injEq] at hpure
  obtain ⟨hfiles, hnumbers, hzero, hone⟩ := hpure
  refine ⟨⟨i, m, fileField, 1, hfound, hm, hone, fun k hk => ?_, rfl, rfl, rfl, rfl⟩, hfiles⟩
  cases hquery : m.queryId k with
  | none => rfl
  | some f =>
      have hfield := hquery
      unfold Message.queryId at hfield
      rw [hids, Option.bind_some] at hfield
      obtain ⟨j, hj, -⟩ := Option.bind_eq_some_iff.mp hfield
      have hkey := MapIp.mem_keys hj
      rw [hnumbers] at hkey
      rcases List.mem_cons.mp hkey with rfl | hkey
      · rw [hzero] at hquery
        cases hquery
      · exact absurd (List.mem_singleton.mp hkey) hk

/-- What there is to see in a new environment: the four sets, and whether registering
the last two of them fails. -/
structure SeenByNew where
  seen : Option Seen
  sets : List (List Shown)
  fails : Bool
  deriving DecidableEq

def seenByNew : Option SeenByNew := do
  let p ← pbcNew
  let a ← shown p setA
  let b ← shown p setB
  let descriptor ← shown p setDescriptor
  let e ← shown p setE
  let (rc, _) ← pbcRegister p (setDescriptor ++ setE)
  pure ⟨seen p, [a, b, descriptor, e], rc matches .error _⟩

private theorem seenByNew_eq : seenByNew = some {
    seen := some ⟨[(lit "descriptor", none)], [0, 1], none, some fileField⟩
    sets := [[⟨lit "a", [], true⟩], [⟨lit "b", [lit "a"], true⟩], [⟨lit "descriptor", [], true⟩],
      [⟨lit "e", [lit "descriptor"], true⟩]]
    fails := true } := by
  decide +kernel

/-- A new environment reads sets, has the library's own file and no other, and
fails to register a file that depends on one which is called like that. -/
private theorem new_environment : ∃ p q rc, pbcNew = some p ∧ ReadsSets p ∧
    p.files.entries = [(lit "descriptor", none)] ∧
    (shown p setA = some [⟨lit "a", [], true⟩] ∧ shown p setB = some [⟨lit "b", [lit "a"], true⟩] ∧
      shown p setDescriptor = some [⟨lit "descriptor", [], true⟩] ∧
      shown p setE = some [⟨lit "e", [lit "descriptor"], true⟩]) ∧
    pbcRegister p (setDescriptor ++ setE) = some (.error rc, q) := by
  have hseen := seenByNew_eq
  unfold seenByNew at hseen
  simp only [Option.bind_eq_bind, Option.bind_eq_some_iff] at hseen
  obtain ⟨p, hnew, a, ha, b, hb, d, hd, e, he, ⟨rc, q⟩, hregister, hpure⟩ := hseen
  simp only [Option.pure_def, Option.some.injEq, SeenByNew.mk.injEq, List.cons.injEq,
    and_true] at hpure
  obtain ⟨hp, ⟨rfl, rfl, rfl, rfl⟩, hfails⟩ := hpure
  obtain ⟨hreads, hfiles⟩ := readsSets_of_seen hp
  cases rc with
  | ok u => cases hfails
  | error rc => exact ⟨p, q, rc, hnew, hreads, hfiles, ⟨ha, hb, hd, he⟩, hregister⟩

/-- Two listings of a directory with two files, of which one depends on the other. -/
theorem loadsAlike_two : ∃ p, pbcNew = some p ∧
    LoadsAlike (Loads (pbDescriptors p (twoFiles setA setB [.lit "a.pb", .lit "b.pb"]) (.lit "pb")
        [.lit "a.pb", .lit "b.pb"]) p)
      (twoFiles setA setB [.lit "a.pb", .lit "b.pb"])
      (twoFiles setA setB [.lit "b.pb", .lit "a.pb"]) (startingAt 0) (startingAt 0) (.lit "pb")
      [.lit "a.pb", .lit "b.pb"] ⟨some p, false, none, []⟩ := by
  obtain ⟨p, -, -, hnew, hp, hfiles, ⟨ha, hb, -, -⟩, -⟩ := new_environment
  obtain ⟨d, hd, hdname, hddeps, hdempty⟩ := shown_one ha
  obtain ⟨e, he, hename, hedeps, heempty⟩ := shown_one hb
  have hset := pbDescriptors_two hd he [.lit "a.pb", .lit "b.pb"]
  have hload := loadable_two hd he hdempty heempty (by rw [hdname, hename]; decide)
    (by decide) [.lit "a.pb", .lit "b.pb"]
  have hnames : ∀ f ∈ [d, e], f.name = lit "a" ∨ f.name = lit "b" := by
    simp [hdname, hename]
  have hdeps : ∀ f ∈ [d, e], ∀ n ∈ f.dependency, n = lit "a" := by
    simp [hddeps, hedeps]
  have hshadows : ∀ n, p.Shadows n → n = lit "descriptor" := by
    intro n hn
    unfold Env.Shadows at hn
    rw [hfiles, List.mem_singleton] at hn
    exact (Prod.mk.inj hn).1
  have hask : Askable [d, e] p := by
    refine ⟨fun f hf => ?_, fun f hf hshadow => ?_, fun f hf _ before n after heq _ => ?_,
      fun f hf _ _ n hn hshadow => ?_⟩
    · rcases hnames f hf with hname | hname
      · rw [hname]
        decide
      · rw [hname]
        decide
    · rcases hnames f hf with hname | hname
      · exact absurd ((hshadows _ hshadow).symm.trans hname) (by decide)
      · exact absurd ((hshadows _ hshadow).symm.trans hname) (by decide)
    · rw [hdeps f hf n (heq ▸ List.mem_append_right _ List.mem_cons_self)]
      decide
    · exact absurd ((hshadows n hshadow).symm.trans (hdeps f hf n hn)) (by decide)
  exact ⟨p, hnew, loadsAlike_of_askable hp rfl rfl rfl ⟨rfl, rfl, rfl, List.Perm.swap _ _ _⟩ hload
    (hset ▸ hask) (by rw [pbEntries_two]; decide)⟩

/-- A file that is registered under the name of the library's own is not found, though
every file can be put behind those it depends on. -/
theorem descriptor_not_found : ¬ ∀ (p : Env) (fs fs' : FileSystem) (mem mem' : LoadLocals)
    (dir : CString) (entries entries' : List CString) (s : Globals), pbcNew = some p →
    s.env = some p → mem.len = 0 → mem'.len = 0 → TwoListings fs fs' dir entries entries' →
    Loadable p fs dir entries →
    LoadsAlike (Loads (pbDescriptors p fs dir entries) p) fs fs' mem mem' dir entries s := by
  intro hclaim
  obtain ⟨p, q, rc, hnew, hp, hfiles, ⟨-, -, hd, he⟩, hregister⟩ := new_environment
  obtain ⟨d, hd, hdname, hddeps, hdempty⟩ := shown_one hd
  obtain ⟨e, he, hename, hedeps, heempty⟩ := shown_one he
  have hset := pbDescriptors_two hd he [.lit "a.pb", .lit "b.pb"]
  have hload := loadable_two hd he hdempty heempty (by rw [hdname, hename]; decide)
    (by decide) [.lit "a.pb", .lit "b.pb"]
  obtain ⟨mem, hmem⟩ : ∃ mem : LoadLocals, mem.len = 0 := ⟨startingAt 0, rfl⟩
  obtain ⟨a, t, -, -, -, hrun, -, -, -, -, ha⟩ := hclaim p _ _ mem mem (.lit "pb")
    [.lit "a.pb", .lit "b.pb"] _ ⟨some p, false, none, []⟩ hnew rfl hmem hmem
    ⟨rfl, rfl, rfl, .refl _⟩ hload
  have hholds : ∀ n, ¬ p.Holds n := by
    intro n hn
    unfold Env.Holds at hn
    rw [hfiles, List.mem_singleton] at hn
    cases (Prod.mk.inj hn).2
  have hloads : Loads [d, e] p := by
    have hd' : Registrable [d, e] p d.name :=
      .item List.mem_cons_self fun n hn => by
        rw [hddeps] at hn
        cases hn
    refine (loads_iff (by simp [hdname, hename]; decide)).mpr fun f hf => ?_
    rcases List.mem_cons.mp hf with rfl | hf
    · exact hd'
    · obtain rfl := List.mem_singleton.mp hf
      refine .item (List.mem_cons_of_mem _ List.mem_cons_self) fun n hn => ?_
      rw [hedeps, List.mem_singleton] at hn
      rw [hn, ← hdname]
      exact hd'
  obtain ⟨a', t', hrun', -, -, herror⟩ := initPbcEnvWithDir_run (s := ⟨some p, false, none, []⟩)
    hmem hload.fits hload.paths rfl rfl ((pbFiles_two _ _ _).symm ▸ hregister)
  have hfails : a = -1 := by
    rw [hrun] at hrun'
    cases hrun'
    exact herror rc rfl
  rcases ha with ⟨hcount, -⟩ | ⟨-, hno⟩
  · rw [hfails] at hcount
    omega
  · exact hno (hset ▸ hloads)

/-! ## A file that is registered already -/

/-- What there is to see where `a` is registered: the other set with a file `a`, and
whether registering that one fails. -/
structure SeenByRegistered where
  seen : Option Seen
  again : List Shown
  fails : Bool
  deriving DecidableEq

def seenByRegistered : Option SeenByRegistered := do
  let p₀ ← pbcNew
  let (rc, p) ← pbcRegister p₀ setA
  if rc matches .ok _ then
    let again ← shown p setAgain
    let (rc', _) ← pbcRegister p setAgain
    pure ⟨seen p, again, rc' matches .error _⟩
  else none

private theorem seenByRegistered_eq : seenByRegistered = some {
    seen := some ⟨[(lit "descriptor", none), (lit "a", some ())], [0, 1], none, some fileField⟩
    again := [⟨lit "a", [lit "z"], true⟩]
    fails := false } := by
  decide +kernel

/-- An environment with the file `a`, in which the other file `a` can be registered. -/
private theorem registered_environment : ∃ p₀ p q, pbcNew = some p₀ ∧
    pbcRegister p₀ setA = some (.ok (), p) ∧ ReadsSets p ∧
    p.files.entries = [(lit "descriptor", none), (lit "a", some ())] ∧
    shown p setAgain = some [⟨lit "a", [lit "z"], true⟩] ∧
    pbcRegister p setAgain = some (.ok (), q) := by
  have hseen := seenByRegistered_eq
  unfold seenByRegistered at hseen
  simp only [Option.bind_eq_bind, Option.bind_eq_some_iff] at hseen
  obtain ⟨p₀, hnew, ⟨rc, p⟩, hregister, hseen⟩ := hseen
  cases rc with
  | error rc => cases hseen
  | ok u =>
      simp only [if_true, Option.bind_eq_some_iff] at hseen
      obtain ⟨again, hagain, ⟨rc', q⟩, hregister', hpure⟩ := hseen
      simp only [Option.pure_def, Option.some.injEq, SeenByRegistered.mk.injEq] at hpure
      obtain ⟨hp, rfl, hfails⟩ := hpure
      obtain ⟨hreads, hfiles⟩ := readsSets_of_seen hp
      cases rc' with
      | ok u => exact ⟨p₀, p, q, hnew, hregister, hreads, hfiles, hagain, hregister'⟩
      | error rc => cases hfails

private theorem pbEntries_one : pbEntries [.lit "a.pb"] = [.lit "a.pb"] := by
  rw [pbEntries_cons, if_pos (by decide)]
  rfl

private theorem pbFiles_one (a b : List UInt8) (entries : List CString) :
    pbFiles (twoFiles a b entries) (.lit "pb") [.lit "a.pb"] = a := by
  unfold pbFiles
  rw [pbEntries_one]
  simp [contentsOf_a]

/-- A file whose name is registered already is passed over, whatever it depends on. -/
theorem registered_again : ¬ ∀ (p₀ p : Env) (slice : List UInt8) (fs fs' : FileSystem)
    (mem mem' : LoadLocals) (dir : CString) (entries entries' : List CString) (s : Globals),
    pbcNew = some p₀ → pbcRegister p₀ slice = some (.ok (), p) → s.env = some p →
    mem.len = 0 → mem'.len = 0 → TwoListings fs fs' dir entries entries' →
    Loadable p fs dir entries →
    LoadsAlike (Dependencies.Satisfiable Descriptor.name Descriptor.dependency
      (pbDescriptors p fs dir entries) p.Holds) fs fs' mem mem' dir entries s := by
  intro hclaim
  obtain ⟨p₀, p, q, hnew, hregister, -, hfiles, hagain, hregister'⟩ := registered_environment
  obtain ⟨d, hd, hdname, hddeps, -⟩ := shown_one hagain
  have hholds : ∀ n, p.Holds n ↔ n = lit "a" := by
    intro n
    unfold Env.Holds
    simp [hfiles]
  have hset : pbDescriptors p (twoFiles setAgain [] [.lit "a.pb"]) (.lit "pb") [.lit "a.pb"] = [d] := by
    unfold pbDescriptors
    rw [pbEntries_one]
    simp [descriptorsOf, contentsOf_a, hd]
  have hload : Loadable p (twoFiles setAgain [] [.lit "a.pb"]) (.lit "pb") [.lit "a.pb"] := by
    refine ⟨fun ent hent => ?_, by unfold PathsFit; decide, ?_, fun ent hent => ?_, ?_, ?_, ?_⟩
    · rw [pbEntries_one] at hent
      obtain rfl := List.mem_singleton.mp hent
      exact Option.some_ne_none setAgain
    · rw [pbFiles_one]
      decide
    · rw [pbEntries_one] at hent
      obtain rfl := List.mem_singleton.mp hent
      exact ⟨[d], by rw [contentsOf_a, hd]⟩
    · rw [hset]
      intro r hr f hf hno
      obtain rfl := List.mem_singleton.mp hf
      exact absurd (hr.of_held ((hholds _).mpr hdname)) hno
    · simp [hset]
    · simp [hset]
  obtain ⟨mem, hmem⟩ : ∃ mem : LoadLocals, mem.len = 0 := ⟨startingAt 0, rfl⟩
  obtain ⟨a, t, -, -, -, hrun, -, -, -, -, ha⟩ := hclaim p₀ p setA _ _ mem mem (.lit "pb")
    [.lit "a.pb"] _ ⟨some p, false, none, []⟩ hnew hregister rfl hmem hmem
    ⟨rfl, rfl, rfl, .refl _⟩ hload
  have hz : ¬ Dependencies.Obtainable Descriptor.name Descriptor.dependency [d] p.Holds (lit "z") := by
    have hclosed : Dependencies.Closed Descriptor.name Descriptor.dependency [d] p.Holds
        fun n => n ≠ lit "z" := by
      refine ⟨fun n hn => ?_, fun f hf _ => ?_⟩
      · rw [(hholds n).mp hn]
        decide
      · obtain rfl := List.mem_singleton.mp hf
        rw [hdname]
        decide
    exact fun hgot => hgot.of_closed hclosed rfl
  obtain ⟨a', t', hrun', -, hok, -⟩ := initPbcEnvWithDir_run (s := ⟨some p, false, none, []⟩)
    hmem hload.fits hload.paths rfl rfl (by rw [pbFiles_one, hregister'])
  have hone : a = 1 := by
    rw [hrun] at hrun'
    cases hrun'
    rw [hok rfl, pbEntries_one]
    rfl
  rcases ha with ⟨-, hloads⟩ | ⟨hfails, -⟩
  · rw [hset, Dependencies.satisfiable_iff] at hloads
    exact hz (hloads d List.mem_cons_self _ (by simp [hddeps]))
  · omega

end HdClient
