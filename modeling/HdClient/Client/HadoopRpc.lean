-- SUMMARY: Making the environment of the client once and for all, and what becomes of it over runs of init_pb_env.
import HdClient.Base.Runs
import HdClient.Client.Images
import HdClient.Pbc.Registry
import HdClient.Pbc.Wmessage

/-! # Hadoop RPC

`init_pb_env` makes an environment before it asks whether there is one. -/

namespace HdClient

open Pbc

/-- One call of `init_pb_env`, with what it finds on the disk and on the stack. -/
structure InitCall where
  fs : FileSystem
  mem : LoadLocals
  pb_dir : CString
  hd_version : Option CString

/-- `init_pb_env` -/
def initPbEnv (c : InitCall) : Prog Globals ℤ := do
  let p ← .ofOption pbcNew
  .modify fun s => { s with env := some p }
  let s ← .get
  if s.is_env_initialize then do
    printLoad .alreadyInitialized
    pure 0
  else do
    let pb_count ← initPbcEnvWithDir c.fs c.mem c.pb_dir
    if pb_count ≤ 0 then do
      printLoad .initializeFailed
      pure 1
    else do
      .modify fun s => { s with
        is_env_initialize := true
        hadoop_version := c.hd_version.or s.hadoop_version }
      pure 0

/-! ## One call -/

variable {c : InitCall} {s t u : Globals} {a : ℤ} {log : List (InitCall × ℤ)}

private def SameFlag (s t : Globals) : Prop := t.is_env_initialize = s.is_env_initialize

private theorem sameFlag_frame : Prog.Frame SameFlag := ⟨fun _ => rfl, fun h h' => Eq.trans h' h⟩

private theorem sameFlag_printLoad (d : LoadDiag) : Prog.Keeps SameFlag (printLoad d) :=
  fun _ => rfl

private theorem initPbcEnvWithDir_flag (fs : FileSystem) (mem : LoadLocals) (dir : CString) :
    Prog.Keeps SameFlag (initPbcEnvWithDir fs mem dir) := by
  unfold initPbcEnvWithDir
  cases fs.opendir dir.bytes with
  | none => exact sameFlag_frame.keeps_bind (sameFlag_printLoad _) fun _ => sameFlag_frame.keeps_pure _
  | some entries =>
      refine sameFlag_frame.keeps_bind (sameFlag_frame.keeps_ofOption _) fun r => ?_
      refine sameFlag_frame.keeps_bind sameFlag_frame.keeps_get fun s => ?_
      refine sameFlag_frame.keeps_bind (sameFlag_frame.keeps_ofOption _) fun p => ?_
      refine sameFlag_frame.keeps_bind (sameFlag_frame.keeps_ofOption _) fun ⟨rc, env⟩ => ?_
      refine sameFlag_frame.keeps_bind (fun _ => rfl) fun _ => ?_
      cases rc with
      | error e =>
          exact sameFlag_frame.keeps_bind (sameFlag_printLoad _) fun _ =>
            sameFlag_frame.keeps_pure _
      | ok _ => exact sameFlag_frame.keeps_pure _

/-- What is made of the number of files. -/
private def reportCount (c : InitCall) (pb_count : ℤ) : Prog Globals ℤ :=
  if pb_count ≤ 0 then do
    printLoad .initializeFailed
    pure 1
  else do
    .modify fun s => { s with
      is_env_initialize := true
      hadoop_version := c.hd_version.or s.hadoop_version }
    pure 0

/-- A call on an initialised environment replaces it. -/
private theorem initPbEnv_initialized {p : Env} (hnew : pbcNew = some p)
    (hflag : s.is_env_initialize = true) :
    (initPbEnv c).run s =
      .ret 0 { s with env := some p, printed := s.printed ++ [.alreadyInitialized] } := by
  unfold initPbEnv
  rw [hnew]
  simp only [Prog.run_bind, Prog.ofOption_some, Prog.run_pure, Prog.run_modify, Prog.run_get,
    Outcome.andThen_ret]
  rw [if_pos hflag]
  rfl

/-- Otherwise it loads the directory into a new environment. -/
private theorem initPbEnv_uninitialized {p : Env} (hnew : pbcNew = some p)
    (hflag : s.is_env_initialize = false) :
    (initPbEnv c).run s =
      ((initPbcEnvWithDir c.fs c.mem c.pb_dir).run { s with env := some p }).andThen
        (reportCount c) := by
  unfold initPbEnv
  rw [hnew]
  simp only [Prog.run_bind, Prog.ofOption_some, Prog.run_pure, Prog.run_modify, Prog.run_get,
    Outcome.andThen_ret]
  rw [if_neg (by rw [hflag]; exact Bool.false_ne_true)]
  rfl

private theorem initPbEnv_undefined (hnew : pbcNew = none) :
    (initPbEnv c).run s = .undefined s := by
  unfold initPbEnv
  rw [hnew]
  rfl

private theorem reportCount_cases {n : ℤ} (h : (reportCount c n).run u = .ret a t) :
    (0 < n ∧ a = 0 ∧ t.is_env_initialize = true ∧ t.env = u.env) ∨
      (n ≤ 0 ∧ a = 1 ∧ t.is_env_initialize = u.is_env_initialize) := by
  unfold reportCount at h
  split at h
  · rename_i hn
    cases h
    exact .inr ⟨hn, rfl, rfl⟩
  · rename_i hn
    cases h
    exact .inl ⟨by omega, rfl, rfl, rfl⟩

/-- What a call can do: make a new environment and forget the old one, or load a
directory and say so, or fail to. -/
theorem initPbEnv_cases (h : (initPbEnv c).run s = .ret a t) :
    (s.is_env_initialize = true ∧ a = 0 ∧ t.is_env_initialize = true ∧ t.env = pbcNew) ∨
      (s.is_env_initialize = false ∧ a = 0 ∧ t.is_env_initialize = true) ∨
      (s.is_env_initialize = false ∧ a = 1 ∧ t.is_env_initialize = false) := by
  cases hnew : pbcNew with
  | none =>
      rw [initPbEnv_undefined hnew] at h
      cases h
  | some p =>
      cases hflag : s.is_env_initialize with
      | true =>
          rw [initPbEnv_initialized hnew hflag] at h
          cases h
          exact .inl ⟨rfl, rfl, hflag, rfl⟩
      | false =>
          rw [initPbEnv_uninitialized hnew hflag, ← Prog.run_bind] at h
          obtain ⟨n, u, hload, hreport⟩ := Prog.bind_eq_ret.mp h
          have hu : u.is_env_initialize = false :=
            Eq.trans ((initPbcEnvWithDir_flag c.fs c.mem c.pb_dir).of_ret hload) hflag
          rcases reportCount_cases hreport with ⟨-, ha, ht, -⟩ | ⟨-, ha, ht⟩
          · exact .inr (.inl ⟨rfl, ha, ht⟩)
          · exact .inr (.inr ⟨rfl, ha, ht.trans hu⟩)

/-- A call that does not return leaves an initialised environment as it was. -/
theorem initPbEnv_stopped (hstate : ((initPbEnv c).run s).state = t)
    (hstopped : ∀ a u, (initPbEnv c).run s ≠ .ret a u) :
    t.is_env_initialize = s.is_env_initialize ∧ (s.is_env_initialize = true → t.env = s.env) := by
  subst hstate
  cases hnew : pbcNew with
  | none =>
      rw [initPbEnv_undefined hnew]
      exact ⟨rfl, fun _ => rfl⟩
  | some p =>
      cases hflag : s.is_env_initialize with
      | true => exact absurd (initPbEnv_initialized hnew hflag) (hstopped _ _)
      | false =>
          have hkeeps := initPbcEnvWithDir_flag c.fs c.mem c.pb_dir { s with env := some p }
          rw [initPbEnv_uninitialized hnew hflag] at hstopped ⊢
          refine ⟨?_, fun h => absurd h (by decide)⟩
          cases hload : (initPbcEnvWithDir c.fs c.mem c.pb_dir).run { s with env := some p } with
          | ret n u =>
              rw [hload, Outcome.andThen_ret, reportCount] at hstopped
              split at hstopped <;> exact absurd rfl (hstopped _ _)
          | wait u =>
              rw [hload] at hkeeps
              exact Eq.trans hkeeps hflag
          | undefined u =>
              rw [hload] at hkeeps
              exact Eq.trans hkeeps hflag

/-- A call that loads a directory and says so has been given a number of files for
it, and leaves the environment as loading left it. -/
theorem initPbEnv_loaded {p : Env} (hnew : pbcNew = some p) (hflag : s.is_env_initialize = false)
    (h : (initPbEnv c).run s = .ret 0 t) :
    ∃ n u, (initPbcEnvWithDir c.fs c.mem c.pb_dir).run { s with env := some p } = .ret n u ∧
      0 < n ∧ t.env = u.env := by
  rw [initPbEnv_uninitialized hnew hflag, ← Prog.run_bind] at h
  obtain ⟨n, u, hload, hreport⟩ := Prog.bind_eq_ret.mp h
  rcases reportCount_cases hreport with ⟨hn, -, -, henv⟩ | ⟨-, ha, -⟩
  · exact ⟨n, u, hload, hn, henv⟩
  · exact absurd ha (by decide)

/-- A call on an environment that is not initialised succeeds when its directory loads. -/
private theorem initPbEnv_loads {p : Env} {n : ℤ} (hnew : pbcNew = some p)
    (hflag : s.is_env_initialize = false)
    (hload : (initPbcEnvWithDir c.fs c.mem c.pb_dir).run { s with env := some p } = .ret n u)
    (hn : ¬ n ≤ 0) :
    ∃ v, (initPbEnv c).run s = .ret 0 v ∧ v.is_env_initialize = true ∧ v.env = u.env := by
  refine ⟨{ u with
    is_env_initialize := true
    hadoop_version := c.hd_version.or u.hadoop_version }, ?_, rfl, rfl⟩
  rw [initPbEnv_uninitialized hnew hflag, hload, Outcome.andThen_ret, reportCount, if_neg hn]
  rfl

/-! ## Runs of calls -/

/-- A message type is found by `pbc_wmessage_new` and by `pbc_rmessage_new`. -/
structure FindsType (env : Option Env) (name : CStr) : Prop where
  wmessage : ∃ p ∈ env, ∃ m, wmessageNew p name = some (some m)
  rmessage : ∃ p ∈ env, (∃ message, rmessageNew p name [] = some (.ok message)) ∧
    ∀ slice, rmessageNew p name slice ≠ some (.error .protoNotFound)

/-- The directory of a call, registered in a new environment, makes it `q`. -/
def LoadsInto (c : InitCall) (q : Env) : Prop :=
  ∃ p entries image n, pbcNew = some p ∧ c.fs.opendir c.pb_dir.bytes = some entries ∧
    readDirectory c.fs c.mem c.pb_dir entries = some (image, n) ∧
    pbcRegister p image = some (.ok (), q)

/-- If the calls of `log` left an initialised environment, it is the one in which the
directory of the first call to succeed was registered, and every message type in it
is found. -/
def KeepsTypes (s : Globals) (log : List (InitCall × ℤ)) (t : Globals) : Prop :=
  t.is_env_initialize = true → ∃ before c after u v q, log = before ++ (c, 0) :: after ∧
    Prog.AnyRuns initPbEnv s before u ∧ (∀ e ∈ before, e.2 ≠ 0) ∧
    (initPbEnv c).run u = .ret 0 v ∧ LoadsInto c q ∧ t.env = some q ∧
    ∀ name type, (name, type) ∈ q.msgs.entries → FindsType t.env name

/-- No type that the directory of a call registers is one whose name was first seen
in an extension, and so was not copied. -/
def InitCall.CopiesNames (c : InitCall) : Prop := ∀ q, LoadsInto c q → q.freed = []

/-- Whatever has been registered is found, as long as all names were copied. -/
theorem findsType_of_entry {p : Env} (hp : Registries p) (hfreed : p.freed = []) {name : CStr}
    {type : Option ℕ} (hmem : (name, type) ∈ p.msgs.entries) : FindsType (some p) name := by
  obtain ⟨names, hsound⟩ := hp.sound
  obtain ⟨i, rfl, hplace⟩ := hsound.mem_entries.mp hmem
  have hget : getMessage p name = some (some i) := by
    rw [getMessage_of_hash (by simp [hfreed]), hsound.query_place hplace]
  have hlt : i < p.messages.length := hsound.length_eq ▸ (List.getElem?_eq_some_iff.mp hplace).1
  refine ⟨⟨p, rfl, _, wmessageNew_eq ⟨i, hget, List.getElem?_eq_getElem hlt⟩⟩, p, rfl, ?_,
    fun slice => ?_⟩
  · unfold rmessageNew
    simp [hget, rmessageNewAux]
  · unfold rmessageNew
    rw [hget]
    simp only [Option.bind_eq_bind, Option.bind_some]
    split
    · simp
    · split <;> simp

/-- A call on an environment that is not initialised, when it succeeds, leaves the one
in which it registered its directory. -/
theorem initPbEnv_loadsInto (hflag : s.is_env_initialize = false)
    (h : (initPbEnv c).run s = .ret 0 t) : ∃ q, LoadsInto c q ∧ t.env = some q := by
  cases hnew : pbcNew with
  | none =>
      rw [initPbEnv_undefined hnew] at h
      cases h
  | some p =>
      obtain ⟨n, u, hload, hn, henv⟩ := initPbEnv_loaded hnew hflag h
      rcases initPbcEnvWithDir_cases rfl hload with
        ⟨-, ha⟩ | ⟨entries, image, k, rc, q, hlist, hread, hregister, hu, -, herror⟩
      · omega
      · cases rc with
        | error e =>
            have := herror e rfl
            omega
        | ok _ => exact ⟨q, ⟨p, entries, image, k, hnew, hlist, hread, hregister⟩, henv.trans hu⟩

/-- Before anything is initialised, every call has failed. -/
private theorem failed_before
    (h : Prog.Runs (fun _ u => u.is_env_initialize = false) initPbEnv s log t)
    (ht : t.is_env_initialize = false) : ∀ e ∈ log, e.2 ≠ 0 := by
  have hinv : t.is_env_initialize = false → ∀ e ∈ log, e.2 ≠ 0 := by
    refine h.invariant (I := fun log t => t.is_env_initialize = false → ∀ e ∈ log, e.2 ≠ 0)
      (by simp) ?_
    intro log u c a v hlog hflag hret hv e he
    rcases List.mem_append.mp he with he | he
    · exact hlog hflag e he
    · obtain rfl := List.mem_singleton.mp he
      rcases initPbEnv_cases hret with ⟨-, -, hset, -⟩ | ⟨-, -, hset⟩ | ⟨-, ha, -⟩
      · exact absurd hset (by rw [hv]; decide)
      · exact absurd hset (by rw [hv]; decide)
      · simp [ha]
  exact hinv ht

/-- If no call is made once an environment is initialised, and all names are copied,
its types stay. -/
theorem keepsTypes_of_uninitialised (hs : s.is_env_initialize = false)
    (h : Prog.Runs (fun c u => u.is_env_initialize = false ∧ c.CopiesNames) initPbEnv s log t) :
    KeepsTypes s log t := by
  intro ht
  cases h with
  | nil =>
      rw [hs] at ht
      cases ht
  | @snoc log u t c a hlog hok hret =>
      -- the flag was not set before the last call, so it is that call that succeeded
      have hzero : a = 0 := by
        rcases initPbEnv_cases hret with ⟨-, ha, -⟩ | ⟨-, ha, -⟩ | ⟨-, -, hfail⟩
        · exact ha
        · exact ha
        · rw [hfail] at ht
          cases ht
      subst hzero
      obtain ⟨q, hloads, hq⟩ := initPbEnv_loadsInto hok.1 hret
      obtain ⟨p, entries, image, n, hnew, -, -, hregister⟩ := id hloads
      refine ⟨log, c, [], u, t, q, rfl, hlog.mono fun _ _ _ => trivial,
        failed_before (hlog.mono fun _ _ hcall => hcall.1) hok.1, hret, hloads, hq,
        fun name type hmem => ?_⟩
      rw [hq]
      exact findsType_of_entry ((Registries.new hnew).register hregister) (hok.2 q hloads) hmem

/-! ## A second call -/

/-- A set of one file with one message type `M`. -/
def oneType : List UInt8 := [10, 14, 10, 7, 109, 46, 112, 114, 111, 116, 111, 34, 3, 10, 1, 77]

/-- A disk with one directory, of one such file. -/
def oneFile : FileSystem where
  opendir _ := some [.lit "m.pb"]
  fopen _ := some oneType

def loadOneFile (mem : LoadLocals) : InitCall := ⟨oneFile, mem, .lit "pb", none⟩

def freshGlobals : Globals := ⟨none, false, none, []⟩

/-- Whether a new environment loads the file, with all names copied, and whether it
knows `M` before and after. -/
def loadsM : Option (Bool × Bool × Bool) := do
  let p ← pbcNew
  let (rc, q) ← pbcRegister p oneType
  let before ← getMessage p (lit "M")
  let after ← getMessage q (lit "M")
  pure (rc matches .ok _ ∧ q.freed = [], before.isSome, (after.bind fun i => q.messages[i]?).isSome)

private theorem loadsM_eq : loadsM = some (true, false, true) := by decide +kernel

/-- A new environment does not know `M`, and learns it. -/
theorem loads_M : ∃ p q i m, pbcNew = some p ∧ pbcRegister p oneType = some (.ok (), q) ∧
    q.freed = [] ∧ getMessage p (lit "M") = some none ∧ getMessage q (lit "M") = some (some i) ∧
    q.messages[i]? = some m := by
  have hloads := loadsM_eq
  unfold loadsM at hloads
  simp only [Option.bind_eq_bind, Option.bind_eq_some_iff] at hloads
  obtain ⟨p, hp, ⟨rc, q⟩, hq, before, hbefore, after, hafter, hpure⟩ := hloads
  simp only [Option.pure_def, Option.some.injEq, Prod.mk.injEq] at hpure
  obtain ⟨hrc, hnone, hsome⟩ := hpure
  obtain ⟨hrc, hfreed⟩ := of_decide_eq_true hrc
  rw [Option.isSome_eq_false_iff, Option.isNone_iff_eq_none] at hnone
  obtain ⟨m, hm⟩ := Option.isSome_iff_exists.mp hsome
  obtain ⟨i, rfl, hi⟩ := Option.bind_eq_some_iff.mp hm
  cases rc with
  | error e => cases hrc
  | ok _ => exact ⟨p, q, i, m, hp, hq, hfreed, hnone ▸ hbefore, hafter, hi⟩

private theorem pbFiles_oneFile : pbFiles oneFile (.lit "pb") [.lit "m.pb"] = oneType := by decide

private theorem pathsFit_oneFile : PathsFit (.lit "pb") [.lit "m.pb"] := by
  unfold PathsFit
  decide

/-- What a call that loads the file makes of a new environment. -/
private theorem loadsInto_oneFile {mem : LoadLocals} (hmem : mem.len = 0) {q : Env}
    (h : LoadsInto (loadOneFile mem) q) :
    ∃ p, pbcNew = some p ∧ pbcRegister p oneType = some (.ok (), q) := by
  obtain ⟨p, entries, image, n, hnew, hlist, hread, hregister⟩ := h
  cases hlist
  rw [loadOneFile, readDirectory_eq hmem (by rw [pbFiles_oneFile]; decide) pathsFit_oneFile,
    pbFiles_oneFile] at hread
  cases hread
  exact ⟨p, hnew, hregister⟩

/-- The call leaves an initialised environment. -/
private theorem init_oneFile (mem : LoadLocals) (hmem : mem.len = 0) : ∃ v,
    (initPbEnv (loadOneFile mem)).run freshGlobals = .ret 0 v ∧ v.is_env_initialize = true := by
  obtain ⟨p, q, i, m, hnew, hq, -, -, -, -⟩ := loads_M
  have hcount : (pbEntries [.lit "m.pb"]).length = 1 := by decide
  obtain ⟨n, u, hload, hu, hn, -⟩ := initPbcEnvWithDir_run (s := { freshGlobals with env := some p })
    hmem (by rw [pbFiles_oneFile]; decide) pathsFit_oneFile rfl rfl (pbFiles_oneFile ▸ hq)
  rw [hcount] at hn
  obtain ⟨v, hfirst, hflag, -⟩ := initPbEnv_loads (c := loadOneFile mem) (s := freshGlobals) hnew
    rfl hload (by rw [hn rfl]; decide)
  exact ⟨v, hfirst, hflag⟩

/-- A run of one call keeps the types it loaded. -/
theorem keepsTypes_once : ∃ mem t, (initPbEnv (loadOneFile mem)).run freshGlobals = .ret 0 t ∧
    t.is_env_initialize = true ∧ KeepsTypes freshGlobals [(loadOneFile mem, 0)] t := by
  obtain ⟨v, hfirst, hflag⟩ := init_oneFile (startingAt 0) rfl
  have hcopies : (loadOneFile (startingAt 0)).CopiesNames := by
    intro q hq
    obtain ⟨p, hp, hregister⟩ := loadsInto_oneFile rfl hq
    obtain ⟨p', q', -, -, hp', hregister', hfreed, -⟩ := loads_M
    cases hp.symm.trans hp'
    cases hregister.symm.trans hregister'
    exact hfreed
  exact ⟨startingAt 0, v, hfirst, hflag,
    keepsTypes_of_uninitialised rfl (Prog.Runs.single ⟨rfl, hcopies⟩ hfirst)⟩

/-- A second call loses the types that the first one loaded. -/
theorem second_init_forgets : ¬ ∀ (s t : Globals) (log : List (InitCall × ℤ)),
    s.is_env_initialize = false → Prog.AnyRuns initPbEnv s log t → KeepsTypes s log t := by
  intro hclaim
  obtain ⟨p, q, i, m, hnew, hq, -, hbefore, hafter, -⟩ := loads_M
  obtain ⟨v, hfirst, hflag⟩ := init_oneFile (startingAt 0) rfl
  have hcall : ∀ q', LoadsInto (loadOneFile (startingAt 0)) q' → q' = q := by
    intro q' hload
    obtain ⟨p', hp', hq'⟩ := loadsInto_oneFile rfl hload
    cases hnew.symm.trans hp'
    cases hq.symm.trans hq'
    rfl
  generalize loadOneFile (startingAt 0) = call at hfirst hcall
  have hruns : Prog.AnyRuns initPbEnv freshGlobals [(call, 0), (call, 0)] _ :=
    (Prog.Runs.single trivial hfirst).append
      (Prog.Runs.single trivial (initPbEnv_initialized hnew hflag))
  obtain ⟨before, c, after, u, w, q', hlog, -, hfailed, -, hload, henv, hkeeps⟩ :=
    hclaim freshGlobals _ _ rfl hruns hflag
  have hc : c = call := by
    cases before with
    | cons e before =>
        -- the first call of the run returned zero, so nothing failed before it
        have he : (call, (0 : ℤ)) = e := (List.cons.inj hlog).1
        exact absurd (he ▸ rfl) (hfailed e List.mem_cons_self)
    | nil => exact (Prod.mk.inj (List.cons.inj hlog).1).1.symm
  subst hc
  obtain rfl := hcall q' hload
  have hmem : (lit "M", some i) ∈ q'.msgs.entries := by
    rcases ChainTable.query_cases q'.msgs_wf (query_of_getMessage hafter) with hmem | ⟨hnone, -⟩
    · exact hmem
    · cases hnone
  obtain ⟨r, hr, x, hx⟩ := (hkeeps _ _ hmem).wmessage
  obtain rfl : p = r := Option.some.inj hr
  unfold wmessageNew at hx
  rw [hbefore] at hx
  cases hx

end HdClient
