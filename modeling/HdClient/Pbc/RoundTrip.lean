-- SUMMARY: Reading back what was built: the message that is read mirrors the draft of the one that was written, sub-messages included.
import HdClient.Pbc.Contents
import HdClient.Pbc.Serial

/-! # The round trip

What any calls have built is serialized, and read again as a message of the same
type. Under each field it shows what was put there, in the same order. -/

namespace Pbc

theorem Message.Regular.numbered {m : Message} {f : Field} (h : m.Regular) (hf : f ∈ m.fields) :
    f.Numbered where
  pos := (h.number f hf).1
  lt := Int.lt_trans (h.number f hf).2 (by decide)

/-! ## Entries -/

namespace Draft

/-- What an object holds, in the order it is serialized: payloads, then sub-messages. -/
def Node.entries (n : Node) : List (Field × (Wire.Payload ⊕ ℕ)) :=
  (n.puts.map fun e => (e.1, .inl e.2)) ++ n.subs.map fun e => (e.1, .inr e.2)

/-- What an object holds under a field. -/
def Node.under (n : Node) (f : Field) : List (Wire.Payload ⊕ ℕ) :=
  (n.entries.filter (·.1 = f)).map Prod.snd

/-- A field that is not repeated is set once at most. -/
def Node.Once (n : Node) : Prop :=
  ∀ f ∈ n.type.fields, f.label = .repeated ∨ (n.under f).length ≤ 1

instance (n : Node) : Decidable n.Once := inferInstanceAs (Decidable (∀ f ∈ n.type.fields, _))

/-- The payload that an entry is serialized as. -/
def payload (d : Draft) : Wire.Payload ⊕ ℕ → Wire.Payload
  | .inl p => p
  | .inr j => .lend (d.serial d.length j)

variable {env : Env} {root : Message} {d : Draft} {i j : ℕ} {n : Node} {f : Field}

theorem Sound.serial_entries (h : d.Sound env root) (hn : d[i]? = some n) :
    d.serial d.length i = n.entries.flatMap fun e => e.1.written (d.payload e.2) := by
  rw [h.serial_eq hn, Node.entries, List.flatMap_append, List.flatMap_map, List.flatMap_map]
  rfl

theorem Sound.mem_entries (h : d.Sound env root) (hn : d[i]? = some n)
    {e : Field × (Wire.Payload ⊕ ℕ)} (he : e ∈ n.entries) : e.1 ∈ n.type.fields ∧
      match e.2 with
      | .inl p => Suits e.1 p
      | .inr j => d.Child i j ∧ ∃ t n', e.1.type_name = .m (some t) ∧
          env.messages[t]? = some n'.type ∧ d[j]? = some n' := by
  rcases List.mem_append.mp he with he | he
  · obtain ⟨e, hmem, rfl⟩ := List.mem_map.mp he
    obtain ⟨⟨-, key, hkey⟩, hsuits⟩ := h.puts i n hn e hmem
    exact ⟨Message.mem_of_queryName hkey, hsuits⟩
  · obtain ⟨e, hmem, rfl⟩ := List.mem_map.mp he
    obtain ⟨⟨key, hkey⟩, t, m, hname, ht, hsub⟩ := h.subs i n hn e hmem
    obtain ⟨n', hn', rfl⟩ := Option.map_eq_some_iff.mp hsub
    exact ⟨Message.mem_of_queryName hkey, Sound.child hn hmem, t, n', hname, ht, hn'⟩

/-- The record of an entry. -/
structure RecordOf (d : Draft) (e : Field × (Wire.Payload ⊕ ℕ)) (r : Wire.Record) : Prop where
  number : (r.number : ℤ) = e.1.id
  payload : r.payload = d.payload e.2

/-- Entries are serialized as records. -/
theorem exists_records (d : Draft) {es : List (Field × (Wire.Payload ⊕ ℕ))}
    (h : ∀ e ∈ es, e.1.Numbered) : ∃ rs, List.Forall₂ (RecordOf d) es rs ∧
      (es.flatMap fun e => e.1.written (d.payload e.2)) = Wire.encode rs := by
  induction es with
  | nil => exact ⟨[], .nil, rfl⟩
  | cons e es ih =>
      have he := h e List.mem_cons_self
      obtain ⟨rs, hrs, hencode⟩ := ih fun e' he' => h e' (List.mem_cons_of_mem _ he')
      refine ⟨e.1.record he (d.payload e.2) :: rs, .cons ⟨?_, rfl⟩ hrs, ?_⟩
      · exact Int.toNat_of_nonneg (Int.le_of_lt he.pos)
      · rw [List.flatMap_cons, hencode, Field.written_eq he, Wire.encode_cons]

/-- The serialization of a sub-message is shorter than that of the message around it. -/
theorem Sound.serial_lt (h : d.Sound env root) (hij : d.Child i j) :
    (d.serial d.length j).length < (d.serial d.length i).length := by
  obtain ⟨n, e, hn, he, rfl⟩ := hij
  obtain ⟨pre, post, hsubs⟩ := List.append_of_mem he
  have hlen := List.length_pos_of_ne_nil
    (Varint.encode_ne_nil (d.serial d.length e.2).length)
  rw [h.serial_eq hn, hsubs, List.flatMap_append, List.flatMap_cons, Field.written,
    Wire.Payload.encode]
  simp only [List.length_append]
  omega

end Draft

/-! ## What the reader makes of an entry -/

/-- The message that was read shows what the object at an index of the draft holds. -/
inductive Mirrors (env : Env) (d : Draft) : ℕ → RMessage → Prop where
  | intro {i : ℕ} {n : Draft.Node} {msg : RMessage} : d[i]? = some n →
      (∀ f ∈ n.type.fields, rmessageSize msg f.name = some (n.under f).length) →
      (∀ f ∈ n.type.fields, ∀ (k : ℕ) p, (n.under f)[k]? = some (.inl p) →
        msg.lookup env f.name k = some (some f.type, f.shown p)) →
      (∀ f ∈ n.type.fields, ∀ (k : ℕ) j, (n.under f)[k]? = some (.inr j) →
        ∃ sub, rmessageMessage env msg f.name k = .ok sub) →
      (∀ f ∈ n.type.fields, ∀ (k : ℕ) j sub, (n.under f)[k]? = some (.inr j) →
        rmessageMessage env msg f.name k = .ok sub → Mirrors env d j sub) →
      (∀ f ∈ n.type.fields, n.under f = [] → ∀ k,
        msg.lookup env f.name k = some (some f.type, f.default_v)) →
      Mirrors env d i msg

/-- The element that is read of an entry. -/
def ItemOf (env : Env) (d : Draft) (f : Field) (item : Item RMessage) : Wire.Payload ⊕ ℕ → Prop
  | .inl p => item = .var (f.shown p)
  | .inr j => ∃ sub, item = .message sub ∧ Mirrors env d j sub

section Reading

variable {env : Env} {sub : Option ℕ → List UInt8 → Res RMessage} {f : Field} {buffer : List UInt8}
  {r : Wire.Record} {a : Atom}

variable (sub) in
/-- A payload that suits its field is read. -/
private theorem read_put {p : Wire.Payload} (hs : Draft.Suits f p) (hres : env.Resolved f)
    (ha : Carries buffer r a) (hp : r.payload = p) :
    readValue sub f a buffer = .ok (.var (f.shown p)) ∧
      readItem sub f a buffer = .ok (.var (f.shown p)) := by
  have henum : f.type = .enum → ∃ k, f.type_name = .e (some k) := by
    intro htype
    simp only [Env.Resolved, htype] at hres
    obtain ⟨k, hk, -⟩ := hres
    exact ⟨k, hk⟩
  have hinteger : ∀ {low hi}, f.type.payload low hi = some p →
      scalar f a = some (.ok (f.shown p)) := by
    intro low hi hpay
    obtain ⟨l, hl⟩ := PType.payload_words hpay
    rw [scalar_words hpay henum, ha.words l (hp ▸ hl), f.shown_of_words hl]
  rcases hs with ⟨low, hi, hpay⟩ | ⟨htype, v, hv⟩ | ⟨htype, body, hbody⟩
  · simp [readValue, readItem, hinteger hpay]
  · have hpay : f.type.payload v 0 = some p := by rw [htype, hv]; rfl
    simp [readValue, readItem, hinteger hpay]
  · have hlend : a.isLend = true := ha.isLend_iff.mpr ⟨body, hp.trans hbody⟩
    have hslice : a.slice buffer = body := ha.body body (hp.trans hbody)
    subst hbody
    rcases htype with htype | htype <;>
      simp [readValue, readItem, scalar, htype, hlend, hslice, Field.shown]

/-- A sub-message that can be read is. -/
private theorem read_sub {body : List UInt8} {t : ℕ} {msg : RMessage} (htype : f.type = .message)
    (hname : f.type_name = .m (some t)) (ha : Carries buffer r a) (hp : r.payload = .lend body)
    (hsub : sub (some t) body = .ok msg) (hmsg : msg.msg = some t) :
    readValue sub f a buffer = .ok (.message msg) ∧
      readItem sub f a buffer = .ok (.message msg) := by
  have hlend : a.isLend = true := ha.isLend_iff.mpr ⟨body, hp⟩
  have hslice : a.slice buffer = body := ha.body body hp
  simp [readValue, readItem, scalar, htype, hname, hlend, hslice, hsub, hmsg]

/-- Only the fields of messages have names of message types. -/
private theorem type_of_name {t : Option ℕ} (hres : env.Resolved f) (hname : f.type_name = .m t) :
    f.type = .message := by
  unfold Env.Resolved at hres
  split at hres
  · assumption
  · obtain ⟨k, hk, -⟩ := hres
    rw [hname] at hk
    cases hk
  · obtain ⟨k, hk⟩ := hres
    rw [hname] at hk
    cases hk

end Reading

/-! ## Reading a draft -/

section Drafts

variable {env : Env} {root : Message} {d : Draft} {i : ℕ} {n : Draft.Node}
  {sub : Option ℕ → List UInt8 → Res RMessage} {buffer : List UInt8}

/-- The sub-messages of the object at `i` can be read. -/
private def SubsRead (env : Env) (d : Draft) (sub : Option ℕ → List UInt8 → Res RMessage)
    (i : ℕ) : Prop :=
  ∀ (j t : ℕ) n', d.Child i j → d[j]? = some n' → env.messages[t]? = some n'.type →
    ∃ msg, sub (some t) (d.serial d.length j) = .ok msg ∧ msg.msg = some t ∧ Mirrors env d j msg

private theorem entry_makes (hreg : Registries env) (hd : d.Sound env root) (hn : d[i]? = some n)
    (htype : n.type ∈ env.messages) (hregular : n.type.Regular)
    (hsub : SubsRead env d sub i) {e : Field × (Wire.Payload ⊕ ℕ)} (he : e ∈ n.entries)
    {r : Wire.Record} {a : Atom} (hr : Draft.RecordOf d e r) (ha : Carries buffer r a) :
    ∃ item, ItemOf env d e.1 item e.2 ∧ Makes sub n.type buffer e.1 a item := by
  obtain ⟨f, p | j⟩ := e
  all_goals
    obtain ⟨hf, hentry⟩ := hd.mem_entries hn he
    dsimp only at hf hentry
    have hres := hreg.resolved htype hf
    have hfiles := hregular.files hreg htype hf
    have hid : a.id = f.id := by
      have hnumber : r.number < 2 ^ 28 := by
        have hlt := (hregular.number f hf).2
        rw [← hr.number] at hlt
        exact_mod_cast hlt
      rw [← hr.number]
      exact (ha.id_eq hnumber).mpr rfl
  · obtain ⟨hvalue, hitem⟩ := read_put sub hentry hres ha hr.payload
    exact ⟨.var (f.shown p), rfl, hfiles, hid, hvalue, hitem⟩
  · obtain ⟨hchild, t, n', hname, ht, hn'⟩ := hentry
    obtain ⟨msg, hmsg, htyped, hmirrors⟩ := hsub j t n' hchild hn' ht
    obtain ⟨hvalue, hitem⟩ := read_sub (type_of_name hres hname) hname ha hr.payload hmsg htyped
    exact ⟨.message msg, ⟨msg, rfl, hmirrors⟩, hfiles, hid, hvalue, hitem⟩

private theorem entries_make (hreg : Registries env) (hd : d.Sound env root) (hn : d[i]? = some n)
    (htype : n.type ∈ env.messages) (hregular : n.type.Regular)
    (hsub : SubsRead env d sub i) {es : List (Field × (Wire.Payload ⊕ ℕ))} {rs : List Wire.Record}
    {as : List Atom} (hes : ∀ e ∈ es, e ∈ n.entries) (hrs : List.Forall₂ (Draft.RecordOf d) es rs)
    (has : CarriesAll buffer rs as) : ∃ items : List (Field × Item RMessage),
      List.Forall₂ (fun e e' => e'.1 = e.1 ∧ ItemOf env d e.1 e'.2 e.2) es items ∧
      List.Forall₂ (fun e' a => Makes sub n.type buffer e'.1 a e'.2) items as := by
  induction hrs generalizing as with
  | nil =>
      cases has
      exact ⟨[], .nil, .nil⟩
  | @cons e r es rs hr _ ih =>
      cases has with
      | @cons _ a _ as ha has =>
          obtain ⟨items, hitems, hmake⟩ := ih (fun e' he' => hes e' (List.mem_cons_of_mem _ he')) has
          obtain ⟨item, hitem, hmakes⟩ :=
            entry_makes hreg hd hn htype hregular hsub (hes e List.mem_cons_self) hr ha
          exact ⟨(e.1, item) :: items, .cons ⟨rfl, hitem⟩ hitems, .cons hmakes hmake⟩

/-- The elements under one field, in the order of its entries. -/
private theorem items_under {es : List (Field × (Wire.Payload ⊕ ℕ))}
    {items : List (Field × Item RMessage)}
    (h : List.Forall₂ (fun e e' => e'.1 = e.1 ∧ ItemOf env d e.1 e'.2 e.2) es items) (f : Field) :
    List.Forall₂ (fun u item => ItemOf env d f item u) ((es.filter (·.1 = f)).map Prod.snd)
      ((items.filter (·.1 = f)).map Prod.snd) := by
  induction h with
  | nil => exact .nil
  | @cons e e' es items he _ ih =>
      obtain ⟨hfst, hitem⟩ := he
      by_cases hef : e.1 = f
      · have hef' : e'.1 = f := hfst.trans hef
        simp only [List.filter_cons, hef, hef', decide_true, if_true, List.map_cons]
        exact .cons (hef ▸ hitem) ih
      · have hef' : ¬ e'.1 = f := fun heq => hef (hfst.symm.trans heq)
        simp only [List.filter_cons, hef, hef', decide_false, Bool.false_eq_true, if_false]
        exact ih

private theorem forall₂_getElem? {α β : Type} {R : α → β → Prop} {l : List α} {l' : List β}
    (h : List.Forall₂ R l l') {k : ℕ} {a : α} (ha : l[k]? = some a) :
    ∃ b, l'[k]? = some b ∧ R a b := by
  induction h generalizing k with
  | nil => cases ha
  | @cons a' b l l' hab _ ih =>
      cases k with
      | zero =>
          cases ha
          exact ⟨b, rfl, hab⟩
      | succ k => exact ih ha

/-- A message that holds the elements of an object mirrors it. -/
private theorem mirrors_of_holds (hreg : Registries env) (hn : d[i]? = some n) {t : ℕ}
    (ht : env.messages[t]? = some n.type) (htype : n.type ∈ env.messages)
    (hregular : n.type.Regular) (honce : n.Once) {items : List (Field × Item RMessage)}
    (hitems : List.Forall₂ (fun e e' => e'.1 = e.1 ∧ ItemOf env d e.1 e'.2 e.2) n.entries items)
    {as : List Atom} {index : MapSp (Value RMessage)}
    (hmake : List.Forall₂ (fun e' a => Makes sub n.type buffer e'.1 a e'.2) items as)
    (hholds : Holds sub n.type buffer index as) :
    Mirrors env d i (.mk (some t) (some index)) := by
  have hunpacked := hregular.unpacked hreg htype
  have hunder : ∀ f, List.Forall₂ (fun u item => ItemOf env d f item u) (n.under f)
      ((items.filter (·.1 = f)).map Prod.snd) := items_under hitems
  have hshows : ∀ f ∈ n.type.fields, Shows env (.mk (some t) (some index)) f
      ((items.filter (·.1 = f)).map Prod.snd) := by
    intro f hf
    have hfiles := hregular.files hreg htype hf
    have hcontents := contents_makes hmake hfiles
    rw [← hcontents]
    refine hholds.shows hunpacked hfiles (hregular.hash f hf) ?_ (some t)
    rw [hcontents, ← (hunder f).length_eq]
    exact honce f hf
  refine .intro hn (fun f hf => ?_) (fun f hf k p hk => ?_) (fun f hf k j hk => ?_)
    (fun f hf k j sub hk hsub => ?_) fun f hf hnil k => ?_
  · rw [(hunder f).length_eq]
    exact (hshows f hf).size
  · obtain ⟨item, hitem, rfl⟩ := forall₂_getElem? (hunder f) hk
    exact (hshows f hf).var k _ hitem
  · obtain ⟨item, hitem, sub, rfl, -⟩ := forall₂_getElem? (hunder f) hk
    exact ⟨sub, (hshows f hf).message k sub hitem⟩
  · obtain ⟨item, hitem, sub', rfl, hmirrors⟩ := forall₂_getElem? (hunder f) hk
    rw [(hshows f hf).message k sub' hitem] at hsub
    cases hsub
    exact hmirrors
  · have hempty : (items.filter (·.1 = f)).map Prod.snd = [] := by
      have hlen := (hunder f).length_eq
      rw [hnil] at hlen
      exact List.length_eq_zero_iff.mp hlen.symm
    have hquery := (hshows f hf).absent hempty
    have hof : RMessage.type env (.mk (some t) (some index)) = some n.type := ht
    have hkey := hreg.queryName_of_mem htype hregular.names hf
    simp [RMessage.lookup, hquery, hof, messageDefault, hkey]

/-- The serialization of an object is read as a message that mirrors it. -/
theorem Draft.Sound.reads (hreg : Registries env) (hd : d.Sound env root)
    (hregular : ∀ n ∈ d, n.type.Regular) (honce : ∀ n ∈ d, n.Once)
    (hcount : ∀ n ∈ d, n.entries.length ≤ recordsMax) {fuel t : ℕ}
    (hn : d[i]? = some n) (ht : env.messages[t]? = some n.type)
    (hfuel : (d.serial d.length i).length < fuel) (hfit : (d.serial d.length i).length < 2 ^ 32) :
    ∃ msg, rmessageNewAux env fuel (some t) (d.serial d.length i) = .ok msg ∧ msg.msg = some t ∧
      Mirrors env d i msg := by
  induction fuel generalizing i n t with
  | zero => nomatch hfuel
  | succ fuel ih =>
      have htype := List.mem_of_getElem? ht
      have hmem := List.mem_of_getElem? hn
      have hreg' := hregular n hmem
      have hunpacked := hreg'.unpacked hreg htype
      have hsub : SubsRead env d (rmessageNewAux env fuel) i := by
        intro j t' n' hchild hn' ht'
        have hlt := hd.serial_lt hchild
        exact ih hn' ht' (by omega) (by omega)
      obtain ⟨rs, hrs, hencode⟩ := Draft.exists_records d fun e he =>
        hreg'.numbered (hd.mem_entries hn he).1
      rw [← hd.serial_entries hn] at hencode
      have hshort : Wire.ShortMessage rs (d.serial d.length i) := by
        rw [hencode] at hfit ⊢
        exact Wire.shortMessage_encode rs (by omega)
      obtain ⟨as, hopen, has⟩ := openContext_carries hshort [] (Nat.le_refl _)
        (by rwa [List.nil_append])
      rw [List.nil_append] at has
      obtain ⟨items, hitems, hmake⟩ :=
        entries_make hreg hd hn htype hreg' hsub (fun e he => he) hrs has
      rw [rmessageNewAux]
      split
      · rename_i hnil
        have hno : as = [] := by
          have hrs' := (Wire.shortMessage_eq_nil hshort).mp hnil
          subst hrs'
          cases has
          rfl
        subst hno
        exact ⟨_, rfl, rfl, mirrors_of_holds hreg hn ht htype hreg' (honce n hmem) hitems hmake
          (holds_new 0)⟩
      · have hnew : Holds (rmessageNewAux env fuel) n.type (d.serial d.length i)
            (MapSp.new as.length) [] := holds_new as.length
        obtain ⟨index, hstore⟩ := hnew.storeAtoms_makes hunpacked hmake
        have hholds := hnew.storeAtoms hunpacked hstore
        refine ⟨.mk (some t) (some index), ?_, rfl, mirrors_of_holds hreg hn ht htype hreg'
          (honce n hmem) hitems hmake hholds⟩
        have hopen' : openContext (d.serial d.length i).length (d.serial d.length i) 0 = .ok as := hopen
        have hmany : ¬ recordsMax < as.length := by
          rw [← has.length_eq, ← hrs.length_eq]
          exact Nat.not_lt.mpr (hcount n hmem)
        simp only [Option.bind_some, ht, hopen', Res.ok_bind, if_neg hmany, hstore, Res.pure_eq]

theorem WRun.reads (hreg : Registries env) {name : CStr} (hname : Registered env name root)
    {cs : List WCall} {h h' : WHeap} (hrun : WRun env root cs h d)
    (hregular : ∀ n ∈ d, n.type.Regular) (honce : ∀ n ∈ d, n.Once)
    (hcount : ∀ n ∈ d, n.entries.length ≤ recordsMax) {bs : List UInt8}
    (hbuffer : wmessageBufferTree h = some (bs, h')) :
    ∃ msg, rmessageNew env name bs = some (.ok msg) ∧ Mirrors env d 0 msg := by
  obtain ⟨hd, hstands⟩ := hrun.stands
  obtain ⟨rfl, hlen⟩ := (hstands.buffer hd).1 bs h' hbuffer
  obtain ⟨n, hn, rfl⟩ := Option.map_eq_some_iff.mp hd.root
  obtain ⟨t, hget, ht⟩ := hname
  obtain ⟨msg, hmsg, -, hmirrors⟩ := hd.reads hreg hregular honce hcount hn ht (Nat.lt_succ_self _)
    (Nat.lt_of_le_of_lt hlen (by decide))
  refine ⟨msg, ?_, hmirrors⟩
  have hmsg' : rmessageNewAux env (d.bytes.length + 1) (some t) d.bytes = .ok msg := hmsg
  simp only [rmessageNew, hget, Option.bind_eq_bind, Option.bind_some, hmsg',
    if_neg (Nat.not_lt.mpr hlen : ¬ heapMax < d.bytes.length), Option.pure_def]

/-- Whatever was built by any calls on a new message and its sub-messages, its
buffer is read as a message that shows just that. -/
theorem round_trip (hreg : Registries env) {name : CStr} (hname : Registered env name root)
    {cs : List WCall} {h h' : WHeap} (hrun : WRun env root cs h d)
    (hregular : ∀ n ∈ d, n.type.Regular) (honce : ∀ n ∈ d, n.Once)
    (hcount : ∀ n ∈ d, n.entries.length ≤ recordsMax) {bs : List UInt8}
    (hbuffer : wmessageBufferTree h = some (bs, h')) :
    ∃ msg, rmessageNew env name bs = some (.ok msg) ∧ Mirrors env d 0 msg :=
  hrun.reads hreg hname hregular honce hcount hbuffer

/-- Whether the types of an enum with two values are regular, and its buffer. -/
def enumBuffer : Option (Bool × List UInt8) := do
  let (p, m, h) ← enumNew
  let (bs, _) ← wmessageBufferTree h
  pure (decide (∀ n ∈ enumDraft p m, n.type.Regular ∧ n.Once ∧ n.entries.length ≤ recordsMax), bs)

private theorem enumBuffer_eq : enumBuffer = some (true, [10, 1, 69, 18, 2, 16, 7, 18, 0]) := by
  decide +kernel

/-- An enum that was built in a new environment is read back. -/
theorem round_trip_enum : ∃ (p : Env) (m : Message) (msg : RMessage), Registries p ∧
    rmessageNew p (lit "google.protobuf.EnumDescriptorProto") [10, 1, 69, 18, 2, 16, 7, 18, 0] =
      some (.ok msg) ∧ Mirrors p (enumDraft p m) 0 msg := by
  have henum := enumBuffer_eq
  unfold enumBuffer at henum
  simp only [Option.bind_eq_bind, Option.bind_eq_some_iff] at henum
  obtain ⟨⟨p, m, h⟩, hnew, ⟨bs, h'⟩, hbuffer, henum⟩ := henum
  obtain ⟨hregular, rfl⟩ := Prod.mk.inj (Option.some.inj henum)
  have hall := of_decide_eq_true hregular
  obtain ⟨hnew, hm, hrun⟩ := enumNew_run hnew
  obtain ⟨msg, hmsg, hmirrors⟩ := round_trip (.new hnew) hm hrun (fun n hn => (hall n hn).1)
    (fun n hn => (hall n hn).2.1) (fun n hn => (hall n hn).2.2) hbuffer
  exact ⟨p, m, msg, .new hnew, hmsg, hmirrors⟩

end Drafts

/-! ## Numbers that come back -/

section Numbers

variable {env : Env} {m : Message} {name : CStr}

/-- A number that was put under a field is read as what its type makes of it. -/
theorem Mirrors.integer {d : Draft} {i : ℕ} {n : Draft.Node} {msg : RMessage}
    (h : Mirrors env d i msg) (hn : d[i]? = some n) {f : Field} (hf : f ∈ n.type.fields)
    {low hi : BitVec 32} {p : Wire.Payload} (hp : f.type.payload low hi = some p) {k : ℕ}
    (hk : (n.under f)[k]? = some (.inl p)) :
    rmessageLonglong env msg f.name k = f.type.comesBack low hi := by
  cases h with
  | intro hn' _ hvalues _ _ _ =>
      obtain rfl := Option.some.inj (hn.symm.trans hn')
      exact rmessageLonglong_of_lookup hp (hvalues f hf k p hk)

/-- Every number that is written under a field of integers is read as what its
type makes of it. -/
theorem integer_reads (hreg : Registries env) (hname : Registered env name m) (hm : m.Regular)
    {f : Field} (hf : f ∈ m.fields) {low hi : BitVec 32} {p : Wire.Payload}
    (hp : f.type.payload low hi = some p) : ∃ w a bs msg, wmessageNew env name = some (some w) ∧
      wmessageInteger w f.name low hi = some (0, a) ∧ wmessageBuffer a = some bs ∧
      rmessageNew env name bs = some (.ok msg) ∧
      rmessageLonglong env msg f.name 0 = f.type.comesBack low hi := by
  have hkey := hreg.queryName_of_mem hname.mem hm.names hf
  have hlabel := hm.label f hf
  obtain ⟨a, hcall⟩ : ∃ a, wmessageInteger (.new m) f.name low hi = some (0, a) := by
    have hroom : Wmessage.expand (.new m) 20 = some (.new m) :=
      Wmessage.expand_of_le (Nat.le_of_ble_eq_true rfl)
    simp only [wmessageInteger, Wmessage.type_new, hkey, hlabel, if_false, hroom,
      Option.bind_eq_bind, Option.bind_some]
    exact ⟨_, rfl⟩
  have hcalled : WCall.run env (.integer 0 f.name low hi) [⟨.new m, []⟩] =
      some [⟨a, []⟩] := by simp [WCall.run, hcall]
  have hplain : WCall.Plain [⟨.new m, []⟩] (.integer 0 f.name low hi) := by
    rintro w ⟨⟩ found hfound g rfl
    rw [Wmessage.type_new, hkey] at hfound
    cases hfound
    exact hlabel
  have hrun : WRun env m [.integer 0 f.name low hi] [⟨a, []⟩] [⟨m, [(f, p)], []⟩] := by
    simpa [WCall.mean, Draft.put, Draft.start, hkey, hp] using WRun.new.call hplain hcalled
  have hpacked : a.packed = none :=
    (hrun.stands.2.object 0 ⟨a, []⟩ ⟨m, [(f, p)], []⟩ rfl rfl).packed_eq
  have hbuffer : wmessageBufferTree [⟨a, []⟩] = some (a.bytes, [⟨a, []⟩]) := by
    simp [wmessageBufferTree, wmessageBufferAux, appendSubs, Wmessage.pack, hpacked]
  have hunder : (Draft.Node.under ⟨m, [(f, p)], []⟩ f) = [.inl p] := by
    simp [Draft.Node.under, Draft.Node.entries]
  have hone : ∀ n ∈ ([⟨m, [(f, p)], []⟩] : Draft), n = ⟨m, [(f, p)], []⟩ := fun n =>
    List.mem_singleton.mp
  obtain ⟨msg, hmsg, hmirrors⟩ := hrun.reads hreg hname (fun n hn => hone n hn ▸ hm)
    (fun n hn => by
      obtain rfl := hone n hn
      intro g _
      refine .inr ?_
      rw [Draft.Node.under, List.length_map]
      exact List.length_filter_le _ _)
    (fun n hn => by
      obtain rfl := hone n hn
      exact (by decide : 1 ≤ recordsMax)) hbuffer
  refine ⟨_, a, _, msg, wmessageNew_eq hname, hcall, Wmessage.buffer_eq hpacked, hmsg, ?_⟩
  exact hmirrors.integer rfl hf hp (by rw [hunder]; rfl)

/-- A number of any type of integers, written under any field and read again, is
the same number exactly when its type can carry it. -/
theorem integer_comes_back (hreg : Registries env) (hname : Registered env name m) (hm : m.Regular)
    {f : Field} (hf : f ∈ m.fields) (low hi : BitVec 32)
    (hint : f.type.payload low hi ≠ none) : ∃ w a bs msg, wmessageNew env name = some (some w) ∧
      wmessageInteger w f.name low hi = some (0, a) ∧ wmessageBuffer a = some bs ∧
      rmessageNew env name bs = some (.ok msg) ∧
      (rmessageLonglong env msg f.name 0 = some ⟨low, hi⟩ ↔ f.type.Exact low hi) := by
  obtain ⟨p, hp⟩ := Option.ne_none_iff_exists'.mp hint
  obtain ⟨w, a, bs, msg, hw, ha, hbs, hmsg, hread⟩ := integer_reads hreg hname hm hf hp
  refine ⟨w, a, bs, msg, hw, ha, hbs, hmsg, ?_⟩
  rw [hread]
  exact PType.comesBack_eq_iff f.type low hi

/-- The type of a field that a new environment has, and whether the type around it is regular. -/
def numberNew : Option (Option PType × Bool) := do
  let p ← pbcNew
  let i ← getMessage p (lit "google.protobuf.EnumValueDescriptorProto")
  let m ← p.messages[← i]?
  pure (m.fields[1]?.map Field.type, decide m.Regular)

private theorem numberNew_eq : numberNew = some (some .int32, true) := by decide +kernel

/-- A positive number of 32 bits comes back. -/
theorem integer_comes_back_seven : ∃ (p : Env) (m : Message) (f : Field) (w a : Wmessage)
    (bs : List UInt8) (msg : RMessage),
    Registries p ∧ f ∈ m.fields ∧
    wmessageNew p (lit "google.protobuf.EnumValueDescriptorProto") = some (some w) ∧
    wmessageInteger w f.name 7 0 = some (0, a) ∧ wmessageBuffer a = some bs ∧
    rmessageNew p (lit "google.protobuf.EnumValueDescriptorProto") bs = some (.ok msg) ∧
    (rmessageLonglong p msg f.name 0 = some ⟨7, 0⟩ ↔ f.type.Exact 7 0) := by
  have hnumber := numberNew_eq
  unfold numberNew at hnumber
  simp only [Option.bind_eq_bind, Option.bind_eq_some_iff] at hnumber
  obtain ⟨p, hnew, found, hfound, i, rfl, m, hm, hnumber⟩ := hnumber
  obtain ⟨htype, hregular⟩ := Prod.mk.inj (Option.some.inj hnumber)
  obtain ⟨f, hf, htype⟩ := Option.map_eq_some_iff.mp htype
  have hmem := List.mem_of_getElem? hf
  obtain ⟨w, a, bs, msg, hw, ha, hbs, hmsg, hiff⟩ := integer_comes_back (.new hnew) ⟨i, hfound, hm⟩
    (of_decide_eq_true hregular) hmem 7 0 (by rw [htype]; decide)
  exact ⟨p, m, f, w, a, bs, msg, .new hnew, hmem, hw, ha, hbs, hmsg, hiff⟩

end Numbers

end Pbc
