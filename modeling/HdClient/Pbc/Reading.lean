-- SUMMARY: What reading a serialized message recovers: its records as atoms, and the values that its fields are looked up as.
import HdClient.Base.Duplicates
import HdClient.Base.Wire
import HdClient.Pbc.Rmessage

/-! # Reading back what was written -/

namespace Pbc

/-! ## Atoms -/

/-- The atom of a record in `buffer`. -/
structure AtomOf (buffer : List UInt8) (r : Wire.Record) (a : Atom) : Prop where
  tag : a.wire_id.toNat = r.tag
  number : ∀ v, r.payload = .varint v → a.x = lowWord v.toNat
  body : ∀ body, r.payload = .lend body → a.slice buffer = body

/-- What the library takes for the number of a record: of one with a body, where it begins. -/
def word (s : Wire.Spot) : BitVec 32 :=
  match s.record.payload with
  | .varint v => lowWord v.toNat
  | .bits64 v => v.setWidth 32
  | .lend body => BitVec.ofNat 32 (s.stop - body.length)
  | .bits32 v => v

theorem word_varint {s : Wire.Spot} {v : BitVec 64} (h : s.record.payload = .varint v) :
    word s = lowWord v.toNat := by
  rw [word, h]

/-- The atom of a record at its place in `buffer`. -/
structure AtomAt (buffer : List UInt8) (s : Wire.Spot) (a : Atom) : Prop
    extends AtomOf buffer s.record a where
  word : a.x = word s

private theorem and_7_toNat {x : BitVec 32} {n : ℕ} (h : x.toNat = n) : (x &&& 7).toNat = n % 8 := by
  rw [BitVec.toNat_and, h]
  exact Word.and_low_mask n 3

theorem ofLe_leBytes (n : ℕ) : Word.ofLe (Wire.leBytes 4 n) = BitVec.ofNat 32 n := by
  apply BitVec.eq_of_toNat_eq
  simp only [Word.ofLe, Wire.leBytes, List.foldr_cons, List.foldr_nil, UInt8.toNat_ofNat',
    BitVec.toNat_ofNat]
  omega

private theorem ofNat_toNat {n : ℕ} (h : n < 2 ^ 32) : (BitVec.ofNat 32 n).toNat = n := by
  rw [BitVec.toNat_ofNat]
  omega

/-- The bytes between two bounds of a buffer. -/
private theorem slice_middle {a : Atom} {front body rest : List UInt8}
    (hx : a.x.toNat = front.length) (hy : a.y.toNat = front.length + body.length) :
    a.slice (front ++ (body ++ rest)) = body := by
  rw [Atom.slice, hx, hy, List.drop_left, Nat.add_sub_cancel_left, List.take_left]

/-- The record at the head of what is left of a buffer is split off. -/
theorem wiretypeDecode_record {r : Wire.Record} {ws : List UInt8} (h : Wire.Record.Short r ws)
    (front rest : List UInt8) (hfit : (front ++ (ws ++ rest)).length < 2 ^ 32) :
    ∃ a, wiretypeDecode (ws ++ rest) front.length = .ok (a, ws.length) ∧
      AtomAt (front ++ (ws ++ rest)) ⟨r, front.length + ws.length⟩ a := by
  obtain ⟨ts, ps, rfl, hts, htlen, hps, hplen⟩ := h
  have htag := ofNat_toNat r.tag_lt
  have hand : (BitVec.ofNat 32 r.tag &&& 7).toNat = r.payload.wiretype := by
    rw [and_7_toNat htag, r.tag_mod]
  have hdecode : decode (ts ++ ps ++ rest) = some (⟨BitVec.ofNat 32 r.tag, 0⟩, ts.length) := by
    rw [List.append_assoc]
    exact decode_small hts htlen r.tag_lt _
  have hdrop : (ts ++ ps ++ rest).drop ts.length = ps ++ rest := by
    rw [List.append_assoc, List.drop_left]
  rw [r.tag_mod] at hps
  simp only [wiretypeDecode, hdecode, hdrop, hand, List.length_append]
  generalize hwt : r.payload.wiretype = wt at hps
  generalize hp : r.payload = p at *
  cases hps with
  | @varint v bs hv =>
      obtain ⟨hi, hrun, -⟩ := decode_encodes hv (by simpa [Wire.Payload.size] using hplen) rest
      refine ⟨⟨BitVec.ofNat 32 r.tag, lowWord v.toNat, hi⟩, by simp [hrun],
        ⟨htag, ?_, by simp [hp]⟩, by simp [word, hp]⟩
      intro w hw
      obtain rfl : v = w := by simpa [hp] using hw
      rfl
  | @bits64 v =>
      have hfour : (Wire.leBytes 8 v.toNat ++ rest).take 4 = Wire.leBytes 4 v.toNat := by
        rw [Wire.leBytes_eight, List.append_assoc]
        exact List.take_left' (by simp)
      exact ⟨⟨BitVec.ofNat 32 r.tag, Word.ofLe ((Wire.leBytes 8 v.toNat ++ rest).take 4),
        Word.ofLe (((Wire.leBytes 8 v.toNat ++ rest).drop 4).take 4)⟩,
        by simp, ⟨htag, by simp [hp], by simp [hp]⟩, by simp [word, hp, hfour, ofLe_leBytes]⟩
  | @lend body bs hbody =>
      obtain ⟨ls, bs, rfl, hls, rfl⟩ := hbody
      simp only [List.length_append, Wire.Payload.size] at hfit hplen
      have hvalue := decode_small hls (by omega) (by omega) (bs ++ rest)
      have hroom : ¬ (ls.length + (bs.length + rest.length) < (ls.length + bs.length) % 2 ^ 32) := by
        omega
      have hwrap : ¬ 2 ^ 32 ≤ ls.length + bs.length := by omega
      refine ⟨⟨BitVec.ofNat 32 r.tag, BitVec.ofNat 32 (front.length + ts.length + ls.length),
        BitVec.ofNat 32 (front.length + ts.length + ls.length + bs.length)⟩, ?_,
        ⟨htag, by simp [hp], ?_⟩, ?_⟩
      · simp only [List.append_assoc, hvalue,
          ofNat_toNat (by omega : bs.length < 2 ^ 32), hroom, hwrap, ne_eq, not_true_eq_false,
          or_false, if_false, List.length_append, Nat.add_assoc]
      · intro b hb
        obtain rfl : bs = b := by simpa [hp] using hb
        have hwhole : front ++ (ts ++ (ls ++ bs) ++ rest) =
            (front ++ (ts ++ ls)) ++ (bs ++ rest) := by simp
        rw [hwhole]
        apply slice_middle
        · simp only [List.length_append]
          rw [ofNat_toNat (by omega), Nat.add_assoc]
        · simp only [List.length_append]
          rw [ofNat_toNat (by omega)]
          omega
      · simp only [word, hp, List.length_append]
        congr 1
        omega
  | @bits32 v =>
      exact ⟨⟨BitVec.ofNat 32 r.tag, Word.ofLe ((Wire.leBytes 4 v.toNat ++ rest).take 4), 0⟩,
        by simp, ⟨htag, by simp [hp], by simp [hp]⟩, by simp [word, hp, ofLe_leBytes]⟩

/-- A group is not read. -/
theorem wiretypeDecode_group {n : ℕ} {ts : List UInt8} (hn : n < 2 ^ 29)
    (hts : Varint.Encodes (n * 8 + 3) ts) (hlen : ts.length ≤ 10) (rest : List UInt8) (start : ℕ) :
    wiretypeDecode (ts ++ rest) start = .null := by
  have hand : (BitVec.ofNat 32 (n * 8 + 3) &&& 7).toNat = 3 := by
    rw [and_7_toNat (ofNat_toNat (by omega))]
    omega
  simp only [wiretypeDecode, decode_small hts hlen (by omega : n * 8 + 3 < 2 ^ 32), hand]
  exact if_neg (not_not.mpr rfl)

/-- A message is split into its records, unless there is a group among them. -/
theorem openContext_written (ps : List Wire.Piece) (front : List UInt8) {fuel : ℕ}
    (hfuel : (Wire.written ps).length ≤ fuel)
    (hfit : (front ++ Wire.written ps).length < 2 ^ 32) :
    (Wire.HasGroup ps → openContext fuel (Wire.written ps) front.length = .null) ∧
      (¬ Wire.HasGroup ps → ∃ as, openContext fuel (Wire.written ps) front.length = .ok as ∧
        List.Forall₂ (AtomAt (front ++ Wire.written ps)) (Wire.spots front.length ps) as) := by
  induction ps generalizing front fuel with
  | nil =>
      refine ⟨by simp [Wire.HasGroup], fun _ => ⟨[], ?_, .nil⟩⟩
      cases fuel <;> rfl
  | cons p ps ih =>
      have hpos := List.length_pos_of_ne_nil p.ne_nil
      rw [Wire.written_cons, List.length_append] at hfuel
      rw [Wire.written_cons] at hfit ⊢
      obtain ⟨fuel, rfl⟩ : ∃ k, fuel = k + 1 := ⟨fuel - 1, by omega⟩
      rw [openContext_succ (List.append_ne_nil_of_left_ne_nil p.ne_nil _)]
      have hle : (Wire.written ps).length ≤ fuel := by omega
      obtain ⟨ihgroup, ihopen⟩ := ih (front ++ p.bytes) hle (by rwa [List.append_assoc])
      rw [List.append_assoc, List.length_append] at ihopen
      rw [List.length_append] at ihgroup
      obtain ⟨record, ws, hp⟩ := p
      cases hp with
      | group _ hn hts hlen _ _ _ =>
          have hgroup : Wire.HasGroup (⟨none, _, .group ‹_› hn hts hlen ‹_› ‹_› ‹_›⟩ :: ps) :=
            ⟨_, List.mem_cons_self, rfl⟩
          refine ⟨fun _ => ?_, fun hno => absurd hgroup hno⟩
          rw [List.append_assoc, wiretypeDecode_group hn hts hlen]
          rfl
      | @record r _ hr =>
          have hiff : Wire.HasGroup (⟨some r, ws, .record hr⟩ :: ps) ↔ Wire.HasGroup ps := by
            simp [Wire.HasGroup]
          obtain ⟨a, hdecode, ha⟩ := wiretypeDecode_record hr front (Wire.written ps) hfit
          rw [hiff, hdecode]
          simp only [Res.ok_bind, List.drop_left]
          refine ⟨fun hgroup => ?_, fun hno => ?_⟩
          · rw [ihgroup hgroup]
            rfl
          · obtain ⟨as, hopen, has⟩ := ihopen hno
            exact ⟨a :: as, by rw [hopen]; rfl, .cons ha has⟩

/-- The number of an atom's field is that of its record, unless it is so large
that the tag turns negative. -/
theorem AtomOf.id_eq {buffer : List UInt8} {n : ℕ} {r : Wire.Record} {a : Atom}
    (h : AtomOf buffer r a) (hn : n < 2 ^ 28) : a.id = n ↔ r.number = n := by
  have htag := h.tag
  have hdiv := r.tag_div
  have hlt := r.tag_lt
  rw [Atom.id, BitVec.toInt_sshiftRight, BitVec.toInt_eq_toNat_cond, htag, Int.shiftRight_eq_div_pow]
  split <;> omega

theorem AtomOf.isLend_iff {buffer : List UInt8} {r : Wire.Record} {a : Atom}
    (h : AtomOf buffer r a) : a.isLend = true ↔ ∃ body, r.payload = .lend body := by
  have hand : (a.wire_id &&& 7).toNat = r.payload.wiretype := by
    rw [and_7_toNat h.tag, r.tag_mod]
  rw [Atom.isLend, decide_eq_true_iff, ← BitVec.toNat_inj, hand]
  cases r.payload <;> simp [Wire.Payload.wiretype]

theorem AtomOf.body_length_le {buffer body : List UInt8} {r : Wire.Record} {a : Atom}
    (h : AtomOf buffer r a) (hbody : r.payload = .lend body) : body.length ≤ buffer.length := by
  rw [← h.body body hbody, Atom.slice, List.length_take, List.length_drop]
  omega

section Paired

variable {α β : Type} {R : α → β → Prop} {xs : List α} {ys : List β}

theorem exists_left (h : List.Forall₂ R xs ys) {y : β} (hy : y ∈ ys) : ∃ x ∈ xs, R x y := by
  induction h with
  | nil => cases hy
  | cons hr _ ih =>
      rcases List.mem_cons.mp hy with rfl | hy
      · exact ⟨_, List.mem_cons_self, hr⟩
      · obtain ⟨x, hx, hr⟩ := ih hy
        exact ⟨x, List.mem_cons_of_mem _ hx, hr⟩

theorem exists_right (h : List.Forall₂ R xs ys) {x : α} (hx : x ∈ xs) : ∃ y ∈ ys, R x y :=
  exists_left h.flip hx

end Paired

/-! ## Filing the atoms -/

section Filing

-- Reads a nested message, as in the definitions this is about.
variable (sub : Option ℕ → List UInt8 → Res RMessage)

/-- A message type whose fields are not repeated and have different names. -/
structure Message.Simple (m : Message) : Prop where
  id_eq : ∀ i f, m.queryId i = some f → f.id = i
  label : ∀ i f, m.queryId i = some f → f.label = .optional ∨ f.label = .required
  name : ∀ i j f g, m.queryId i = some f → m.queryId j = some g → f.name = g.name → i = j

/-- What an atom is filed as: its value, under the name of its field. -/
def Message.filed (m : Message) (buffer : List UInt8) (a : Atom) : Option (CStr × Value RMessage) :=
  match m.queryId a.id with
  | none => none
  | some f => match readValue sub f a buffer with
      | .ok v => some (f.name, ⟨f, v⟩)
      | _ => none

/-- Reading the value of an atom has a defined effect. -/
def Message.Reads (m : Message) (buffer : List UInt8) (a : Atom) : Prop :=
  ∀ f, m.queryId a.id = some f → readValue sub f a buffer ≠ .undefined

/-- Filing the atoms puts in every value, whether or not its field has one already. -/
theorem storeAtoms_eq {m : Message} (hm : m.Simple) {index : MapSp (Value RMessage)}
    {buffer : List UInt8} {as : List Atom} (has : ∀ a ∈ as, m.Reads sub buffer a) :
    storeAtoms sub m buffer index as =
      .ok (ChainTable.insertAll calcHash index (as.filterMap (m.filed sub buffer))) := by
  induction as generalizing index with
  | nil => rfl
  | cons a as ih =>
      have ih := fun index => @ih index fun b hb => has b (List.mem_cons_of_mem _ hb)
      have hreads := has a List.mem_cons_self
      rw [storeAtoms, storeAtom, List.filterMap_cons, Message.filed]
      cases hf : m.queryId a.id with
      | none => simp [ih]
      | some f =>
          have hlabel := hm.label _ f hf
          cases hv : readValue sub f a buffer with
          | undefined => exact absurd hv (hreads f hf)
          | null => rcases hlabel with hlabel | hlabel <;> simp [hlabel, hv, ih]
          | ok v =>
              rcases hlabel with hlabel | hlabel <;>
                simp [hlabel, hv, ih, ChainTable.insertAll, MapSp.insert]

/-- An atom whose value cannot be read in a defined way spoils the message. -/
theorem storeAtoms_undefined {m : Message} (hm : m.Simple) {index : MapSp (Value RMessage)}
    {buffer : List UInt8} {as : List Atom} (has : ∃ a ∈ as, ¬ m.Reads sub buffer a) :
    storeAtoms sub m buffer index as = .undefined := by
  induction as generalizing index with
  | nil => simp at has
  | cons a as ih =>
      rw [storeAtoms]
      by_cases hreads : m.Reads sub buffer a
      · have ih := fun index => @ih index (by simpa [hreads] using has)
        have hone : storeAtoms sub m buffer index [a] = .ok (ChainTable.insertAll calcHash index
            ([a].filterMap (m.filed sub buffer))) := storeAtoms_eq sub hm (by simpa using hreads)
        cases hstore : storeAtom sub m index a buffer with
        | ok index' => simp [ih]
        | null => simp [storeAtoms, hstore] at hone
        | undefined => rfl
      · obtain ⟨f, hf, hv⟩ : ∃ f, m.queryId a.id = some f ∧
            readValue sub f a buffer = .undefined := by
          simpa [Message.Reads] using hreads
        have hlabel := hm.label _ f hf
        rcases hlabel with hlabel | hlabel <;> simp [storeAtom, hf, hlabel, hv]

variable {sub}

theorem Message.filed_eq {m : Message} {buffer : List UInt8} {a : Atom} {f : Field}
    (hf : m.queryId a.id = some f) {v : Cell RMessage} (hv : readValue sub f a buffer = .ok v) :
    m.filed sub buffer a = some (f.name, ⟨f, v⟩) := by
  simp only [Message.filed, hf, hv]

/-- What an atom is filed as under the name of a field is its value for that field. -/
theorem Message.Simple.filed_name {m : Message} (h : m.Simple) {buffer : List UInt8} {a : Atom}
    {i : ℤ} {f : Field} (hf : m.queryId i = some f) {w : Value RMessage}
    (hfiled : m.filed sub buffer a = some (f.name, w)) :
    a.id = i ∧ ∃ v, readValue sub f a buffer = .ok v ∧ w = ⟨f, v⟩ := by
  rw [Message.filed] at hfiled
  split at hfiled
  · cases hfiled
  · rename_i g hg
    split at hfiled
    · rename_i v hv
      rw [Option.some.injEq, Prod.mk.injEq] at hfiled
      obtain rfl := h.name _ _ g f hg hf hfiled.1
      obtain rfl : f = g := Option.some.inj (hf.symm.trans hg)
      exact ⟨rfl, v, hv, hfiled.2.symm⟩
    · cases hfiled

end Filing

/-! ## Looking values up -/

/-- `msg` is what reading the atoms `as` of `buffer` as a message of type `m` leaves. -/
structure ReadAs (env : Env) (sub : Option ℕ → List UInt8 → Res RMessage) (m : Message)
    (buffer : List UInt8) (as : List Atom) (msg : RMessage) : Prop where
  type_eq : msg.type env = some m
  index : msg.index = some (ChainTable.insertAll calcHash (MapSp.new as.length)
    (as.filterMap (m.filed sub buffer)))

/-- What reading a message comes to: it fails at a group, it has no defined end if there are
too many records or one of them has none, and else its atoms are filed. -/
inductive Read (env : Env) (sub : Option ℕ → List UInt8 → Res RMessage) (m : Message)
    (ps : List Wire.Piece) : Res RMessage → Prop where
  | group : Wire.HasGroup ps → Read env sub m ps .null
  | spoilt {as : List Atom} : ¬ Wire.HasGroup ps →
      List.Forall₂ (AtomAt (Wire.written ps)) (Wire.spots 0 ps) as →
      (recordsMax < as.length ∨ ∃ a ∈ as, ¬ m.Reads sub (Wire.written ps) a) →
      Read env sub m ps .undefined
  | filed {as : List Atom} {msg : RMessage} : ¬ Wire.HasGroup ps →
      List.Forall₂ (AtomAt (Wire.written ps)) (Wire.spots 0 ps) as → as.length ≤ recordsMax →
      (∀ a ∈ as, m.Reads sub (Wire.written ps) a) →
      ReadAs env sub m (Wire.written ps) as msg → Read env sub m ps (.ok msg)

theorem rmessageNewAux_read {env : Env} {i : ℕ} {m : Message} (hi : env.messages[i]? = some m)
    (hm : m.Simple) {ps : List Wire.Piece} (hfit : (Wire.written ps).length < 2 ^ 32) (fuel : ℕ) :
    Read env (rmessageNewAux env fuel) m ps
      (rmessageNewAux env (fuel + 1) (some i) (Wire.written ps)) := by
  have htype : ∀ index, (RMessage.mk (some i) index).type env = some m := fun index => by
    simpa [RMessage.type, RMessage.msg] using hi
  by_cases hne : Wire.written ps = []
  · obtain rfl := Wire.written_eq_nil.mp hne
    exact @Read.filed env _ m [] [] _ (by simp [Wire.HasGroup]) .nil (Nat.zero_le _) (by simp)
      ⟨htype _, rfl⟩
  · obtain ⟨hgroup, hopen⟩ := openContext_written ps [] (Nat.le_refl _) hfit
    rw [rmessageNewAux, if_neg hne]
    simp only [Option.bind_some, hi]
    by_cases hhas : Wire.HasGroup ps
    · rw [show openContext _ _ 0 = _ from hgroup hhas]
      exact .group hhas
    · obtain ⟨as, hopen, has⟩ := hopen hhas
      rw [show openContext _ _ 0 = _ from hopen, Res.ok_bind]
      by_cases hmany : recordsMax < as.length
      · rw [if_pos hmany]
        exact .spoilt hhas has (.inl hmany)
      · rw [if_neg hmany]
        by_cases hreads : ∀ a ∈ as, m.Reads (rmessageNewAux env fuel) (Wire.written ps) a
        · rw [storeAtoms_eq _ hm hreads, Res.ok_bind]
          exact .filed hhas has (Nat.le_of_not_lt hmany) hreads ⟨htype _, rfl⟩
        · simp only [not_forall] at hreads
          obtain ⟨a, ha, hbad⟩ := hreads
          rw [storeAtoms_undefined _ hm ⟨a, ha, hbad⟩]
          exact .spoilt hhas has (.inr ⟨a, ha, hbad⟩)

/-- A message that is small enough for the library to take in. -/
def Readable (rs : List Wire.Record) (buffer : List UInt8) : Prop :=
  buffer.length ≤ heapMax ∧ rs.length ≤ recordsMax

instance (rs : List Wire.Record) (buffer : List UInt8) : Decidable (Readable rs buffer) :=
  inferInstanceAs (Decidable (_ ∧ _))

theorem rmessageNew_of_aux {env : Env} {name : CStr} {i : ℕ}
    (hget : getMessage env name = some (some i)) {buffer : List UInt8}
    (hheap : buffer.length ≤ heapMax) {msg : RMessage}
    (h : rmessageNewAux env (buffer.length + 1) (some i) buffer = .ok msg) :
    rmessageNew env name buffer = some (.ok msg) := by
  simp [rmessageNew, hget, Nat.not_lt.mpr hheap, h]

/-- A message that is too large for the heap has no defined reading. -/
theorem rmessageNew_heap {env : Env} {name : CStr} {i : ℕ}
    (hget : getMessage env name = some (some i)) {buffer : List UInt8}
    (hheap : heapMax < buffer.length) : rmessageNew env name buffer = none := by
  simp [rmessageNew, hget, hheap]

section Lookup

variable {env : Env} {sub : Option ℕ → List UInt8 → Res RMessage} {m : Message} {f : Field}
  {buffer : List UInt8} {as : List Atom} {msg : RMessage} {i : ℤ}

/-- The record that the library keeps under a name, of the records that are filed under names. -/
def found (filing : Wire.Record → Option CStr) (key : CStr) (ss : List Wire.Spot) :
    Option Wire.Spot :=
  ChainTable.kept (2 ^ Nat.clog 2 ss.length) calcHash key []
    (ss.filterMap fun s => (filing s.record).map fun name => (name, s))

theorem found_eq_some {filing : Wire.Record → Option CStr} {key : CStr} {ss : List Wire.Spot}
    {s : Wire.Spot} (h : found filing key ss = some s) : s ∈ ss ∧ filing s.record = some key := by
  obtain ⟨s', hs', hfiling⟩ := List.mem_filterMap.mp (ChainTable.kept_mem h)
  obtain ⟨name, hname, heq⟩ := Option.map_eq_some_iff.mp hfiling
  obtain ⟨rfl, rfl⟩ := Prod.mk.inj heq
  exact ⟨hs', hname⟩

theorem found_eq_none {filing : Wire.Record → Option CStr} {key : CStr} {ss : List Wire.Spot}
    (h : found filing key ss = none) : ∀ s ∈ ss, filing s.record ≠ some key := by
  intro s hs hfiling
  refine ChainTable.kept_eq_none h s (List.mem_filterMap.mpr ⟨s, hs, ?_⟩)
  rw [hfiling]
  rfl

/-- What is looked up under a name is the value of the record that is kept. -/
theorem ReadAs.query_found (h : ReadAs env sub m buffer as msg) {ss : List Wire.Spot}
    (has : List.Forall₂ (AtomAt buffer) ss as) {filing : Wire.Record → Option CStr}
    (hfiling : ∀ s a, s ∈ ss → AtomAt buffer s a →
      (m.filed sub buffer a).map (·.1) = filing s.record) {key : CStr} (hhash : calcHash key ≠ 0) :
    (found filing key ss = none ∧ msg.query key = some none) ∨
      ∃ s a v, found filing key ss = some s ∧ AtomAt buffer s a ∧
        m.filed sub buffer a = some (key, v) ∧ msg.query key = some (some v) := by
  have hentries : List.Forall₂ (fun e e' => e.1 = e'.1 ∧ ∃ a name, AtomAt buffer e.2 a ∧
      m.filed sub buffer a = some (name, e'.2))
      (ss.filterMap fun s => (filing s.record).map fun name => (name, s))
      (as.filterMap (m.filed sub buffer)) := by
    clear h
    induction has with
    | nil => exact .nil
    | @cons s a ss as ha _ ih =>
        have hs := hfiling s a List.mem_cons_self ha
        have ih := ih fun s a hs => hfiling s a (List.mem_cons_of_mem _ hs)
        rw [List.filterMap_cons, List.filterMap_cons, ← hs]
        cases hfiled : m.filed sub buffer a with
        | none => exact ih
        | some e => exact .cons ⟨rfl, a, e.1, ha, hfiled⟩ ih
  have hrel := ChainTable.kept_rel (r := fun s v => ∃ a name, AtomAt buffer s a ∧
    m.filed sub buffer a = some (name, v)) (2 ^ Nat.clog 2 ss.length) calcHash key [] hentries
  rw [← found] at hrel
  have hquery : msg.query key = some (ChainTable.kept (2 ^ Nat.clog 2 ss.length) calcHash key []
      (as.filterMap (m.filed sub buffer))) := by
    rw [has.length_eq]
    simpa only [RMessage.query, h.index] using
      MapSp.query_insertAll_new (List.length_filterMap_le _ as) hhash
  rw [hquery]
  generalize ChainTable.kept (2 ^ Nat.clog 2 ss.length) calcHash key []
    (as.filterMap (m.filed sub buffer)) = o at hrel ⊢
  cases hfound : found filing key ss with
  | none =>
      rw [hfound] at hrel
      cases hrel
      exact .inl ⟨rfl, rfl⟩
  | some s =>
      rw [hfound] at hrel
      cases hrel with
      | some hr =>
          obtain ⟨a, name, ha, hfiled⟩ := hr
          obtain ⟨hs, hname⟩ := found_eq_some hfound
          have hkey := hfiling s a hs ha
          rw [hfiled, hname] at hkey
          obtain rfl : name = key := by simpa using hkey
          exact .inr ⟨s, a, _, rfl, ha, hfiled, rfl⟩

/-! ### Numbers -/

/-- The field takes a number of any record. -/
def Field.takesNumber (f : Field) : Bool :=
  match f.type, f.type_name with
  | .uint32, _ => true
  | .int32, _ => true
  | .int64, _ => true
  | .enum, .e (some _) => true
  | _, _ => false

/-- What a number read into a field is reported as. -/
def Field.numberVar (f : Field) (low hi : BitVec 32) : Var :=
  if f.type = .enum then .enum low else .integer ⟨low, hi⟩

theorem readValue_number (h : f.takesNumber = true) (a : Atom) (buffer : List UInt8) :
    readValue sub f a buffer = .ok (.var (f.numberVar a.x a.y)) := by
  have hscalar : scalar f a = some (.ok (f.numberVar a.x a.y)) := by
    rw [Field.takesNumber] at h
    split at h
    · rename_i htype
      simp [scalar, Field.numberVar, htype]
    · rename_i htype
      simp [scalar, Field.numberVar, htype]
    · rename_i htype
      simp [scalar, Field.numberVar, htype]
    · rename_i htype hname
      simp [scalar, Field.numberVar, htype, hname]
    · cases h
  simp [readValue, hscalar]

/-- A message type all of whose fields take one number each, under different names. -/
structure Message.Flat (m : Message) : Prop extends m.Simple where
  number : ∀ i f, m.queryId i = some f → f.takesNumber = true

theorem Message.Flat.reads (h : m.Flat) (sub : Option ℕ → List UInt8 → Res RMessage)
    (buffer : List UInt8) (a : Atom) : m.Reads sub buffer a := by
  intro f hf
  rw [readValue_number (h.number _ f hf)]
  simp

/-- A field whose values are numbers, its default too. -/
structure Message.NumberField (m : Message) (i : ℤ) (f : Field) (default : BitVec 32) : Prop where
  byId : m.queryId i = some f
  byName : m.queryName f.name = some (some f)
  takes : f.takesNumber = true
  default_eq : ∃ hi, f.default_v = f.numberVar default hi
  hash_ne : calcHash f.name ≠ 0

theorem lookup_of_query {key : CStr} {x : Var} (hlabel : f.label = .optional ∨ f.label = .required)
    (hquery : msg.query key = some (some ⟨f, .var x⟩)) :
    msg.lookup env key 0 = some (some f.type, x) := by
  rw [RMessage.lookup, hquery]
  rcases hlabel with hlabel | hlabel <;> simp [hlabel]

theorem rmessageInteger_of_query {key : CStr} (low hi : BitVec 32)
    (hlabel : f.label = .optional ∨ f.label = .required)
    (hquery : msg.query key = some (some ⟨f, .var (f.numberVar low hi)⟩)) :
    rmessageInteger env msg key 0 = some low := by
  rw [rmessageInteger, lookup_of_query hlabel hquery, Field.numberVar]
  by_cases htype : f.type = .enum <;> simp [htype]

/-- The number under the name of a missing field is its default. -/
theorem Message.NumberField.default {d : BitVec 32} (hnum : m.NumberField i f d)
    (htype : msg.type env = some m) (hquery : msg.query f.name = some none) :
    rmessageInteger env msg f.name 0 = some d := by
  obtain ⟨hi, hvar⟩ := hnum.default_eq
  rw [rmessageInteger, RMessage.lookup, hquery]
  by_cases henum : f.type = .enum <;>
    simp [htype, messageDefault, hnum.byName, hvar, Field.numberVar, henum]

/-- The name under which a record is filed if every value can be read. -/
def Message.filing (m : Message) (r : Wire.Record) : Option CStr := (m.queryId r.number).map (·.name)

/-- The numbers of the fields are so small that no tag turns negative. -/
def Message.Small (m : Message) : Prop := ∀ i f, m.queryId i = some f → ∃ n : ℕ, n < 2 ^ 28 ∧ i = n

theorem Message.Small.queryId_eq (h : m.Small) {r : Wire.Record} {a : Atom}
    (ha : AtomOf buffer r a) : m.queryId a.id = m.queryId r.number := by
  have hsame : ∀ {n : ℕ}, n < 2 ^ 28 → (a.id = n ↔ (r.number : ℤ) = n) := fun hn => by
    rw [ha.id_eq hn, Int.natCast_inj]
  cases hr : m.queryId r.number with
  | some f =>
      obtain ⟨n, hn, heq⟩ := h _ f hr
      rw [(hsame hn).mpr heq, ← heq, hr]
  | none =>
      cases hid : m.queryId a.id with
      | none => rfl
      | some f =>
          obtain ⟨n, hn, heq⟩ := h _ f hid
          rw [heq, ← (hsame hn).mp heq, hr] at hid
          cases hid

/-- A number is looked up as that of the record that is kept, or as the default where there
is none. -/
theorem ReadAs.integer_found (h : ReadAs env sub m buffer as msg) (hm : m.Flat) (hsmall : m.Small)
    {ss : List Wire.Spot} (has : List.Forall₂ (AtomAt buffer) ss as) {d : BitVec 32}
    (hnum : m.NumberField i f d) :
    rmessageInteger env msg f.name 0 = some (((found m.filing f.name ss).map word).getD d) := by
  have hfiling : ∀ s a, s ∈ ss → AtomAt buffer s a →
      (m.filed sub buffer a).map (·.1) = m.filing s.record := by
    intro s a _ ha
    rw [Message.filing, ← hsmall.queryId_eq ha.toAtomOf]
    cases hf : m.queryId a.id with
    | none => simp [Message.filed, hf]
    | some g => simp [Message.filed_eq hf (readValue_number (hm.number _ g hf) a buffer)]
  rcases h.query_found has hfiling hnum.hash_ne with ⟨hnone, hq⟩ | ⟨s, a, v, hs, ha, hfiled, hq⟩
  · rw [hnone]
    exact hnum.default h.type_eq hq
  · obtain ⟨hid, w, hw, rfl⟩ := hm.toSimple.filed_name hnum.byId hfiled
    rw [readValue_number hnum.takes, Res.ok.injEq] at hw
    subst hw
    rw [hs, Option.map_some, Option.getD_some, ← ha.word]
    exact rmessageInteger_of_query a.x a.y (hm.label _ f hnum.byId) hq

variable {rs : List Wire.Record} {n : ℕ} {d : BitVec 32}

/-- What is read for a number: that of a record, or the default where there is none. -/
def ReadFrom (rs : List Wire.Record) (n : ℕ) (default v : BitVec 32) : Prop :=
  (∃ r ∈ rs, r.number = n ∧ ∀ w, r.payload = .varint w → v = lowWord w.toNat) ∨
    Wire.payloads n rs = [] ∧ v = default

theorem ReadFrom.once {v : BitVec 32} (h : ReadFrom rs n d v) {w : BitVec 64}
    (hone : Wire.SetsOnce rs n (.varint w)) : v = lowWord w.toNat := by
  rcases h with ⟨r, hr, hrn, hword⟩ | ⟨hno, -⟩
  · have hmem := Wire.mem_payloads.mpr ⟨r, hr, hrn, rfl⟩
    rw [hone, List.mem_singleton] at hmem
    exact hword w hmem
  · rw [Wire.SetsOnce, hno] at hone
    cases hone

theorem lowWord_setWidth (v : BitVec 32) : lowWord (v.setWidth 64).toNat = v := by
  have hv := v.isLt
  have hwide : (v.setWidth 64).toNat = v.toNat := by
    rw [BitVec.toNat_setWidth]
    omega
  rw [hwide, lowWord_of_lt hv, BitVec.ofNat_toNat, BitVec.setWidth_eq]

/-- A varint for a number of 32 bits: the number is negative if the varint is. -/
def IsNumber (p : Wire.Payload) : Prop :=
  ∃ w : BitVec 64, p = .varint w ∧ (w.msb = true → w.getLsbD 31 = true)

/-- The library reads exactly the varints of numbers right. -/
theorem lowWord_eq_iff (w : BitVec 64) :
    lowWord w.toNat = w.setWidth 32 ↔ (w.msb = true → w.getLsbD 31 = true) := by
  have hbit : w.toNat.testBit 63 = w.msb := by
    rw [BitVec.msb_eq_getLsbD_last]
    rfl
  have hlow : BitVec.ofNat 32 w.toNat = w.setWidth 32 := BitVec.ofNat_toNat 32 w
  rw [lowWord, hbit, hlow]
  cases w.msb with
  | false => simp
  | true =>
      simp only [if_true, true_implies]
      constructor
      · intro h
        have hbit' := congrArg (fun x => BitVec.getLsbD x 31) h
        simpa [BitVec.getLsbD_setWidth] using hbit'.symm
      · intro h
        apply BitVec.eq_of_getLsbD_eq
        intro i hi
        by_cases h31 : i = 31
        · subst h31
          simp [h]
        · have hmask : (0x80000000 : BitVec 32).getLsbD i = false := by
            revert i
            decide
          rw [BitVec.getLsbD_or, hmask, Bool.or_false]

/-- What is kept for a field is read from a record of it. -/
theorem readFrom_found (hm : m.Simple) (ss : List Wire.Spot) (hf : m.queryId n = some f)
    (d : BitVec 32) :
    ReadFrom (ss.map (·.record)) n d (((found m.filing f.name ss).map word).getD d) := by
  cases hfound : found m.filing f.name ss with
  | none =>
      refine .inr ⟨List.eq_nil_iff_forall_not_mem.mpr fun p hp => ?_, rfl⟩
      obtain ⟨r, hr, hrn, -⟩ := Wire.mem_payloads.mp hp
      obtain ⟨s, hs, rfl⟩ := List.mem_map.mp hr
      refine found_eq_none hfound s hs ?_
      rw [Message.filing, hrn, hf]
      rfl
  | some s =>
      obtain ⟨hs, hname⟩ := found_eq_some hfound
      obtain ⟨g, hg, hgname⟩ := Option.map_eq_some_iff.mp hname
      have hnumber := hm.name _ _ g f hg hf hgname
      refine .inl ⟨s.record, List.mem_map_of_mem hs, Int.natCast_inj.mp hnumber, fun w hw => ?_⟩
      simp [word, hw]

/-! ### Sub-messages -/

/-- A field for messages of the type at `j`. -/
structure Message.NestedField (m : Message) (i : ℤ) (f : Field) (j : ℕ) : Prop where
  byId : m.queryId i = some f
  byName : m.queryName f.name = some (some f)
  type_eq : f.type = .message
  type_name_eq : f.type_name = .m (some j)
  hash_ne : calcHash f.name ≠ 0

variable {j : ℕ} {inner : RMessage}

theorem Message.NestedField.readValue_lend (h : m.NestedField i f j) {a : Atom}
    (ha : a.isLend = true) :
    readValue sub f a buffer = match sub (some j) (a.slice buffer) with
      | .ok inner => .ok (.message inner)
      | .null => .ok (.message .zeroed)
      | .undefined => .undefined := by
  cases hsub : sub (some j) (a.slice buffer) <;>
    simp [readValue, scalar, h.type_eq, h.type_name_eq, ha, hsub]

theorem Message.NestedField.readValue_other (h : m.NestedField i f j) {a : Atom}
    (ha : a.isLend = false) : readValue sub f a buffer = .null := by
  simp [readValue, scalar, h.type_eq, ha]

theorem rmessageMessage_of_query {key : CStr} (hlabel : f.label = .optional ∨ f.label = .required)
    (hquery : msg.query key = some (some ⟨f, .message inner⟩)) :
    rmessageMessage env msg key 0 = .ok inner := by
  rw [rmessageMessage, hquery]
  rcases hlabel with hlabel | hlabel <;> simp [hlabel]

/-- A missing sub-message is one without an index. -/
theorem Message.NestedField.absent (h : m.NestedField i f j) (htype : msg.type env = some m)
    (hquery : msg.query f.name = some none) :
    rmessageMessage env msg f.name 0 = .ok (.mk (some j) none) := by
  simp [rmessageMessage, hquery, htype, h.byName, h.type_name_eq]

/-- All numbers of a message without an index are defaults. -/
theorem Message.NumberField.noIndex (hnum : m.NumberField i f d)
    (hj : env.messages[j]? = some m) :
    rmessageInteger env (.mk (some j) none) f.name 0 = some d :=
  hnum.default (by simpa [RMessage.type, RMessage.msg] using hj) rfl

end Lookup

end Pbc
