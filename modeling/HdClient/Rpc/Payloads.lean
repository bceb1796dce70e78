-- SUMMARY: Payloads that answer a request for an application, and what get_new_app makes of every one of them.
import HdClient.Rpc.Applications

/-! # Payloads

A payload carries the id of the new application in a sub-message of its own,
which need not be there. -/

namespace HdClient

open Pbc Conn

variable {env : Env} {l : Locals} {s : Conn}

/-! ## Payloads as they are sent -/

/-- The sub-messages that the records of a field hold. -/
def bodies (n : ℕ) (rs : List Wire.Record) : List (List UInt8) :=
  (Wire.payloads n rs).filterMap fun
    | .lend body => some body
    | _ => none

theorem mem_bodies {n : ℕ} {rs : List Wire.Record} {body : List UInt8} :
    body ∈ bodies n rs ↔ ∃ r ∈ rs, r.number = n ∧ r.payload = .lend body := by
  rw [bodies, List.mem_filterMap, ← Wire.mem_payloads]
  constructor
  · rintro ⟨p, hp, hbody⟩
    cases p with
    | lend b => exact (Option.some.inj hbody) ▸ hp
    | varint v => cases hbody
    | bits64 v => cases hbody
    | bits32 v => cases hbody
  · exact fun hp => ⟨_, hp, rfl⟩

/-- `GetNewApplicationResponseProto` as it is written: application ids and capabilities,
none or several of each, and any fields that nobody knows. -/
structure NewAppResponse where
  pieces : List Wire.Piece
  apps : List (List Wire.Piece)
  apps_eq : bodies 1 (Wire.records pieces) = apps.map Wire.written
  capability : ∀ n ∈ [2, 3], ∀ body ∈ bodies n (Wire.records pieces),
    ∃ qs, Wire.written qs = body

namespace NewAppResponse

/-- The id of the application: the last one that is set, or zero. -/
def id (p : NewAppResponse) : BitVec 32 :=
  (((Wire.payloads 1 (p.apps.flatMap Wire.records)).filterMap fun
    | .varint w => some (w.setWidth 32)
    | _ => none).getLast?).getD 0

theorem bodies_pieces (p : NewAppResponse) {n : ℕ} (hn : n ∈ [1, 2, 3]) {body : List UInt8}
    (hbody : body ∈ bodies n (Wire.records p.pieces)) : ∃ qs, Wire.written qs = body := by
  by_cases hone : n = 1
  · subst hone
    rw [p.apps_eq] at hbody
    obtain ⟨qs, -, hqs⟩ := List.mem_map.mp hbody
    exact ⟨qs, hqs⟩
  · exact p.capability n (by simpa [hone] using hn) body hbody

end NewAppResponse

/-! ## Payloads as they are read -/

/-- `GetNewApplicationResponseProto` -/
def newAppFields : List Declaration :=
  [⟨lit "application_id", 1, .optional, .message⟩,
    ⟨lit "minimumCapability", 2, .optional, .message⟩,
    ⟨lit "maximumCapability", 3, .optional, .message⟩]

/-- `ApplicationIdProto` -/
def applicationIdFields : List Declaration :=
  [⟨lit "id", 1, .optional, .int32⟩, ⟨lit "cluster_timestamp", 2, .optional, .int64⟩]

/-- A record is filed as a sub-message if it holds one. -/
def fileMessage (r : Wire.Record) : Option CStr :=
  match r.payload with
  | .lend _ => fileUnder newAppFields r
  | _ => none

/-- A sub-message with too many records for the library, none of which is a group. -/
def Overfull (qs : List Wire.Piece) : Prop :=
  ¬ Wire.HasGroup qs ∧ recordsMax < (Wire.spots 0 qs).length

theorem not_overfull {qs : List Wire.Piece} (h : (Wire.written qs).length ≤ recordsMax) :
    ¬ Overfull qs := by
  have hle := Wire.spots_length_le 0 qs
  exact fun hover => absurd hover.2 (by omega)

/-- The number in the record that the library keeps for the id of an application. -/
def idWord (qs : List Wire.Piece) : BitVec 32 :=
  ((found (fileUnder applicationIdFields) (lit "id") (Wire.spots 0 qs)).map word).getD 0

namespace NewAppResponse

/-- The payload is not too large for the library, and no part of it has too many records. -/
def TakenIn (p : NewAppResponse) : Prop :=
  (Wire.written p.pieces).length ≤ heapMax ∧ (Wire.HasGroup p.pieces ∨
    (Wire.spots 0 p.pieces).length ≤ recordsMax ∧
      ∀ n ∈ [1, 2, 3], ∀ qs, Wire.written qs ∈ bodies n (Wire.records p.pieces) → ¬ Overfull qs)

/-- The application id that the library keeps. -/
def Keeps (p : NewAppResponse) (qs : List Wire.Piece) : Prop :=
  ∃ s, found fileMessage (lit "application_id") (Wire.spots 0 p.pieces) = some s ∧
    s.record.payload = .lend (Wire.written qs)

end NewAppResponse

/-! ## The types -/

theorem ApplicationIdType.declares {m : Message} (h : ApplicationIdType m) :
    ∀ d ∈ applicationIdFields, m.DeclaresAs d := by
  simp [applicationIdFields, h.id, h.timestamp]

theorem ApplicationIdType.flat {m : Message} (h : ApplicationIdType m) : m.Flat :=
  flat_of_declares h.declares h.only (by decide) (by simp [applicationIdFields])
    (by simp [applicationIdFields, PType.isNumber])

theorem ApplicationIdType.idField {m : Message} (h : ApplicationIdType m) :
    ∃ f, m.NumberField 1 f 0 ∧ f.name = lit "id" := by
  obtain ⟨f, d, hnum, hname⟩ := h.id.numberField (by decide) (by decide)
  have hdefault := h.id_default f hnum.byId
  obtain ⟨hi, hd⟩ := hnum.default_eq
  obtain rfl : d = 0 := by
    rw [hdefault, Field.numberVar] at hd
    split at hd
    · cases hd
    · rw [Var.integer.injEq, Longlong.mk.injEq] at hd
      exact hd.1.symm
  exact ⟨f, hnum, hname⟩

theorem ResourceType.flat {m : Message} (h : ResourceType m) : m.Flat := by
  have hall : ∀ d ∈ ([⟨lit "memory", 1, .optional, .int32⟩,
      ⟨lit "virtual_cores", 2, .optional, .int32⟩] : List Declaration), m.DeclaresAs d := by
    simp [h.memory, h.cores]
  exact flat_of_declares hall h.only (by decide) (by simp) (by simp [PType.isNumber])

theorem nests_declares {m : Message} {name : CStr} {n : ℕ} {P : Message → Prop}
    (h : m.Nests env name n P) : m.Declares name n .optional .message := by
  obtain ⟨f, hhas, his, -⟩ := h
  exact ⟨f, hhas, his⟩

theorem nests_field {m : Message} {name : CStr} {n : ℕ} {P : Message → Prop}
    (h : m.Nests env name n P) (hhash : calcHash name ≠ 0) :
    ∃ f j sub, m.NestedField n f j ∧ f.name = name ∧ env.messages[j]? = some sub ∧ P sub := by
  obtain ⟨f, hhas, his, j, sub, hj, hsub, hP⟩ := h
  exact ⟨f, j, sub, ⟨his.id_eq ▸ hhas.byId, hhas.byName, his.type_eq, hj, his.name_eq ▸ hhash⟩,
    his.name_eq, hsub, hP⟩

/-- A type all of whose fields are messages of numbers. -/
structure NestsFlat (env : Env) (m : Message) : Prop extends m.Simple where
  small : m.Small
  filing_eq : m.filing = fileUnder newAppFields
  nested : ∀ n ∈ [1, 2, 3], ∃ f j sub, m.NestedField (n : ℕ) f j ∧ env.messages[j]? = some sub ∧
    sub.Flat
  only : m.OnlyIds [1, 2, 3]

theorem NestsFlat.field {m : Message} (h : NestsFlat env m) {i : ℤ} {f : Field}
    (hf : m.queryId i = some f) : ∃ n ∈ [1, 2, 3], ∃ j sub, i = (n : ℕ) ∧ m.NestedField n f j ∧
      env.messages[j]? = some sub ∧ sub.Flat := by
  obtain ⟨n, hn, rfl⟩ : ∃ n ∈ [1, 2, 3], i = (n : ℕ) := by
    simpa using h.only i f hf
  obtain ⟨g, j, sub, hg, hj, hsub⟩ := h.nested n hn
  obtain rfl : f = g := Option.some.inj (hf.symm.trans hg.byId)
  exact ⟨n, hn, j, sub, rfl, hg, hj, hsub⟩

theorem NewAppResponseType.nestsFlat (h : NewAppResponseType env) :
    ∃ m f j sub, Registered env (lit "GetNewApplicationResponseProto") m ∧ NestsFlat env m ∧
      m.NestedField 1 f j ∧ f.name = lit "application_id" ∧ env.messages[j]? = some sub ∧
      ApplicationIdType sub := by
  obtain ⟨m, hreg, hnests₁, hnests₂, hnests₃, hids⟩ := h.registered
  have hall : ∀ d ∈ newAppFields, m.DeclaresAs d := by
    simp [newAppFields, nests_declares hnests₁, nests_declares hnests₂, nests_declares hnests₃]
  obtain ⟨f₁, j₁, sub₁, hf₁, hname₁, hj₁, hsub₁⟩ := nests_field hnests₁ (by decide)
  obtain ⟨f₂, j₂, sub₂, hf₂, -, hj₂, hsub₂⟩ := nests_field hnests₂ (by decide)
  obtain ⟨f₃, j₃, sub₃, hf₃, -, hj₃, hsub₃⟩ := nests_field hnests₃ (by decide)
  refine ⟨m, f₁, j₁, sub₁, hreg, ⟨simple_of_declares hall hids (by decide) (by simp [newAppFields]),
    small_of_declares hall hids (by decide), filing_of_declares hall hids, ?_, hids⟩, hf₁, hname₁, hj₁,
    hsub₁⟩
  simp only [List.forall_mem_cons]
  exact ⟨⟨f₁, j₁, sub₁, hf₁, hj₁, hsub₁.flat⟩, ⟨f₂, j₂, sub₂, hf₂, hj₂, hsub₂.flat⟩,
    ⟨f₃, j₃, sub₃, hf₃, hj₃, hsub₃.flat⟩, by simp⟩

/-- The records that are filed as application ids. -/
theorem fileMessage_application_id {r : Wire.Record} :
    fileMessage r = some (lit "application_id") ↔ r.number = 1 ∧ ∃ body, r.payload = .lend body := by
  have hd : (⟨lit "application_id", 1, .optional, .message⟩ : Declaration) ∈ newAppFields := by decide
  have hname := fileUnder_eq_some (r := r) (by decide) (by decide) hd
  rw [fileMessage]
  cases hpayload : r.payload with
  | lend body => simpa using hname
  | varint v => simp
  | bits64 v => simp
  | bits32 v => simp

/-! ## Reading a sub-message -/

/-- What reading a sub-message of numbers comes to. -/
inductive ReadNested (env : Env) (m : Message) (qs : List Wire.Piece) :
    Res (Cell RMessage) → Prop where
  | group : Wire.HasGroup qs → ReadNested env m qs (.ok (.message .zeroed))
  | overfull : Overfull qs → ReadNested env m qs .undefined
  | filed {fuel : ℕ} {as : List Atom} {msg : RMessage} : ¬ Wire.HasGroup qs → ¬ Overfull qs →
      List.Forall₂ (AtomAt (Wire.written qs)) (Wire.spots 0 qs) as →
      ReadAs env (rmessageNewAux env fuel) m (Wire.written qs) as msg →
      ReadNested env m qs (.ok (.message msg))

theorem readValue_nested {m sub : Message} {n j fuel : ℕ} {f : Field} {buffer : List UInt8}
    {spot : Wire.Spot} {a : Atom} {qs : List Wire.Piece} (hf : m.NestedField n f j)
    (hj : env.messages[j]? = some sub) (hsub : sub.Flat) (ha : AtomAt buffer spot a)
    (hbody : spot.record.payload = .lend (Wire.written qs)) (hfit : buffer.length < 2 ^ 32)
    (hfuel : 0 < fuel) : ReadNested env sub qs (readValue (rmessageNewAux env fuel) f a buffer) := by
  have hlen := ha.body_length_le hbody
  obtain ⟨k, rfl⟩ : ∃ k, fuel = k + 1 := ⟨fuel - 1, by omega⟩
  have hfit' : (Wire.written qs).length < 2 ^ 32 := Nat.lt_of_le_of_lt hlen hfit
  have hread := rmessageNewAux_read hj hsub.toSimple hfit' k
  rw [hf.readValue_lend (ha.isLend_iff.mpr ⟨_, hbody⟩), ha.body _ hbody]
  generalize rmessageNewAux env (k + 1) (some j) (Wire.written qs) = res at hread
  cases hread with
  | group hgroup => exact .group hgroup
  | spoilt hno has hbad =>
      refine .overfull ⟨hno, ?_⟩
      rcases hbad with hmany | ⟨b, -, hbad⟩
      · rwa [has.length_eq]
      · exact absurd (hsub.reads _ _ b) hbad
  | filed hno has hle _ hmsg =>
      refine .filed hno (fun hover => ?_) has hmsg
      have hmany := hover.2
      rw [has.length_eq] at hmany
      omega

theorem ReadNested.hasGroup_iff {m : Message} {qs : List Wire.Piece} {msg : RMessage}
    (h : ReadNested env m qs (.ok (.message msg))) : Wire.HasGroup qs ↔ msg.type env = none := by
  cases h with
  | group hgroup => exact ⟨fun _ => rfl, fun _ => hgroup⟩
  | filed hno _ _ hmsg => simp [hno, hmsg.type_eq]

theorem ReadNested.undefined_iff {m : Message} {qs : List Wire.Piece} {res : Res (Cell RMessage)}
    (h : ReadNested env m qs res) : res = .undefined ↔ Overfull qs := by
  cases h with
  | group hgroup => exact ⟨fun h => (by cases h), fun hover => absurd hgroup hover.1⟩
  | overfull hover => exact ⟨fun _ => hover, fun _ => rfl⟩
  | filed _ hover => exact ⟨fun h => (by cases h), fun h => absurd h hover⟩

/-! ## Reading a payload -/

section Filed

variable {m : Message} (hm : NestsFlat env m) (p : NewAppResponse)
  (hfit : (Wire.written p.pieces).length < 2 ^ 32) {s : Wire.Spot} {a : Atom}
  (hs : s ∈ Wire.spots 0 p.pieces) (ha : AtomAt (Wire.written p.pieces) s a)

include hm hfit hs ha

/-- Reading a record is undefined exactly if it holds a sub-message with too many records. -/
private theorem reads_of_spot :
    m.Reads (rmessageNewAux env (Wire.written p.pieces).length) (Wire.written p.pieces) a ↔
      ∀ n ∈ [1, 2, 3], s.record.number = n → ∀ qs, s.record.payload = .lend (Wire.written qs) →
        ¬ Overfull qs := by
  have hpos := Wire.written_pos hs
  constructor
  · intro hreads n hn hnumber qs hbody hover
    obtain ⟨f, j, sub, hf, hj, hsub⟩ := hm.nested n hn
    have hid : m.queryId a.id = some f := by
      rw [hm.small.queryId_eq ha.toAtomOf, hnumber, hf.byId]
    exact hreads f hid ((readValue_nested hf hj hsub ha hbody hfit hpos).undefined_iff.mpr hover)
  · intro h f hf
    rw [hm.small.queryId_eq ha.toAtomOf] at hf
    obtain ⟨n, hn, j, sub, hid, hfield, hj, hsub⟩ := hm.field hf
    have hnumber : s.record.number = n := Int.natCast_inj.mp hid
    cases hlend : a.isLend with
    | false =>
        rw [hfield.readValue_other hlend]
        simp
    | true =>
        obtain ⟨body, hbody⟩ := ha.isLend_iff.mp hlend
        obtain ⟨qs, rfl⟩ := p.bodies_pieces hn
          (mem_bodies.mpr ⟨_, Wire.mem_spots hs, hnumber, hbody⟩)
        exact mt (readValue_nested hfield hj hsub ha hbody hfit hpos).undefined_iff.mp
          (h n hn hnumber qs hbody)

/-- A record whose reading is defined is filed under the name of the field that it sets. -/
private theorem filed_of_spot
    (hreads : m.Reads (rmessageNewAux env (Wire.written p.pieces).length) (Wire.written p.pieces) a) :
    (m.filed (rmessageNewAux env (Wire.written p.pieces).length) (Wire.written p.pieces) a).map
      (·.1) = fileMessage s.record := by
  have hid := hm.small.queryId_eq ha.toAtomOf
  have hfile : (m.queryId s.record.number).map (·.name) = fileUnder newAppFields s.record :=
    congrFun hm.filing_eq s.record
  rw [fileMessage]
  cases hf : m.queryId s.record.number with
  | none =>
      rw [hf] at hfile hid
      rw [Message.filed, hid, ← hfile]
      cases s.record.payload <;> rfl
  | some f =>
      rw [hf] at hfile hid
      obtain ⟨n, hn, j, sub, hnumber, hfield, hj, hsub⟩ := hm.field hf
      cases hlend : a.isLend with
      | false =>
          have hother : ∀ body, s.record.payload ≠ .lend body := fun body hbody =>
            absurd (ha.isLend_iff.mpr ⟨body, hbody⟩) (by simp [hlend])
          rw [Message.filed, hid]
          simp only [hfield.readValue_other hlend]
          cases hpayload : s.record.payload with
          | lend body => exact absurd hpayload (hother body)
          | varint v => rfl
          | bits64 v => rfl
          | bits32 v => rfl
      | true =>
          obtain ⟨body, hbody⟩ := ha.isLend_iff.mp hlend
          obtain ⟨qs, rfl⟩ := p.bodies_pieces hn
            (mem_bodies.mpr ⟨_, Wire.mem_spots hs, Int.natCast_inj.mp hnumber, hbody⟩)
          have hread := readValue_nested hfield hj hsub ha hbody hfit (Wire.written_pos hs)
          have hdefined := hreads f hid
          simp only [hbody, ← hfile, Option.map_some]
          generalize hres : readValue (rmessageNewAux env (Wire.written p.pieces).length) f a
            (Wire.written p.pieces) = res at hread hdefined
          cases hread with
          | group _ => rw [Message.filed_eq hid hres, Option.map_some]
          | overfull _ => exact absurd rfl hdefined
          | filed _ _ _ _ => rw [Message.filed_eq hid hres, Option.map_some]

end Filed

/-- What reading a payload comes to. -/
inductive ReadPayload (env : Env) (p : NewAppResponse) : Prop where
  | untaken : ¬ p.TakenIn →
      rmessageNew env (lit "GetNewApplicationResponseProto") (Wire.written p.pieces) = none →
      ReadPayload env p
  | group : p.TakenIn → Wire.HasGroup p.pieces →
      rmessageNew env (lit "GetNewApplicationResponseProto") (Wire.written p.pieces) =
        some (.error .decodeContext) → ReadPayload env p
  | missing : p.TakenIn → ¬ Wire.HasGroup p.pieces → p.apps = [] →
      DecodesId env (Wire.written p.pieces) 0 → ReadPayload env p
  | broken {qs : List Wire.Piece} : ¬ Wire.HasGroup p.pieces → qs ∈ p.apps →
      (∀ qs, p.Keeps qs → Wire.HasGroup qs) →
      (∃ rmsg, rmessageNew env (lit "GetNewApplicationResponseProto") (Wire.written p.pieces) =
          some (.ok rmsg) ∧ rmessageMessage env rmsg (lit "application_id") 0 = .ok .zeroed) →
      ReadPayload env p
  | kept {qs : List Wire.Piece} : p.TakenIn → ¬ Wire.HasGroup p.pieces → qs ∈ p.apps → p.Keeps qs →
      (∀ qs, p.Keeps qs → ¬ Wire.HasGroup qs ∧ DecodesId env (Wire.written p.pieces) (idWord qs)) →
      ReadPayload env p

theorem readPayload (henv : NewAppResponseType env) (p : NewAppResponse) : ReadPayload env p := by
  obtain ⟨m, f, j, sub, ⟨i, hget, hi⟩, hm, hf, hname, hj, hsub⟩ := henv.nestsFlat
  by_cases hheap : (Wire.written p.pieces).length ≤ heapMax
  swap
  · exact .untaken (fun h => hheap h.1) (rmessageNew_heap hget (Nat.lt_of_not_le hheap))
  have hfit : (Wire.written p.pieces).length < 2 ^ 32 := Nat.lt_of_le_of_lt hheap (by decide)
  have hread := rmessageNewAux_read hi hm.toSimple hfit (Wire.written p.pieces).length
  generalize hres : rmessageNewAux env ((Wire.written p.pieces).length + 1) (some i)
    (Wire.written p.pieces) = res at hread
  cases hread with
  | group hgroup =>
      exact .group ⟨hheap, .inl hgroup⟩ hgroup (by simp [rmessageNew, hget, Nat.not_lt.mpr hheap, hres])
  | spoilt hno has hbad =>
      refine .untaken (fun htaken => ?_) (by simp [rmessageNew, hget, hres])
      obtain ⟨hle, hnested⟩ := htaken.2.resolve_left hno
      rw [← has.length_eq] at hbad
      rcases hbad with hmany | ⟨a, ha, hbad⟩
      · omega
      · obtain ⟨s, hs, hatom⟩ := exists_left has ha
        refine hbad ((reads_of_spot hm p hfit hs hatom).mpr fun n hn hnumber qs hbody => ?_)
        exact hnested n hn qs (mem_bodies.mpr ⟨_, Wire.mem_spots hs, hnumber, hbody⟩)
  | filed hno has hle hreads hmsg =>
      have hnew := rmessageNew_of_aux hget hheap hres
      have htaken : p.TakenIn := by
        refine ⟨hheap, .inr ⟨by rwa [has.length_eq], fun n hn qs hbody => ?_⟩⟩
        obtain ⟨r, hr, hnumber, hpayload⟩ := mem_bodies.mp hbody
        rw [← Wire.map_record_spots 0] at hr
        obtain ⟨s, hs, rfl⟩ := List.mem_map.mp hr
        obtain ⟨a, ha, hatom⟩ := exists_right has hs
        exact (reads_of_spot hm p hfit hs hatom).mp (hreads a ha) n hn hnumber qs hpayload
      have hfiling : ∀ s a, s ∈ Wire.spots 0 p.pieces → AtomAt (Wire.written p.pieces) s a →
          (m.filed (rmessageNewAux env (Wire.written p.pieces).length) (Wire.written p.pieces) a).map
            (·.1) = fileMessage s.record := by
        intro s a hs ha
        refine filed_of_spot hm p hfit hs ha ((reads_of_spot hm p hfit hs ha).mpr ?_)
        intro n hn hnumber qs hbody
        exact (htaken.2.resolve_left hno).2 n hn qs
          (mem_bodies.mpr ⟨_, Wire.mem_spots hs, hnumber, hbody⟩)
      obtain ⟨g, hg, hgname⟩ := hsub.idField
      rcases hmsg.query_found has hfiling hf.hash_ne with ⟨hnone, hq⟩ | ⟨s, a, v, hs, ha, hfiled, hq⟩
      · -- no record holds an application id
        rw [hname] at hnone
        refine .missing htaken hno (List.map_eq_nil_iff.mp (p.apps_eq.symm.trans ?_)) ?_
        · refine List.eq_nil_iff_forall_not_mem.mpr fun body hbody => ?_
          obtain ⟨r, hr, hnumber, hpayload⟩ := mem_bodies.mp hbody
          rw [← Wire.map_record_spots 0] at hr
          obtain ⟨s, hs, rfl⟩ := List.mem_map.mp hr
          exact found_eq_none hnone s hs (fileMessage_application_id.mpr ⟨hnumber, body, hpayload⟩)
        · rw [DecodesId, ← hname, ← hgname]
          exact ⟨_, .mk (some j) none, hnew, hf.absent hmsg.type_eq hq, hg.noIndex hj⟩
      · -- the body of the record that is kept is one of the application ids
        rw [hname] at hs
        obtain ⟨hspot, hfile⟩ := found_eq_some hs
        obtain ⟨hnumber, body, hbody⟩ := fileMessage_application_id.mp hfile
        have hmem := mem_bodies.mpr ⟨_, Wire.mem_spots hspot, hnumber, hbody⟩
        rw [p.apps_eq] at hmem
        obtain ⟨qs, hqs, rfl⟩ := List.mem_map.mp hmem
        obtain ⟨-, c, hc, rfl⟩ := hm.toSimple.filed_name hf.byId hfiled
        have hlabel := hm.label _ f hf.byId
        have hread : ∀ qs, p.Keeps qs → ReadNested env sub qs (.ok c) := by
          rintro qs ⟨s', hs', hbody'⟩
          obtain rfl : s = s' := Option.some.inj (hs.symm.trans hs')
          exact hc ▸ readValue_nested hf hj hsub.flat ha hbody' hfit (Wire.written_pos hspot)
        have hkeeps : p.Keeps qs := ⟨s, hs, hbody⟩
        obtain ⟨inner, rfl⟩ : ∃ inner, c = .message inner := by
          cases hread qs hkeeps <;> exact ⟨_, rfl⟩
        have hmessage : rmessageMessage env _ (lit "application_id") 0 = .ok inner :=
          hname ▸ rmessageMessage_of_query hlabel hq
        by_cases hgroup : Wire.HasGroup qs
        · refine .broken hno hqs (fun qs' hqs' => ?_) ⟨_, hnew, ?_⟩
          · exact (hread qs' hqs').hasGroup_iff.mpr ((hread qs hkeeps).hasGroup_iff.mp hgroup)
          · cases hread qs hkeeps with
            | group _ => exact hmessage
            | filed hplain _ _ _ => exact absurd hgroup hplain
        · refine .kept htaken hno hqs hkeeps fun qs' hqs' => ?_
          have hno' : ¬ Wire.HasGroup qs' :=
            mt (hread qs' hqs').hasGroup_iff.mp (mt (hread qs hkeeps).hasGroup_iff.mpr hgroup)
          refine ⟨hno', ?_⟩
          cases hread qs' hqs' with
          | group hgroup' => exact absurd hgroup' hno'
          | filed _ _ hinner hinnermsg =>
              have hword := hinnermsg.integer_found hsub.flat
                (small_of_declares hsub.declares hsub.only (by decide)) hinner hg
              rw [filing_of_declares hsub.declares hsub.only, hgname] at hword
              exact ⟨_, _, hnew, hmessage, hword⟩

/-- The library looks up the id of a payload in a defined way exactly if it takes the
payload in, and it stops at a group, or has no application id to look into, or keeps
one that it could read. -/
theorem looksUp_iff (henv : NewAppResponseType env) (p : NewAppResponse) :
    LooksUp env (Wire.written p.pieces) ↔ p.TakenIn ∧ (Wire.HasGroup p.pieces ∨ p.apps = [] ∨
      ∃ qs, p.Keeps qs ∧ ¬ Wire.HasGroup qs) := by
  cases readPayload henv p with
  | untaken hnot hnew => exact ⟨fun h => absurd hnew h.payload, fun h => absurd h.1 hnot⟩
  | group htaken hgroup hnew =>
      refine ⟨fun _ => ⟨htaken, .inl hgroup⟩, fun _ => ⟨?_, fun _ hok => ?_, fun _ _ hok => ?_⟩⟩
      · simp [hnew]
      · simp [hnew] at hok
      · simp [hnew] at hok
  | missing htaken _ hnil hid => exact ⟨fun _ => ⟨htaken, .inr (.inl hnil)⟩, fun _ => hid.looksUp⟩
  | broken hno hqs hall hzeroed =>
      obtain ⟨rmsg, hnew, hmessage⟩ := hzeroed
      constructor
      · exact fun h => absurd rfl (h.id _ _ hnew hmessage)
      · rintro ⟨-, hgroup | hnil | ⟨qs, hkeeps, hplain⟩⟩
        · exact absurd hgroup hno
        · rw [hnil] at hqs
          cases hqs
        · exact absurd (hall qs hkeeps) hplain
  | @kept qs htaken _ _ hkeeps hall =>
      obtain ⟨hplain, hid⟩ := hall qs hkeeps
      exact ⟨fun _ => ⟨htaken, .inr (.inr ⟨qs, hkeeps, hplain⟩)⟩, fun _ => hid.looksUp⟩

/-! ## The call -/

/-- `get_new_app` returns zero if and only if the payload has an application id,
and then the proxy has that application; it has none otherwise. -/
def AnswersWith (env : Env) (l : Locals) (s : Conn) (p : NewAppResponse) : Prop :=
  ∃ rc t, (getNewApp env l).run s = .ret rc t ∧ (rc = 0 ↔ p.apps ≠ []) ∧
    (p.apps ≠ [] → t.proxy.app_id = p.id) ∧ (p.apps = [] → rc = -1 ∧ t.proxy.app_id = -1)

/-- It does that exactly for the payloads that the library takes in and that have no
application id but a group, or keep an application id without groups whose number is read
as the one that is set. -/
theorem answersWith_iff (henv : NewAppResponseType env) (happ : s.proxy.app_id = -1)
    (p : NewAppResponse) (hdelivers : Delivers env l s (Wire.written p.pieces)) :
    AnswersWith env l s p ↔
      p.TakenIn ∧ ((p.apps = [] ∧ Wire.HasGroup p.pieces) ∨
        (¬ Wire.HasGroup p.pieces ∧
          ∃ qs ∈ p.apps, p.Keeps qs ∧ ¬ Wire.HasGroup qs ∧ idWord qs = p.id)) := by
  obtain ⟨v, hv, hrun⟩ := getNewApp_of_payload happ hdelivers
  rw [AnswersWith, hrun]
  cases readPayload henv p with
  | untaken hnot hnew =>
      constructor
      · rintro ⟨rc, t, hret, -⟩
        rw [storeAppId, hnew] at hret
        cases hret
      · exact fun h => absurd h.1 hnot
  | group htaken hgroup hnew =>
      have hret : (storeAppId env (Wire.written p.pieces)).run v =
          .ret (-1) (v.printing .deserializeResponseFailed) := by
        rw [storeAppId, hnew]
        rfl
      rw [hret]
      constructor
      · rintro ⟨rc, t, heq, hzero, -⟩
        cases heq
        exact ⟨htaken, .inl ⟨by_contra fun hne => absurd (hzero.mpr hne) (by decide), hgroup⟩⟩
      · rintro ⟨-, ⟨hnil, -⟩ | ⟨hno, -⟩⟩
        · exact ⟨_, _, rfl, by simp [hnil], by simp [hnil], fun _ => ⟨rfl, hv⟩⟩
        · exact absurd hgroup hno
  | missing htaken hno hnil hid =>
      rw [storeAppId_of_decodes hid]
      constructor
      · rintro ⟨rc, t, heq, hzero, -⟩
        cases heq
        exact absurd hnil (hzero.mp rfl)
      · rintro ⟨-, ⟨-, hgroup⟩ | ⟨-, qs, hqs, -⟩⟩
        · exact absurd hgroup hno
        · rw [hnil] at hqs
          cases hqs
  | broken _ hqs hall hzeroed =>
      obtain ⟨rmsg, hnew, hmessage⟩ := hzeroed
      have hret : (storeAppId env (Wire.written p.pieces)).run v = .undefined v := by
        rw [storeAppId, hnew, Prog.run_bind, Prog.ofOption_some, Prog.run_pure, Outcome.andThen_ret]
        dsimp only
        rw [hmessage]
        rfl
      rw [hret]
      constructor
      · rintro ⟨rc, t, heq, -⟩
        cases heq
      · rintro ⟨-, ⟨hnil, -⟩ | ⟨-, qs, -, hkeeps, hno, -⟩⟩
        · rw [hnil] at hqs
          cases hqs
        · exact absurd (hall qs hkeeps) hno
  | kept htaken hno hqs hkeeps hall =>
      have hne : p.apps ≠ [] := List.ne_nil_of_mem hqs
      rename_i qs
      obtain ⟨hplain, hid⟩ := hall qs hkeeps
      constructor
      · rintro ⟨rc, t, heq, -, hstored, -⟩
        rw [storeAppId_of_decodes hid] at heq
        cases heq
        exact ⟨htaken, .inr ⟨hno, qs, hqs, hkeeps, hplain, hstored hne⟩⟩
      · rintro ⟨-, ⟨hnil, -⟩ | ⟨-, qs', -, hkeeps', -, heq⟩⟩
        · exact absurd hnil hne
        · rw [storeAppId_of_decodes (hall qs' hkeeps').2]
          exact ⟨_, _, rfl, by simp [hne], fun _ => heq, fun hnil => absurd hnil hne⟩

/-- The steps of a call up to the payload. -/
private def askAndReceive : Prog Conn (Option (List UInt8) × ℤ × RpcResponse) := do
  let request ← generateNewAppRequest protocolEnv zeroLocals
  let rc ← sendRpcRequest protocolEnv zeroLocals request (sliceLen (request.getD []))
  let response ← recvRpcResponse protocolEnv zeroLocals
  pure (request, rc, response)

private theorem delivers_of_askAndReceive {payload : List UInt8} {n : BitVec 32}
    (h : ((askAndReceive.run s).value?.map fun (request, rc, response) =>
      (request.isSome, rc, response)) = some (true, 0, ⟨.succeed, some (payload, n)⟩)) :
    Delivers protocolEnv zeroLocals s payload := by
  obtain ⟨⟨request, rc, response⟩, hvalue, hparts⟩ := Option.map_eq_some_iff.mp h
  obtain ⟨w, hrun⟩ := Outcome.value?_eq_some.mp hvalue
  obtain ⟨request', t, hgen, hrest⟩ := Prog.bind_eq_ret.mp hrun
  obtain ⟨rc', u, hsend, hrest⟩ := Prog.bind_eq_ret.mp hrest
  obtain ⟨response', v, hrecv, hpure⟩ := Prog.bind_eq_ret.mp hrest
  obtain ⟨⟨rfl, rfl, rfl⟩, rfl⟩ :
      (request' = request ∧ rc' = rc ∧ response' = response) ∧ v = w := by simpa using hpure
  simp only [Prod.mk.injEq] at hparts
  obtain ⟨hsome, rfl, rfl⟩ := hparts
  obtain ⟨bytes, rfl⟩ := Option.isSome_iff_exists.mp hsome
  exact ⟨u, v, n, ⟨bytes, t, hgen, hsend⟩, hrecv⟩

/-- The bytes `0a 02 08 07`. -/
def appSeven : NewAppResponse where
  pieces := Wire.pieces (Wire.fields [(1, .lend [8, 7])])
  apps := [Wire.pieces (Wire.fields [(1, .varint 7)])]
  apps_eq := by decide
  capability := by
    have hnone : ∀ n ∈ [2, 3], bodies n
        (Wire.records (Wire.pieces (Wire.fields [(1, .lend [8, 7])]))) = [] := by decide
    intro n hn body hbody
    rw [hnone n hn] at hbody
    cases hbody

/-- The application of number seven. -/
theorem answersWith_seven : AnswersWith protocolEnv zeroLocals
    (answeredConn [4, 8, 0, 16, 0, 0, 0, 0, 4, 10, 2, 8, 7]) appSeven := by
  have hdelivers : Delivers protocolEnv zeroLocals
      (answeredConn [4, 8, 0, 16, 0, 0, 0, 0, 4, 10, 2, 8, 7]) (Wire.written appSeven.pieces) :=
    delivers_of_askAndReceive (n := 4) (by decide +kernel)
  have htaken : appSeven.TakenIn := by
    refine ⟨by decide, .inr ⟨by decide, fun n hn qs hqs => not_overfull ?_⟩⟩
    have hall : ∀ n ∈ [1, 2, 3], ∀ body ∈ bodies n (Wire.records appSeven.pieces),
        body.length ≤ recordsMax := by decide
    exact hall n hn _ hqs
  have hkeeps : appSeven.Keeps (Wire.pieces (Wire.fields [(1, .varint 7)])) :=
    ⟨⟨⟨1, .lend [8, 7], by decide, by decide⟩, 4⟩, rfl, rfl⟩
  exact (answersWith_iff protocolEnv_newAppResponseType rfl appSeven hdelivers).mpr
    ⟨htaken, .inr ⟨by decide, _, List.mem_singleton_self _, hkeeps, by decide, by decide⟩⟩

/-- The bytes `12 02 08 01`. -/
def memoryOne : NewAppResponse where
  pieces := Wire.pieces (Wire.fields [(2, .lend [8, 1])])
  apps := []
  apps_eq := by decide
  capability := by
    intro n hn body hbody
    have hall : ∀ n ∈ [2, 3], ∀ body ∈ bodies n
        (Wire.records (Wire.pieces (Wire.fields [(2, .lend [8, 1])]))), body = [8, 1] := by decide
    rw [hall n hn body hbody]
    exact ⟨Wire.pieces (Wire.fields [(1, .varint 1)]), by decide⟩

/-- A payload that only tells a capability gives a proxy the application zero. -/
theorem no_id_accepted : ¬ ∀ (env : Env) (l : Locals) (s : Conn) (p : NewAppResponse),
    NewAppResponseType env → s.proxy.app_id = -1 → Delivers env l s (Wire.written p.pieces) →
    AnswersWith env l s p := by
  intro hclaim
  have hdelivers : Delivers protocolEnv zeroLocals
      (answeredConn [4, 8, 0, 16, 0, 0, 0, 0, 4, 18, 2, 8, 1]) (Wire.written memoryOne.pieces) :=
    delivers_of_askAndReceive (n := 4) (by decide +kernel)
  have hvalue : ((getNewApp protocolEnv zeroLocals).run
      (answeredConn [4, 8, 0, 16, 0, 0, 0, 0, 4, 18, 2, 8, 1])).value? = some 0 := by
    decide +kernel
  obtain ⟨t, hrun⟩ := Outcome.value?_eq_some.mp hvalue
  obtain ⟨rc, u, hrun', hzero, -⟩ := hclaim _ _ _ memoryOne protocolEnv_newAppResponseType rfl
    hdelivers
  rw [hrun, Outcome.ret.injEq] at hrun'
  exact absurd rfl (hzero.mp hrun'.1.symm)

end HdClient
