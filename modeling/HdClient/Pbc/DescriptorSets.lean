-- SUMMARY: Reading sets of descriptor files: what the files of a set are, and that sets can be put one behind the other.
import Mathlib.Data.List.Forall2
import HdClient.Pbc.Reading
import HdClient.Pbc.Register

/-! # Sets of descriptor files

A serialized set is a sequence of records, so two sets one behind the other are
a set again. It is read as one, with the files of both. -/

namespace Pbc

/-! ## Buffers one behind the other -/

/-- The head of a buffer, as it is split off wherever the buffer starts and
whatever is behind it. -/
structure Splits (bs : List UInt8) (atom : ℕ → Atom) (len : ℕ) : Prop where
  run : ∀ rest start, wiretypeDecode (bs ++ rest) start = .ok (atom start, len)
  pos : 0 < len
  le : len ≤ bs.length
  wire_id : ∀ s t, (atom s).wire_id = (atom t).wire_id
  bounds : ∀ s, (atom s).isLend = true → ∃ lo hi, lo ≤ hi ∧ hi ≤ len ∧
    ∀ t, (atom t).x = BitVec.ofNat 32 (t + lo) ∧ (atom t).y = BitVec.ofNat 32 (t + hi)

private theorem kind_of_isLend {a : Atom} (h : a.isLend = true) : (a.wire_id &&& 7).toNat = 2 := by
  rw [of_decide_eq_true h]
  rfl

/-- The head of a buffer that is no length-delimited record says nothing of where it was. -/
private theorem Splits.of_fixed {bs : List UInt8} {a : Atom} {len : ℕ}
    (hkind : (a.wire_id &&& 7).toNat ≠ 2) (hpos : 0 < len) (hle : len ≤ bs.length)
    (hrun : ∀ rest start, wiretypeDecode (bs ++ rest) start = .ok (a, len)) :
    Splits bs (fun _ => a) len where
  run := hrun
  pos := hpos
  le := hle
  wire_id _ _ := rfl
  bounds _ hlend := absurd (kind_of_isLend hlend) hkind

/-- What is split off a buffer does not depend on what is behind it. -/
theorem wiretypeDecode_splits {bs : List UInt8} {start len : ℕ} {a : Atom}
    (h : wiretypeDecode bs start = .ok (a, len)) : ∃ atom, atom start = a ∧ Splits bs atom len := by
  unfold wiretypeDecode at h
  split at h
  · cases h
  · rename_i r tlen htag
    obtain ⟨htpos, htle⟩ := (decode_append htag []).2
    simp only at htpos htle
    have hdrop : ∀ rest, (bs ++ rest).drop tlen = bs.drop tlen ++ rest := fun rest =>
      List.drop_append_of_le_length htle
    have hcap : (bs.drop tlen).length = bs.length - tlen := List.length_drop
    split at h
    · cases h
    · rename_i hhi
      simp only at h
      -- one case for each wire type
      split at h
      · rename_i hwire
        split at h
        · cases h
        · rename_i v vlen hvalue
          have hvle := (decode_append hvalue []).2.2
          simp only at hvle
          cases h
          refine ⟨_, rfl, .of_fixed (by rw [hwire]; decide) (by omega) (by omega) fun rest s => ?_⟩
          simp only [wiretypeDecode, (decode_append htag rest).1, hdrop, hwire,
            (decode_append hvalue rest).1, if_neg hhi]
      · rename_i hwire
        split at h
        · cases h
        · rename_i hroom
          cases h
          refine ⟨_, rfl, .of_fixed (by rw [hwire]; decide) (by omega) (by omega) fun rest s => ?_⟩
          simp only [wiretypeDecode, (decode_append htag rest).1, hdrop, hwire, if_neg hhi]
          rw [if_neg (by rw [List.length_append]; omega), List.take_append_of_le_length (by omega),
            List.drop_append_of_le_length (by omega),
            List.take_append_of_le_length (by rw [List.length_drop]; omega)]
      · rename_i hwire
        split at h
        · cases h
        · rename_i v vlen hvalue
          have hvle := (decode_append hvalue []).2.2
          simp only at hvle
          split at h
          · cases h
          · rename_i hroom
            split at h
            · cases h
            · rename_i hwrap
              rw [not_or, Nat.not_lt, Nat.mod_eq_of_lt (Nat.not_le.mp hwrap)] at hroom
              cases h
              -- the bounds of the body move along with the buffer
              refine ⟨fun s => ⟨r.low, BitVec.ofNat 32 (s + tlen + vlen),
                BitVec.ofNat 32 (s + tlen + vlen + v.low.toNat)⟩, rfl, fun rest s => ?_, by omega,
                by omega, fun _ _ => rfl, fun s _ => ?_⟩
              · simp only [wiretypeDecode, (decode_append htag rest).1, hdrop, hwire,
                  (decode_append hvalue rest).1, if_neg hhi]
                rw [if_neg, if_neg hwrap]
                rw [not_or, Nat.not_lt, Nat.mod_eq_of_lt (Nat.not_le.mp hwrap), List.length_append]
                exact ⟨by omega, hroom.2⟩
              · exact ⟨tlen + vlen, tlen + vlen + v.low.toNat, Nat.le_add_right _ _, Nat.le_refl _,
                  fun t => by simp only [Nat.add_assoc, and_self]⟩
      · rename_i hwire
        split at h
        · cases h
        · rename_i hroom
          cases h
          refine ⟨_, rfl, .of_fixed (by rw [hwire]; decide) (by omega) (by omega) fun rest s => ?_⟩
          simp only [wiretypeDecode, (decode_append htag rest).1, hdrop, hwire, if_neg hhi]
          rw [if_neg (by rw [List.length_append]; omega), List.take_append_of_le_length (by omega)]
      · cases h

/-- Atoms of two buffers that say the same. -/
structure Atom.Alike (buffer buffer' : List UInt8) (a a' : Atom) : Prop where
  wire_id : a.wire_id = a'.wire_id
  slice : a.isLend = true → a.slice buffer = a'.slice buffer'

private theorem slice_inside {front bs back : List UInt8} {lo hi : ℕ} {a : Atom} (hlo : lo ≤ hi)
    (hhi : hi ≤ bs.length) (hfit : front.length + bs.length < 2 ^ 32)
    (hx : a.x = BitVec.ofNat 32 (front.length + lo))
    (hy : a.y = BitVec.ofNat 32 (front.length + hi)) :
    a.slice (front ++ (bs ++ back)) = (bs.drop lo).take (hi - lo) := by
  have hxn : a.x.toNat = front.length + lo := by
    rw [hx, BitVec.toNat_ofNat]
    omega
  have hyn : a.y.toNat = front.length + hi := by
    rw [hy, BitVec.toNat_ofNat]
    omega
  rw [Atom.slice, hxn, hyn, ← List.drop_drop, List.drop_left,
    List.drop_append_of_le_length (by omega), Nat.add_sub_add_left,
    List.take_append_of_le_length (by rw [List.length_drop]; omega)]

theorem Splits.alike {bs : List UInt8} {atom : ℕ → Atom} {len : ℕ} (h : Splits bs atom len)
    {front front' : List UInt8} (back back' : List UInt8)
    (hfit : front.length + bs.length < 2 ^ 32) (hfit' : front'.length + bs.length < 2 ^ 32) :
    Atom.Alike (front ++ (bs ++ back)) (front' ++ (bs ++ back')) (atom front.length)
      (atom front'.length) := by
  refine ⟨h.wire_id _ _, fun hlend => ?_⟩
  obtain ⟨lo, hi, hlo, hhi, hwords⟩ := h.bounds _ hlend
  have hle := h.le
  rw [slice_inside hlo (by omega) hfit (hwords _).1 (hwords _).2,
    slice_inside hlo (by omega) hfit' (hwords _).1 (hwords _).2]

@[simp] theorem openContext_nil (fuel start : ℕ) : openContext fuel [] start = .ok [] := by
  cases fuel <;> rfl

theorem Splits.ne_nil {bs : List UInt8} {atom : ℕ → Atom} {len : ℕ} (h : Splits bs atom len) :
    bs ≠ [] :=
  List.ne_nil_of_length_pos (Nat.lt_of_lt_of_le h.pos h.le)

theorem Splits.openContext {bs : List UInt8} {atom : ℕ → Atom} {len : ℕ} (h : Splits bs atom len)
    (rest : List UInt8) (fuel start : ℕ) :
    openContext (fuel + 1) (bs ++ rest) start = (do
      let as ← openContext fuel (bs.drop len ++ rest) (start + len)
      pure (atom start :: as)) := by
  rw [openContext_succ (List.append_ne_nil_of_left_ne_nil h.ne_nil rest), h.run]
  simp only [Res.ok_bind, List.drop_append_of_le_length h.le]

/-- What is split up is empty, or has a head and a rest. -/
theorem openContext_cases {bs : List UInt8} {fuel start : ℕ} {as : List Atom}
    (h : openContext fuel bs start = .ok as) :
    bs = [] ∧ as = [] ∨ ∃ k atom len as', fuel = k + 1 ∧ Splits bs atom len ∧
      as = atom start :: as' ∧ openContext k (bs.drop len) (start + len) = .ok as' := by
  by_cases hbs : bs = []
  · subst hbs
    rw [openContext_nil] at h
    cases h
    exact .inl ⟨rfl, rfl⟩
  · cases fuel with
    | zero =>
        obtain ⟨b, bs, rfl⟩ := List.exists_cons_of_ne_nil hbs
        cases h
    | succ k =>
        rw [openContext_succ hbs] at h
        obtain ⟨⟨a, len⟩, hdecode, h⟩ := Res.bind_eq_ok.mp h
        obtain ⟨as', hrest, h⟩ := Res.bind_eq_ok.mp h
        obtain ⟨atom, rfl, hsplits⟩ := wiretypeDecode_splits hdecode
        cases h
        exact .inr ⟨k, atom, len, as', rfl, hsplits, rfl, hrest⟩

/-- There are no more records than bytes. -/
theorem openContext_length {bs : List UInt8} {fuel start : ℕ} {as : List Atom}
    (h : openContext fuel bs start = .ok as) : as.length ≤ bs.length := by
  induction fuel generalizing bs start as with
  | zero =>
      rcases openContext_cases h with ⟨rfl, rfl⟩ | ⟨k, -, -, -, hk, -⟩
      · exact Nat.le_refl _
      · cases hk
  | succ fuel ih =>
      rcases openContext_cases h with ⟨rfl, rfl⟩ | ⟨k, atom, len, as', hk, hsplits, rfl, hrest⟩
      · exact Nat.le_refl _
      · cases hk
        have hpos := hsplits.pos
        have hle := hsplits.le
        have hlen := ih hrest
        rw [List.length_drop] at hlen
        rw [List.length_cons]
        omega

/-- A buffer that is split up, at the head of a longer one. -/
theorem openContext_append {bs : List UInt8} {fuel start : ℕ} {as : List Atom}
    (h : openContext fuel bs start = .ok as) (rest : List UInt8) {fuel' : ℕ}
    (hfuel : (bs ++ rest).length ≤ fuel') :
    ∃ k, rest.length ≤ k ∧ openContext fuel' (bs ++ rest) start = (do
      let as' ← openContext k rest (start + bs.length)
      pure (as ++ as')) := by
  induction fuel generalizing bs start as fuel' with
  | zero =>
      rcases openContext_cases h with ⟨rfl, rfl⟩ | ⟨k, -, -, -, hk, -⟩
      · refine ⟨fuel', hfuel, ?_⟩
        cases hrest : openContext fuel' rest start <;> simp [hrest]
      · cases hk
  | succ fuel ih =>
      rcases openContext_cases h with ⟨rfl, rfl⟩ | ⟨k, atom, len, as', hk, hsplits, rfl, hrest⟩
      · refine ⟨fuel', hfuel, ?_⟩
        cases hrest : openContext fuel' rest start <;> simp [hrest]
      · cases hk
        have hpos := hsplits.pos
        have hle := hsplits.le
        rw [List.length_append] at hfuel
        obtain ⟨fuel', rfl⟩ : ∃ n, fuel' = n + 1 := ⟨fuel' - 1, by omega⟩
        have hfuel' : (bs.drop len ++ rest).length ≤ fuel' := by
          rw [List.length_append, List.length_drop]
          omega
        obtain ⟨k, hk, hrun⟩ := ih hrest hfuel'
        refine ⟨k, hk, ?_⟩
        have hend : start + len + (bs.drop len).length = start + bs.length := by
          rw [List.length_drop]
          omega
        rw [hend] at hrun
        rw [hsplits.openContext, hrun]
        cases hbehind : openContext k rest (start + bs.length) <;> simp

/-- A buffer that is split up is split up the same way anywhere else. -/
theorem openContext_moved (front : List UInt8) {bs : List UInt8} {fuel : ℕ} {as : List Atom}
    (h : openContext fuel bs front.length = .ok as) (front' back back' : List UInt8)
    (hfit : front.length + bs.length < 2 ^ 32) (hfit' : front'.length + bs.length < 2 ^ 32) :
    ∃ as', (∀ k, bs.length ≤ k → openContext k bs front'.length = .ok as') ∧
      List.Forall₂ (Atom.Alike (front ++ (bs ++ back)) (front' ++ (bs ++ back'))) as as' := by
  induction fuel generalizing bs front front' as with
  | zero =>
      rcases openContext_cases h with ⟨rfl, rfl⟩ | ⟨k, -, -, -, hk, -⟩
      · exact ⟨[], fun k _ => openContext_nil k _, .nil⟩
      · cases hk
  | succ fuel ih =>
      rcases openContext_cases h with ⟨rfl, rfl⟩ | ⟨k, atom, len, as', hk, hsplits, rfl, hrest⟩
      · exact ⟨[], fun k _ => openContext_nil k _, .nil⟩
      · cases hk
        have hpos := hsplits.pos
        have hle := hsplits.le
        -- the bytes of the head belong to what is in front of the rest
        have hlen : ∀ f : List UInt8, (f ++ bs.take len).length = f.length + len := fun f => by
          rw [List.length_append, List.length_take_of_le hle]
        have hwhole : ∀ f b : List UInt8,
            f ++ bs.take len ++ (bs.drop len ++ b) = f ++ (bs ++ b) := fun f b => by
          rw [List.append_assoc, ← List.append_assoc (bs.take len), List.take_append_drop]
        rw [← hlen front] at hrest
        obtain ⟨as, hrun, halike⟩ := ih _ hrest (front' ++ bs.take len)
          (by rw [hlen, List.length_drop]; omega) (by rw [hlen, List.length_drop]; omega)
        rw [hwhole, hwhole] at halike
        refine ⟨atom front'.length :: as, fun k hk => ?_,
          .cons (hsplits.alike back back' hfit hfit') halike⟩
        obtain ⟨k, rfl⟩ : ∃ n, k = n + 1 := ⟨k - 1, by omega⟩
        have hhead := hsplits.openContext [] k front'.length
        rw [List.append_nil, List.append_nil, ← hlen front', hrun k (by
          rw [List.length_drop]
          omega)] at hhead
        rw [hhead]
        rfl

/-! ## Nested messages -/

section Extends

/-- What reads everything that `sub` reads, in the same way. -/
def Extends (sub sub' : Option ℕ → List UInt8 → Res RMessage) : Prop :=
  ∀ type bytes, sub type bytes ≠ .undefined → sub' type bytes = sub type bytes

/-- A field is read from one nested message at most. -/
private theorem reads_nested (sub sub' : Option ℕ → List UInt8 → Res RMessage) (f : Field)
    (a : Atom) (buffer : List UInt8) :
    (readValue sub' f a buffer = readValue sub f a buffer ∧
        readItem sub' f a buffer = readItem sub f a buffer) ∨
      ∃ type bytes,
        (sub type bytes = .undefined →
          readValue sub f a buffer = .undefined ∧ readItem sub f a buffer = .undefined) ∧
        (sub' type bytes = sub type bytes →
          readValue sub' f a buffer = readValue sub f a buffer ∧
          readItem sub' f a buffer = readItem sub f a buffer) := by
  unfold readValue readItem
  cases scalar f a with
  | some r => exact .inl ⟨rfl, rfl⟩
  | none =>
      cases f.type with
      | message =>
          cases a.isLend with
          | false => exact .inl ⟨rfl, rfl⟩
          | true =>
              cases f.type_name with
              | m type =>
                  refine .inr ⟨type, a.slice buffer, fun hundef => ?_, fun hsame => ?_⟩
                  · simp [hundef]
                  · simp [hsame]
              | n name => exact .inl ⟨rfl, rfl⟩
              | e enum => exact .inl ⟨rfl, rfl⟩
      | _ => exact .inl ⟨rfl, rfl⟩

variable {sub sub' : Option ℕ → List UInt8 → Res RMessage} (h : Extends sub sub')

include h

private theorem readValue_extends {f : Field} {a : Atom} {buffer : List UInt8}
    (hdef : readValue sub f a buffer ≠ .undefined) :
    readValue sub' f a buffer = readValue sub f a buffer := by
  rcases reads_nested sub sub' f a buffer with ⟨hvalue, -⟩ | ⟨type, bytes, hundef, hsame⟩
  · exact hvalue
  · exact (hsame (h type bytes fun hsub => hdef (hundef hsub).1)).1

private theorem readItem_extends {f : Field} {a : Atom} {buffer : List UInt8}
    (hdef : readItem sub f a buffer ≠ .undefined) :
    readItem sub' f a buffer = readItem sub f a buffer := by
  rcases reads_nested sub sub' f a buffer with ⟨-, hitem⟩ | ⟨type, bytes, hundef, hsame⟩
  · exact hitem
  · exact (hsame (h type bytes fun hsub => hdef (hundef hsub).2)).2

private theorem storeAtom_extends {m : Message} {index : MapSp (Value RMessage)} {a : Atom}
    {buffer : List UInt8} (hdef : storeAtom sub m index a buffer ≠ .undefined) :
    storeAtom sub' m index a buffer = storeAtom sub m index a buffer := by
  unfold storeAtom at *
  cases hf : m.queryId a.id with
  | none => rfl
  | some f =>
      simp only [hf] at hdef
      have hvalue : f.label ≠ .packed → f.label ≠ .repeated → readValue sub' f a buffer =
          readValue sub f a buffer := by
        intro hpacked hrepeated
        refine readValue_extends h fun hundef => hdef ?_
        cases hlabel : f.label <;> simp_all
      have hitem : f.label = .repeated → ∀ items,
          arrayItems ((index.queryInsert f.name).1.slot (index.queryInsert f.name).2).pointer =
            .ok items → readItem sub' f a buffer = readItem sub f a buffer := by
        intro hrepeated items hitems
        refine readItem_extends h fun hundef => hdef ?_
        simp [hrepeated, hitems, hundef]
      cases hlabel : f.label with
      | packed => simp only [hlabel]
      | repeated =>
          simp only [hlabel]
          cases hitems : arrayItems
              ((index.queryInsert f.name).1.slot (index.queryInsert f.name).2).pointer with
          | ok items => rw [Res.ok_bind, Res.ok_bind, hitem hlabel items hitems]
          | null => rfl
          | undefined => rfl
      | _ => simp only [hlabel, hvalue (by simp [hlabel]) (by simp [hlabel])]

private theorem storeAtoms_extends {m : Message} {buffer : List UInt8} {as : List Atom}
    {index : MapSp (Value RMessage)} (hdef : storeAtoms sub m buffer index as ≠ .undefined) :
    storeAtoms sub' m buffer index as = storeAtoms sub m buffer index as := by
  induction as generalizing index with
  | nil => rfl
  | cons a as ih =>
      rw [storeAtoms] at hdef
      rw [storeAtoms, storeAtoms]
      have hhead : storeAtom sub' m index a buffer = storeAtom sub m index a buffer :=
        storeAtom_extends h fun hundef => hdef (by rw [hundef]; rfl)
      rw [hhead]
      cases hstore : storeAtom sub m index a buffer with
      | ok index' =>
          rw [hstore, Res.ok_bind] at hdef
          rw [Res.ok_bind, Res.ok_bind, ih hdef]
      | null => rfl
      | undefined => rfl

end Extends

/-- A message that is read is read the same way however deeply it could be nested. -/
theorem rmessageNewAux_extends (env : Env) {fuel fuel' : ℕ} (hle : fuel ≤ fuel') :
    Extends (rmessageNewAux env fuel) (rmessageNewAux env fuel') := by
  induction fuel generalizing fuel' with
  | zero => exact fun type bytes hdef => absurd rfl hdef
  | succ fuel ih =>
      obtain ⟨fuel', rfl⟩ : ∃ n, fuel' = n + 1 := ⟨fuel' - 1, by omega⟩
      intro type bytes hdef
      unfold rmessageNewAux at *
      by_cases hbytes : bytes = []
      · rw [if_pos hbytes, if_pos hbytes]
      · rw [if_neg hbytes] at hdef
        rw [if_neg hbytes, if_neg hbytes]
        cases hm : type.bind fun i => env.messages[i]? with
        | none => rfl
        | some m =>
            rw [hm] at hdef
            simp only at hdef ⊢
            cases hopen : openContext bytes.length bytes 0 with
            | ok as =>
                rw [hopen, Res.ok_bind] at hdef
                rw [Res.ok_bind, Res.ok_bind]
                by_cases hmany : recordsMax < as.length
                · rw [if_pos hmany, if_pos hmany]
                rw [if_neg hmany] at hdef
                rw [if_neg hmany, if_neg hmany]
                have hstore : storeAtoms (rmessageNewAux env fuel') m bytes
                    (MapSp.new as.length) as = storeAtoms (rmessageNewAux env fuel) m bytes
                    (MapSp.new as.length) as :=
                  storeAtoms_extends (ih (Nat.le_of_succ_le_succ hle))
                    fun hundef => hdef (by rw [hundef]; rfl)
                rw [hstore]
            | null => rfl
            | undefined => rfl

/-- What is read as a message of a type is one. -/
def Typed (sub : Option ℕ → List UInt8 → Res RMessage) : Prop :=
  ∀ {t : ℕ} {bytes : List UInt8} {r : RMessage}, sub (some t) bytes = .ok r → r.msg = some t

theorem rmessageNewAux_typed (env : Env) (fuel : ℕ) : Typed (rmessageNewAux env fuel) := by
  intro t bytes r h
  cases fuel with
  | zero => cases h
  | succ fuel =>
      unfold rmessageNewAux at h
      by_cases hbytes : bytes = []
      · rw [if_pos hbytes] at h
        cases h
        rfl
      · rw [if_neg hbytes, Option.bind_some] at h
        split at h
        · cases h
        · obtain ⟨as, -, h⟩ := Res.bind_eq_ok.mp h
          split at h
          · cases h
          · obtain ⟨index, -, h⟩ := Res.bind_eq_ok.mp h
            cases h
            rfl

/-! ## The files of a set -/

/-- The type of sets: it has one field, for files of the type at `j`. -/
structure SetType (p : Env) (i : ℕ) (m : Message) (f : Field) (j : ℕ) : Prop where
  get : getMessage p (lit "google.protobuf.FileDescriptorSet") = some (some i)
  message : p.messages[i]? = some m
  file : m.queryId 1 = some f
  only : ∀ k, k ≠ 1 → m.queryId k = none
  name_eq : f.name = lit "file"
  label_eq : f.label = .repeated
  type_eq : f.type = .message
  type_name_eq : f.type_name = .m (some j)

/-- What is stored for `files`; without any, there is a key at most. -/
def filesValue (f : Field) (files : List RMessage) : Option (Value RMessage) :=
  if files = [] then none else some ⟨f, .array (files.map .message)⟩

/-- A table with `files` under the name of a field. -/
structure HoldsFiles (f : Field) (index : MapSp (Value RMessage)) (files : List RMessage) :
    Prop where
  wf : index.WF
  entry : files = [] ∧ (∀ v, (f.name, v) ∉ index.entries) ∨
    ∃ rest, index.entries.Perm ((f.name, filesValue f files) :: rest) ∧ ∀ v, (f.name, v) ∉ rest

theorem HoldsFiles.query {f : Field} {index : MapSp (Value RMessage)} {files : List RMessage}
    (h : HoldsFiles f index files) (hhash : calcHash f.name ≠ 0) :
    index.query f.name = some (filesValue f files) := by
  rcases h.entry with ⟨rfl, hno⟩ | ⟨rest, hperm, hrest⟩
  · exact ChainTable.query_of_absent h.wf hhash hno
  · refine ChainTable.query_of_unique h.wf hhash (hperm.symm.subset List.mem_cons_self)
      fun w hw => ?_
    rcases List.mem_cons.mp (hperm.subset hw) with heq | hw
    · exact (Prod.mk.inj heq).2
    · exact absurd hw (hrest w)

private theorem arrayItems_files (f : Field) (files : List RMessage) :
    arrayItems (filesValue f files) = .ok (files.map .message) := by
  unfold filesValue
  split
  · rename_i hnil
    rw [hnil]
    rfl
  · rfl

/-- The slot that elements are added to has what was read so far, and takes what
is read next. -/
private theorem HoldsFiles.slot {f : Field} {index : MapSp (Value RMessage)}
    {files : List RMessage} (h : HoldsFiles f index files) :
    arrayItems ((index.queryInsert f.name).1.slot (index.queryInsert f.name).2).pointer =
        .ok (files.map .message) ∧
      ∀ files', HoldsFiles f ((index.queryInsert f.name).1.setPointer (index.queryInsert f.name).2
        (filesValue f files')) files' := by
  have hkept : ∃ rest, (index.queryInsert f.name).1.WF ∧
      ((index.queryInsert f.name).1.slot (index.queryInsert f.name).2).key = some f.name ∧
      (index.queryInsert f.name).1.entries.Perm ((f.name, filesValue f files) :: rest) ∧
      ∀ v, (f.name, v) ∉ rest := by
    rcases ChainTable.queryInsert_spec h.wf f.name with ⟨hsame, hkey⟩ | ⟨hno, hplaced⟩
    · have hmem := ChainTable.mem_entries.mpr ⟨_, hkey, rfl⟩
      unfold MapSp.queryInsert
      rw [hsame]
      rcases h.entry with ⟨-, hno⟩ | ⟨rest, hperm, hrest⟩
      · exact absurd hmem (hno _)
      · exact ⟨rest, h.wf, hkey, hperm, hrest⟩
    · rcases h.entry with ⟨rfl, -⟩ | ⟨rest, hperm, -⟩
      · exact ⟨_, hplaced.wf, hplaced.key_eq, hplaced.entries, hno⟩
      · exact absurd (hperm.symm.subset List.mem_cons_self) (hno _)
  generalize index.queryInsert f.name = u at *
  obtain ⟨rest, hwf, hkey, hperm, hrest⟩ := hkept
  have hpointer : (u.1.slot u.2).pointer = filesValue f files := by
    rcases List.mem_cons.mp (hperm.subset (ChainTable.mem_entries.mpr ⟨_, hkey, rfl⟩)) with heq | hmem
    · exact (Prod.mk.inj heq).2
    · exact absurd hmem (hrest _)
  refine ⟨by rw [hpointer, arrayItems_files], fun files' => ?_⟩
  obtain ⟨hwf', rest', hold, hnew⟩ := ChainTable.setPointer_spec hwf hkey (filesValue f files')
  rw [hpointer] at hold
  have hsame : rest'.Perm rest := (hold.symm.trans hperm).cons_inv
  exact ⟨hwf', .inr ⟨rest', hnew, fun v hv => hrest v (hsame.subset hv)⟩⟩

/-- The files that are read from one atom; undefined where reading one is. -/
def atomFiles (sub : Option ℕ → List UInt8 → Res RMessage) (j : ℕ) (buffer : List UInt8)
    (a : Atom) : Option (List RMessage) :=
  if a.id = 1 ∧ a.isLend = true then
    match sub (some j) (a.slice buffer) with
    | .ok file => some [file]
    | .null => some []
    | .undefined => none
  else some []

/-- The files that are read from the atoms of a set. -/
def atomsFiles (sub : Option ℕ → List UInt8 → Res RMessage) (j : ℕ) (buffer : List UInt8) :
    List Atom → Option (List RMessage)
  | [] => some []
  | a :: as => do
      let files ← atomFiles sub j buffer a
      let rest ← atomsFiles sub j buffer as
      pure (files ++ rest)

section Files

variable {p : Env} {i j : ℕ} {m : Message} {f : Field}

/-- One atom adds its files to those of the table. -/
theorem storeAtom_files {sub : Option ℕ → List UInt8 → Res RMessage} (hsub : Typed sub)
    (buffer : List UInt8) (hset : SetType p i m f j) {index : MapSp (Value RMessage)}
    {files : List RMessage} (h : HoldsFiles f index files) (a : Atom) :
    (atomFiles sub j buffer a = none ∧ storeAtom sub m index a buffer = .undefined) ∨
      ∃ new index', atomFiles sub j buffer a = some new ∧
        storeAtom sub m index a buffer = .ok index' ∧ HoldsFiles f index' (files ++ new) := by
  unfold storeAtom atomFiles
  by_cases hid : a.id = 1
  · rw [hid, hset.file]
    obtain ⟨hitems, hstored⟩ := h.slot
    have hread : readItem sub f a buffer =
        if a.isLend then (do pure (.message (← sub (some j) (a.slice buffer)))) else .null := by
      simp only [readItem, scalar, hset.type_eq, hset.type_name_eq]
      cases hfile : sub (some j) (a.slice buffer) with
      | ok file => simp [hsub hfile]
      | null => rfl
      | undefined => rfl
    have hkeep : (if files.map Item.message = [] then none
        else some ⟨f, .array (files.map Item.message)⟩) = filesValue f files := by
      simp [filesValue]
    simp only [hset.label_eq, hitems, Res.ok_bind, hread, true_and]
    cases hlend : a.isLend with
    | false =>
        refine .inr ⟨[], _, rfl, rfl, ?_⟩
        rw [List.append_nil, hkeep]
        exact hstored files
    | true =>
        simp only [if_true]
        cases hfile : sub (some j) (a.slice buffer) with
        | undefined => exact .inl ⟨rfl, rfl⟩
        | null =>
            refine .inr ⟨[], _, rfl, rfl, ?_⟩
            rw [List.append_nil, hkeep]
            exact hstored files
        | ok file =>
            refine .inr ⟨[file], _, rfl, rfl, ?_⟩
            have hvalue : some ⟨f, .array (files.map Item.message ++ [.message file])⟩ =
                filesValue f (files ++ [file]) := by
              simp [filesValue]
            rw [hvalue]
            exact hstored _
  · rw [hset.only _ hid]
    simp only [hid, false_and, if_false]
    exact .inr ⟨[], index, rfl, rfl, by rwa [List.append_nil]⟩

theorem storeAtoms_files {sub : Option ℕ → List UInt8 → Res RMessage} (hsub : Typed sub)
    (buffer : List UInt8) (hset : SetType p i m f j) {index : MapSp (Value RMessage)}
    {files : List RMessage} (h : HoldsFiles f index files) (as : List Atom) :
    (atomsFiles sub j buffer as = none ∧ storeAtoms sub m buffer index as = .undefined) ∨
      ∃ new index', atomsFiles sub j buffer as = some new ∧
        storeAtoms sub m buffer index as = .ok index' ∧ HoldsFiles f index' (files ++ new) := by
  induction as generalizing index files with
  | nil => exact .inr ⟨[], index, rfl, rfl, by rwa [List.append_nil]⟩
  | cons a as ih =>
      rw [atomsFiles, storeAtoms]
      rcases storeAtom_files hsub buffer hset h a with
        ⟨hnone, hundef⟩ | ⟨new, index', hnew, hstore, hholds⟩
      · rw [hnone, hundef]
        exact .inl ⟨rfl, rfl⟩
      · rw [hnew, hstore]
        rcases ih hholds with ⟨hnone, hundef⟩ | ⟨rest, index'', hrest, hstore', hholds'⟩
        · refine .inl ⟨?_, by rw [Res.ok_bind, hundef]⟩
          simp [hnone]
        · refine .inr ⟨new ++ rest, index'', ?_, by rw [Res.ok_bind, hstore'], ?_⟩
          · simp [hrest]
          · rwa [← List.append_assoc]

end Files

/-- What `pbc_register` opens of a serialized set: its files. -/
def openSet (p : Env) (slice : List UInt8) : Option (List RMessage) := do
  match ← rmessageNew p (lit "google.protobuf.FileDescriptorSet") slice with
  | .error _ => none
  | .ok message => do
      let n ← rmessageSize message (lit "file")
      let files ← openFiles p message (List.range n)
      files

private theorem openFiles_length {p : Env} {message : RMessage} {is : List ℕ}
    {files : List RMessage} (h : openFiles p message is = some (some files)) :
    files.length = is.length := by
  induction is generalizing files with
  | nil =>
      cases h
      rfl
  | cons i is ih =>
      unfold openFiles at h
      cases hfile : rmessageMessage p message (lit "file") i with
      | ok file =>
          rw [hfile] at h
          obtain ⟨opened, hopened, hpure⟩ := Option.bind_eq_some_iff.mp h
          obtain ⟨rest, rfl, rfl⟩ := Option.map_eq_some_iff.mp (Option.some.inj hpure)
          rw [List.length_cons, List.length_cons, ih hopened]
      | null =>
          rw [hfile] at h
          cases h
      | undefined =>
          rw [hfile] at h
          cases h

/-- A set that can be opened is registered, unless it is empty. -/
theorem pbcRegister_of_openSet {p : Env} {slice : List UInt8} {files : List RMessage}
    (h : openSet p slice = some files) (hne : files ≠ []) :
    pbcRegister p slice =
      (registerPasses slice.length (files.length + 1) (files.map some) files.length p).map
        fun r => (r.1, r.2.release) := by
  unfold openSet at h
  obtain ⟨r, hnew, h⟩ := Option.bind_eq_some_iff.mp h
  cases r with
  | error e => cases h
  | ok message =>
      obtain ⟨n, hn, h⟩ := Option.bind_eq_some_iff.mp h
      obtain ⟨opened, hopened, rfl⟩ := Option.bind_eq_some_iff.mp h
      have hlen := openFiles_length hopened
      rw [List.length_range] at hlen
      have hpos : ¬ n = 0 := fun hzero => hne (List.length_eq_zero_iff.mp (hlen.trans hzero))
      unfold pbcRegister
      simp only [Option.bind_eq_bind, hnew, Option.bind_some, hn, if_neg hpos, hopened, hlen,
        Option.map_eq_bind]
      rfl

private theorem hash_file : calcHash (lit "file") ≠ 0 := by decide

private theorem openFiles_eq {p : Env} {f : Field} {files : List RMessage} {message : RMessage}
    (hquery : message.query (lit "file") = some (filesValue f files)) (hlabel : f.label = .repeated)
    {is : List ℕ} (his : ∀ i ∈ is, i < files.length) :
    openFiles p message is = some (some (is.filterMap (files[·]?))) := by
  induction is with
  | nil => rfl
  | cons i is ih =>
      have hi : i < files.length := his i List.mem_cons_self
      have hfile : rmessageMessage p message (lit "file") i = .ok files[i] := by
        have hne : files ≠ [] := List.ne_nil_of_length_pos (Nat.zero_lt_of_lt hi)
        unfold rmessageMessage
        rw [hquery, filesValue, if_neg hne]
        simp [hlabel, hi]
      unfold openFiles
      rw [hfile, ih fun k hk => his k (List.mem_cons_of_mem _ hk)]
      simp [hi]

private theorem rmessageSize_files {f : Field} {files : List RMessage} {message : RMessage}
    (hquery : message.query (lit "file") = some (filesValue f files))
    (hlabel : f.label = .repeated) : rmessageSize message (lit "file") = some files.length := by
  unfold rmessageSize
  rw [hquery]
  by_cases hnil : files = []
  · simp [hnil, filesValue]
  · simp [hnil, filesValue, hlabel]

private theorem filterMap_range (files : List RMessage) :
    (List.range files.length).filterMap (files[·]?) = files := by
  induction files with
  | nil => rfl
  | cons file files ih =>
      have hfirst : (file :: files)[0]? = some file := rfl
      rw [List.length_cons, List.range_succ_eq_map, List.filterMap_cons_some hfirst,
        List.filterMap_map]
      exact congrArg (file :: ·) ih

section OpenSet

variable {p : Env} {i j : ℕ} {m : Message} {f : Field} (hset : SetType p i m f j)

include hset

/-- The files of a message whose values are those of `files`. -/
private theorem openSet_of_message {slice : List UInt8} (hheap : slice.length ≤ heapMax)
    {files : List RMessage} {index : MapSp (Value RMessage)} (hindex : HoldsFiles f index files)
    (hread : rmessageNewAux p (slice.length + 1) (some i) slice = .ok (.mk (some i) (some index))) :
    openSet p slice = some files := by
  have hquery : (RMessage.mk (some i) (some index)).query (lit "file") =
      some (filesValue f files) := by
    have hhash : calcHash f.name ≠ 0 := by
      rw [hset.name_eq]
      exact hash_file
    exact hset.name_eq ▸ hindex.query hhash
  unfold openSet rmessageNew
  simp only [Option.bind_eq_bind, hset.get, Option.bind_some, if_neg (Nat.not_lt.mpr hheap), hread,
    Option.pure_def, rmessageSize_files hquery hset.label_eq]
  rw [openFiles_eq hquery hset.label_eq fun i hi => List.mem_range.mp hi, Option.bind_some,
    filterMap_range]

/-- The files of a set are those of its atoms, of which there are not too many. -/
theorem openSet_eq_some {slice : List UInt8} {files : List RMessage} :
    openSet p slice = some files ↔ slice.length ≤ heapMax ∧
      ∃ as, openContext slice.length slice 0 = .ok as ∧ as.length ≤ recordsMax ∧
        atomsFiles (rmessageNewAux p slice.length) j slice as = some files := by
  by_cases hheap : slice.length ≤ heapMax
  case neg =>
    have hno : openSet p slice = none := by
      unfold openSet rmessageNew
      simp [hset.get, Nat.lt_of_not_le hheap]
    simp [hno, hheap]
  simp only [hheap, true_and]
  by_cases hslice : slice = []
  · subst hslice
    have hempty : openSet p [] = some [] :=
      openSet_of_message hset hheap ⟨MapSp.wf_new 0, .inl ⟨rfl, by simp⟩⟩ rfl
    rw [hempty, openContext_nil]
    simp [atomsFiles]
  · have hread : rmessageNewAux p (slice.length + 1) (some i) slice = (do
        let as ← openContext slice.length slice 0
        if recordsMax < as.length then .undefined
        else do
          let index ← storeAtoms (rmessageNewAux p slice.length) m slice (MapSp.new as.length) as
          pure (.mk (some i) (some index))) := by
      rw [rmessageNewAux, if_neg hslice]
      simp only [Option.bind_some, hset.message]
    have hnone : ∀ r, rmessageNewAux p (slice.length + 1) (some i) slice = r →
        (∀ message, r ≠ .ok message) → openSet p slice = none := by
      intro r hr hno
      unfold openSet rmessageNew
      cases r with
      | ok message => exact absurd rfl (hno message)
      | null => simp [hset.get, hr, hheap]
      | undefined => simp [hset.get, hr]
    cases hopen : openContext slice.length slice 0 with
    | ok as =>
        have hstart : HoldsFiles f (MapSp.new as.length) [] :=
          ⟨MapSp.wf_new _, .inl ⟨rfl, by simp⟩⟩
        rw [hopen, Res.ok_bind] at hread
        by_cases hmany : recordsMax < as.length
        · rw [if_pos hmany] at hread
          simp [hnone _ hread, Nat.not_le.mpr hmany]
        rw [if_neg hmany] at hread
        rcases storeAtoms_files (rmessageNewAux_typed p slice.length) slice hset hstart as with
          ⟨hnofiles, hundef⟩ | ⟨new, index, hnew, hstore, hholds⟩
        · rw [hundef, Res.undefined_bind] at hread
          simp [hnone _ hread, hnofiles]
        · rw [hstore, Res.ok_bind] at hread
          rw [openSet_of_message hset hheap hholds hread]
          simp [hnew, Nat.le_of_not_lt hmany]
    | null =>
        rw [hopen, Res.null_bind] at hread
        simp [hnone _ hread]
    | undefined =>
        rw [hopen, Res.undefined_bind] at hread
        simp [hnone _ hread]

omit hset in
theorem atomsFiles_append {sub : Option ℕ → List UInt8 → Res RMessage} {buffer : List UInt8}
    {as as' : List Atom} {files files' : List RMessage}
    (h : atomsFiles sub j buffer as = some files) (h' : atomsFiles sub j buffer as' = some files') :
    atomsFiles sub j buffer (as ++ as') = some (files ++ files') := by
  induction as generalizing files with
  | nil =>
      cases h
      exact h'
  | cons a as ih =>
      rw [atomsFiles] at h
      obtain ⟨new, hnew, h⟩ := Option.bind_eq_some_iff.mp h
      obtain ⟨rest, hrest, hpure⟩ := Option.bind_eq_some_iff.mp h
      cases hpure
      rw [List.cons_append, atomsFiles, hnew, List.append_assoc]
      simp [ih hrest]

omit hset in
/-- Alike atoms have the same files, and so they have where messages can be nested deeper. -/
theorem atomsFiles_alike {sub sub' : Option ℕ → List UInt8 → Res RMessage}
    {buffer buffer' : List UInt8} {as as' : List Atom} {files : List RMessage}
    (hsub : Extends sub sub') (halike : List.Forall₂ (Atom.Alike buffer buffer') as as')
    (h : atomsFiles sub j buffer as = some files) :
    atomsFiles sub' j buffer' as' = some files := by
  induction halike generalizing files with
  | nil => exact h
  | @cons a a' as as' ha _ ih =>
      rw [atomsFiles] at h
      obtain ⟨new, hnew, h⟩ := Option.bind_eq_some_iff.mp h
      obtain ⟨rest, hrest, hpure⟩ := Option.bind_eq_some_iff.mp h
      cases hpure
      have hhead : atomFiles sub' j buffer' a' = some new := by
        have hid : a'.id = a.id := by rw [Atom.id, Atom.id, ha.wire_id]
        have hlend : a'.isLend = a.isLend := by rw [Atom.isLend, Atom.isLend, ha.wire_id]
        rw [← hnew]
        unfold atomFiles
        rw [hid, hlend]
        split
        · rename_i hfile
          rw [← ha.slice hfile.2, hsub]
          intro hundef
          simp [atomFiles, hfile, hundef] at hnew
        · rfl
      rw [atomsFiles, hhead, ih hrest]
      rfl

/-- Two sets, one behind the other, are the set of the files of both. -/
theorem openSet_append {slice slice' : List UInt8} {files files' : List RMessage}
    (h : openSet p slice = some files) (h' : openSet p slice' = some files')
    (hfit : (slice ++ slice').length ≤ recordsMax) :
    openSet p (slice ++ slice') = some (files ++ files') := by
  obtain ⟨-, as, hopen, -, hfiles⟩ := (openSet_eq_some hset).mp h
  obtain ⟨-, as', hopen', -, hfiles'⟩ := (openSet_eq_some hset).mp h'
  have hlen : (slice ++ slice').length = slice.length + slice'.length := List.length_append
  have hrecords : recordsMax = 2 ^ 25 := rfl
  have hheap : recordsMax ≤ heapMax := by decide
  obtain ⟨k, hk, hrun⟩ := openContext_append hopen slice' (Nat.le_refl _)
  -- the first set is read where it was, the second one behind it
  obtain ⟨bs, hbs, halike⟩ := openContext_moved [] hopen [] [] slice'
    (by simp; omega) (by simp; omega)
  obtain ⟨bs', hbs', halike'⟩ := openContext_moved [] hopen' slice [] []
    (by simp; omega) (by omega)
  have hsame : bs = as := by
    have := hbs slice.length (Nat.le_refl _)
    rw [List.length_nil, hopen] at this
    cases this
    rfl
  subst hsame
  rw [Nat.zero_add, hbs' k hk] at hrun
  have hdeeper := rmessageNewAux_extends p (by omega : slice.length ≤ (slice ++ slice').length)
  have hdeeper' := rmessageNewAux_extends p (by omega : slice'.length ≤ (slice ++ slice').length)
  refine (openSet_eq_some hset).mpr ⟨Nat.le_trans hfit hheap, bs ++ bs', hrun,
    Nat.le_trans (openContext_length hrun) hfit, atomsFiles_append ?_ ?_⟩
  · refine atomsFiles_alike hdeeper ?_ hfiles
    simpa using halike
  · refine atomsFiles_alike hdeeper' ?_ hfiles'
    simpa using halike'

end OpenSet

end Pbc
