-- SUMMARY: What reading any buffer as a message of any type leaves under the name of each field, and what the accessors show of it.
import HdClient.Pbc.Numbers
import HdClient.Pbc.Registry

/-! # The contents of a message

Whatever buffer is read, the index holds for each field what its atoms make, in
the order they are in; and the accessors show just that. -/

namespace Pbc

/-! ## Types of messages that can be read -/

/-- A message type whose fields have different names and are not packed. -/
structure Message.Unpacked (m : Message) : Prop where
  id_eq : ∀ i f, m.queryId i = some f → f.id = i
  name : ∀ i j f g, m.queryId i = some f → m.queryId j = some g → f.name = g.name → i = j
  label : ∀ i f, m.queryId i = some f → f.label ≠ .packed

/-- The field is the one of its number. -/
def Message.Files (m : Message) (f : Field) : Prop := m.queryId f.id = some f

/-- A type of which the fields can be told apart, written and found again. -/
structure Message.Regular (m : Message) : Prop where
  ids : (m.fields.map Field.id).Nodup
  names : (m.fields.map Field.name).Nodup
  -- the number of a field is read from a tag with a sign
  number : ∀ f ∈ m.fields, 0 < f.id ∧ f.id < 2 ^ 28
  label : ∀ f ∈ m.fields, f.label ≠ .packed
  hash : ∀ f ∈ m.fields, calcHash f.name ≠ 0

instance (m : Message) : Decidable m.Regular :=
  decidable_of_iff ((m.fields.map Field.id).Nodup ∧ (m.fields.map Field.name).Nodup ∧
      (∀ f ∈ m.fields, 0 < f.id ∧ f.id < 2 ^ 28) ∧ (∀ f ∈ m.fields, f.label ≠ .packed) ∧
      ∀ f ∈ m.fields, calcHash f.name ≠ 0)
    ⟨fun ⟨h₁, h₂, h₃, h₄, h₅⟩ => ⟨h₁, h₂, h₃, h₄, h₅⟩, fun ⟨h₁, h₂, h₃, h₄, h₅⟩ => ⟨h₁, h₂, h₃, h₄, h₅⟩⟩

section Types

variable {env : Env} {m : Message} {key : CStr} {f : Field}

theorem Message.mem_of_queryName (h : m.queryName key = some (some f)) : f ∈ m.fields := by
  obtain ⟨p, -, hp⟩ := Option.map_eq_some_iff.mp h
  obtain ⟨i, -, hi⟩ := Option.bind_eq_some_iff.mp hp
  exact List.mem_of_getElem? hi

theorem Message.Regular.files (h : m.Regular) (hreg : Registries env) (hm : m ∈ env.messages)
    (hf : f ∈ m.fields) : m.Files f := (hreg.queryId_iff hm h.ids).mpr ⟨hf, rfl⟩

theorem Message.Regular.unpacked (h : m.Regular) (hreg : Registries env)
    (hm : m ∈ env.messages) : m.Unpacked where
  id_eq i f hf := ((hreg.queryId_iff hm h.ids).mp hf).2
  name i j f g hf hg hname := by
    obtain ⟨hfmem, rfl⟩ := (hreg.queryId_iff hm h.ids).mp hf
    obtain ⟨hgmem, rfl⟩ := (hreg.queryId_iff hm h.ids).mp hg
    rw [List.inj_on_of_nodup_map h.names hfmem hgmem hname]
  label i f hf := h.label f ((hreg.queryId_iff hm h.ids).mp hf).1

end Types

section Contents

-- Reads a nested message, as in the definitions this is about.
variable (sub : Option ℕ → List UInt8 → Res RMessage)

/-! ## What atoms make -/

/-- The value of a field that is not repeated, as an element. -/
def Cell.item : Cell RMessage → Option (Item RMessage)
  | .var x => some (.var x)
  | .message r => some (.message r)
  | .array _ => none

/-- What one atom adds to the contents of a field. -/
def atomItem (f : Field) (buffer : List UInt8) (a : Atom) : Option (Item RMessage) :=
  if f.label = .repeated then
    match readItem sub f a buffer with
    | .ok item => some item
    | _ => none
  else match readValue sub f a buffer with
    | .ok v => v.item
    | _ => none

/-- The contents of a field: what its atoms make, in order. -/
def contents (f : Field) (buffer : List UInt8) (as : List Atom) : List (Item RMessage) :=
  (as.filter (·.id = f.id)).filterMap (atomItem sub f buffer)

@[simp] theorem contents_nil (f : Field) (buffer : List UInt8) : contents sub f buffer [] = [] := rfl

theorem contents_concat (f : Field) (buffer : List UInt8) (as : List Atom) (a : Atom) :
    contents sub f buffer (as ++ [a]) = contents sub f buffer as ++
      if a.id = f.id then (atomItem sub f buffer a).toList else [] := by
  rw [contents, List.filter_append, List.filterMap_append, contents]
  congr 1
  by_cases h : a.id = f.id
  · cases hitem : atomItem sub f buffer a <;> simp [h, hitem]
  · simp [h]

/-! ## What the index holds -/

/-- The value that is stored for the elements of a repeated field. -/
def arrayValue (f : Field) (items : List (Item RMessage)) : Option (Value RMessage) :=
  if items = [] then none else some ⟨f, .array items⟩

/-- The value of a field that is not repeated. -/
def itemValue (f : Field) : Item RMessage → Option (Value RMessage)
  | .var x => some ⟨f, .var x⟩
  | .message r => some ⟨f, .message r⟩

/-- The pointers under the name of a field when the atoms `as` have been filed. -/
def heldFor (f : Field) (buffer : List UInt8) (as : List Atom) : List (Option (Value RMessage)) :=
  if f.label = .repeated then
    if as.any (·.id = f.id) then [arrayValue f (contents sub f buffer as)] else []
  else (contents sub f buffer as).map (itemValue f)

/-- The index when the atoms `as` have been filed. -/
structure Holds (m : Message) (buffer : List UInt8) (index : MapSp (Value RMessage))
    (as : List Atom) : Prop where
  wf : index.WF
  values : ∀ f, m.Files f → (index.valuesAt f.name).Perm (heldFor sub f buffer as)
  keys : ∀ k v, (k, v) ∈ index.entries → ∃ f, m.Files f ∧ f.name = k

variable {sub} {m : Message} {index index' : MapSp (Value RMessage)} {buffer : List UInt8}
  {as : List Atom} {a : Atom} {f g : Field}

theorem Message.Unpacked.files (h : m.Unpacked) {i : ℤ} (hf : m.queryId i = some f) :
    m.Files f := by
  rw [Message.Files, h.id_eq i f hf]
  exact hf

theorem Message.Unpacked.eq_of_name (h : m.Unpacked) (hf : m.Files f) (hg : m.Files g)
    (hname : f.name = g.name) : f = g := by
  have hid := h.name _ _ f g hf hg hname
  rw [Message.Files, hid, hg] at hf
  exact (Option.some.inj hf).symm

/-- An atom of another field changes nothing. -/
theorem heldFor_other (h : a.id ≠ f.id) :
    heldFor sub f buffer (as ++ [a]) = heldFor sub f buffer as := by
  have hcontents : contents sub f buffer (as ++ [a]) = contents sub f buffer as := by
    rw [contents_concat, if_neg h, List.append_nil]
  have hany : (as ++ [a]).any (·.id = f.id) = as.any (·.id = f.id) := by simp [h]
  rw [heldFor, hcontents, hany, heldFor]

theorem heldFor_length (h : f.label = .repeated) : (heldFor sub f buffer as).length ≤ 1 := by
  rw [heldFor, if_pos h]
  split <;> simp

theorem holds_new (max : ℕ) : Holds sub m buffer (MapSp.new max) [] where
  wf := MapSp.wf_new max
  values f _ := by simp [ChainTable.valuesAt, heldFor]
  keys k v h := by simp at h

/-- A value of its own is no array. -/
private theorem readValue_item {v : Cell RMessage} (h : readValue sub f a buffer = .ok v) :
    ∃ item, v.item = some item ∧ itemValue f item = some ⟨f, v⟩ := by
  have hvar : ∀ x, v = .var x → ∃ item, v.item = some item ∧ itemValue f item = some ⟨f, v⟩ := by
    rintro x rfl
    exact ⟨.var x, rfl, rfl⟩
  have hmessage : ∀ r, v = .message r →
      ∃ item, v.item = some item ∧ itemValue f item = some ⟨f, v⟩ := by
    rintro r rfl
    exact ⟨.message r, rfl, rfl⟩
  unfold readValue at h
  split at h
  · obtain ⟨x, -, hx⟩ := Res.bind_eq_ok.mp h
    cases hx
    exact hvar _ rfl
  · split at h
    · split at h
      · cases h
        exact hvar _ rfl
      · cases h
    · split at h
      · cases h
        exact hvar _ rfl
      · cases h
    · split at h
      · split at h
        · split at h
          · cases h
            exact hmessage _ rfl
          · cases h
            exact hmessage _ rfl
          · cases h
        · cases h
      · cases h
    · cases h

/-- The elements that are found in the slot of a repeated field. -/
private theorem arrayItems_held (h : f.label = .repeated) :
    arrayItems ((heldFor sub f buffer as).headD none) = .ok (contents sub f buffer as) := by
  rw [heldFor, if_pos h]
  split
  · rw [List.headD_cons, arrayValue]
    split
    · rename_i hnil
      rw [hnil]
      rfl
    · rfl
  · rename_i hno
    have hnil : contents sub f buffer as = [] := by
      have hfilter : as.filter (·.id = f.id) = [] := by
        refine List.filter_eq_nil_iff.mpr fun b hb hid => hno ?_
        exact List.any_eq_true.mpr ⟨b, hb, hid⟩
      rw [contents, hfilter, List.filterMap_nil]
    rw [hnil]
    rfl

namespace Holds

/-- An atom that changes nothing is one of a field that has not to be filed. -/
private theorem skip (h : Holds sub m buffer index as)
    (hsame : ∀ f, m.Files f → (heldFor sub f buffer (as ++ [a])).Perm (heldFor sub f buffer as)) :
    Holds sub m buffer index (as ++ [a]) where
  wf := h.wf
  values f hf := (h.values f hf).trans (hsame f hf).symm
  keys := h.keys

/-- Only the pointers under the name of one field have changed. -/
private theorem changed (h : Holds sub m buffer index as) (hm : m.Unpacked) (hf : m.Files f)
    (hid : a.id = f.id) (hwf : index'.WF)
    (hvalues : (index'.valuesAt f.name).Perm (heldFor sub f buffer (as ++ [a])))
    (hothers : ∀ k ≠ f.name, (index'.valuesAt k).Perm (index.valuesAt k)) :
    Holds sub m buffer index' (as ++ [a]) where
  wf := hwf
  values g hg := by
    by_cases hname : g.name = f.name
    · obtain rfl := hm.eq_of_name hg hf hname
      exact hvalues
    · have hne : a.id ≠ g.id := by
        intro heq
        have hgf : m.queryId f.id = some g := by
          rw [← hid, heq]
          exact hg
        rw [Message.Files, hgf] at hf
        exact hname (by rw [Option.some.inj hf])
      rw [heldFor_other hne]
      exact (hothers _ hname).trans (h.values g hg)
  keys k v hv := by
    by_cases hk : k = f.name
    · exact ⟨f, hf, hk.symm⟩
    · have hmem := (hothers k hk).subset (ChainTable.mem_valuesAt.mpr hv)
      exact h.keys k v (ChainTable.mem_valuesAt.mp hmem)

/-- There is one pointer at most under the name of a repeated field. -/
private theorem values_repeated (h : Holds sub m buffer index as) (hf : m.Files f)
    (hlabel : f.label = .repeated) : index.valuesAt f.name = heldFor sub f buffer as := by
  have hvalues := h.values f hf
  have hlen : (heldFor sub f buffer as).length ≤ 1 := heldFor_length hlabel
  rcases hheld : heldFor sub f buffer as with _ | ⟨v, _ | ⟨w, rest⟩⟩
  · exact List.perm_nil.mp (hheld ▸ hvalues)
  · exact List.perm_singleton.mp (hheld ▸ hvalues)
  · rw [hheld] at hlen
    simp at hlen

/-- The elements of a repeated field are those that its atoms made so far. -/
private theorem slot_repeated (h : Holds sub m buffer index as) (hf : m.Files f)
    (hlabel : f.label = .repeated) :
    arrayItems ((index.queryInsert f.name).1.slot (index.queryInsert f.name).2).pointer =
      .ok (contents sub f buffer as) := by
  have heq := h.values_repeated hf hlabel
  have hone : (index.valuesAt f.name).length ≤ 1 := heq ▸ heldFor_length hlabel
  have hslot : ((index.queryInsert f.name).1.slot (index.queryInsert f.name).2).pointer =
      (heldFor sub f buffer as).headD none := heq ▸ (ChainTable.store_valuesAt h.wf hone).1
  rw [hslot]
  exact arrayItems_held hlabel

private theorem storeRepeated (h : Holds sub m buffer index as) (hm : m.Unpacked)
    (hf : m.Files f) (hid : a.id = f.id) (hlabel : f.label = .repeated)
    (hstore : storeAtom sub m index a buffer = .ok index') :
    Holds sub m buffer index' (as ++ [a]) := by
  have hone : (index.valuesAt f.name).length ≤ 1 :=
    h.values_repeated hf hlabel ▸ heldFor_length hlabel
  obtain ⟨-, hput⟩ := ChainTable.store_valuesAt h.wf hone
  have hquery : m.queryId a.id = some f := hid ▸ hf
  simp only [storeAtom, hquery, hlabel, h.slot_repeated hf hlabel, Res.ok_bind] at hstore
  have hany : (as ++ [a]).any (·.id = f.id) = true := by simp [hid]
  have hnew : ∀ item, atomItem sub f buffer a = item →
      heldFor sub f buffer (as ++ [a]) =
        [arrayValue f (contents sub f buffer as ++ item.toList)] := by
    intro item hitem
    rw [heldFor, if_pos hlabel, if_pos hany, contents_concat, if_pos hid, hitem]
  cases hread : readItem sub f a buffer with
  | ok item =>
      rw [hread] at hstore
      cases hstore
      have hitem : atomItem sub f buffer a = some item := by simp [atomItem, hlabel, hread]
      obtain ⟨hwf, hat, hothers⟩ := hput (some ⟨f, .array (contents sub f buffer as ++ [item])⟩)
      refine h.changed hm hf hid hwf (.of_eq (hat.trans ?_)) hothers
      rw [hnew _ hitem]
      simp [arrayValue]
  | null =>
      rw [hread] at hstore
      cases hstore
      have hitem : atomItem sub f buffer a = none := by simp [atomItem, hlabel, hread]
      obtain ⟨hwf, hat, hothers⟩ := hput (arrayValue f (contents sub f buffer as))
      refine h.changed hm hf hid hwf (.of_eq (hat.trans ?_)) hothers
      rw [hnew _ hitem]
      simp
  | undefined =>
      rw [hread] at hstore
      cases hstore

variable (sub buffer index) in
/-- An atom of a field that is not repeated is filed as the value that it makes. -/
private theorem storeAtom_single (hquery : m.queryId a.id = some f) (hlabel : f.label ≠ .repeated)
    (hpacked : f.label ≠ .packed) :
    (∀ v, readValue sub f a buffer = .ok v →
      storeAtom sub m index a buffer = .ok (index.insert f.name (some ⟨f, v⟩))) ∧
    (readValue sub f a buffer = .null → storeAtom sub m index a buffer = .ok index) ∧
    (readValue sub f a buffer = .undefined → storeAtom sub m index a buffer = .undefined) := by
  unfold storeAtom
  rw [hquery]
  dsimp only
  cases hl : f.label with
  | packed => exact absurd hl hpacked
  | repeated => exact absurd hl hlabel
  | optional | required | other =>
      exact ⟨fun v h => by rw [h], fun h => by rw [h], fun h => by rw [h]⟩

private theorem storeSingle (h : Holds sub m buffer index as) (hm : m.Unpacked)
    (hf : m.Files f) (hid : a.id = f.id) (hlabel : f.label ≠ .repeated)
    (hstore : storeAtom sub m index a buffer = .ok index') :
    Holds sub m buffer index' (as ++ [a]) := by
  have hquery : m.queryId a.id = some f := hid ▸ hf
  obtain ⟨hok, hnull, hundefined⟩ := storeAtom_single sub index buffer hquery hlabel
    (hm.label _ f hquery)
  have hheld : heldFor sub f buffer (as ++ [a]) =
      heldFor sub f buffer as ++ (atomItem sub f buffer a).toList.map (itemValue f) := by
    rw [heldFor, if_neg hlabel, contents_concat, if_pos hid, List.map_append, heldFor, if_neg hlabel]
  have hnone : atomItem sub f buffer a = none → Holds sub m buffer index (as ++ [a]) := by
    intro hitem
    refine h.skip fun g hg => ?_
    by_cases hg' : a.id = g.id
    · obtain rfl : f = g := Option.some.inj ((hg' ▸ hquery).symm.trans hg)
      rw [hheld, hitem]
      simp
    · rw [heldFor_other hg']
  cases hread : readValue sub f a buffer with
  | ok v =>
      rw [hok v hread] at hstore
      cases hstore
      obtain ⟨item, hv, hval⟩ := readValue_item hread
      have hitem : atomItem sub f buffer a = some item := by
        rw [atomItem, if_neg hlabel, hread]
        exact hv
      have hins := ChainTable.valuesAt_insertAt h.wf f.name (some ⟨f, v⟩)
      refine h.changed hm hf hid (MapSp.wf_insert h.wf _ _) ?_ fun k hk => ?_
      · refine (hins f.name).trans ?_
        rw [if_pos rfl, hheld, hitem]
        simp only [Option.toList_some, List.map_cons, List.map_nil, hval]
        exact (List.perm_append_comm).trans ((h.values f hf).append_right _)
      · have hother := hins k
        rwa [if_neg hk, List.nil_append] at hother
  | null =>
      rw [hnull hread] at hstore
      cases hstore
      exact hnone (by simp [atomItem, hlabel, hread])
  | undefined =>
      rw [hundefined hread] at hstore
      cases hstore

/-- Filing one atom. -/
theorem storeAtom (h : Holds sub m buffer index as) (hm : m.Unpacked)
    (hstore : storeAtom sub m index a buffer = .ok index') :
    Holds sub m buffer index' (as ++ [a]) := by
  cases hquery : m.queryId a.id with
  | none =>
      simp only [Pbc.storeAtom, hquery] at hstore
      cases hstore
      refine h.skip fun f hf => ?_
      rw [heldFor_other]
      intro hid
      rw [hid, hf] at hquery
      cases hquery
  | some f =>
      have hid := (hm.id_eq _ f hquery).symm
      have hf := hm.files hquery
      by_cases hlabel : f.label = .repeated
      · exact h.storeRepeated hm hf hid hlabel hstore
      · exact h.storeSingle hm hf hid hlabel hstore

/-- Filing all atoms. -/
theorem storeAtoms (h : Holds sub m buffer index as) (hm : m.Unpacked) {bs : List Atom}
    (hstore : storeAtoms sub m buffer index bs = .ok index') :
    Holds sub m buffer index' (as ++ bs) := by
  induction bs generalizing index as with
  | nil =>
      cases hstore
      rwa [List.append_nil]
  | cons b bs ih =>
      obtain ⟨index₁, hfirst, hrest⟩ := Res.bind_eq_ok.mp hstore
      have hall := ih (h.storeAtom hm hfirst) hrest
      rwa [List.append_assoc] at hall

end Holds

/-! ### Atoms that can be read -/

/-- The value of a field that has an element of its own. -/
def Item.cell : Item RMessage → Cell RMessage
  | .var x => .var x
  | .message r => .message r

variable (sub) in
/-- The atom is one of the field `f`, and makes the element `item`. -/
structure Makes (m : Message) (buffer : List UInt8) (f : Field) (a : Atom) (item : Item RMessage) :
    Prop where
  files : m.Files f
  id_eq : a.id = f.id
  value : readValue sub f a buffer = .ok item.cell
  item : readItem sub f a buffer = .ok item

theorem Makes.atomItem_eq {item : Item RMessage} (h : Makes sub m buffer f a item) :
    atomItem sub f buffer a = some item := by
  rw [atomItem, h.item, h.value]
  cases item <;> simp [Item.cell, Cell.item]

theorem Holds.storeAtom_makes (h : Holds sub m buffer index as) (hm : m.Unpacked)
    {item : Item RMessage} (ha : Makes sub m buffer f a item) :
    ∃ index', Pbc.storeAtom sub m index a buffer = .ok index' := by
  have hquery : m.queryId a.id = some f := ha.id_eq ▸ ha.files
  have hpacked := hm.label _ f hquery
  simp only [Pbc.storeAtom, hquery]
  cases hlabel : f.label with
  | packed => exact absurd hlabel hpacked
  | repeated =>
      simp only [h.slot_repeated ha.files hlabel, ha.item, Res.ok_bind]
      exact ⟨_, rfl⟩
  | optional | required | other =>
      simp only [ha.value]
      exact ⟨_, rfl⟩

/-- Atoms that can all be read are filed. -/
theorem Holds.storeAtoms_makes (h : Holds sub m buffer index as) (hm : m.Unpacked)
    {es : List (Field × Item RMessage)} {bs : List Atom}
    (hes : List.Forall₂ (fun e b => Makes sub m buffer e.1 b e.2) es bs) :
    ∃ index', Pbc.storeAtoms sub m buffer index bs = .ok index' := by
  induction hes generalizing index as with
  | nil => exact ⟨index, rfl⟩
  | cons hmakes _ ih =>
      obtain ⟨index₁, hfirst⟩ := h.storeAtom_makes hm hmakes
      obtain ⟨index', hrest⟩ := ih (h.storeAtom hm hfirst)
      exact ⟨index', Res.bind_eq_ok.mpr ⟨index₁, hfirst, hrest⟩⟩

theorem contents_makes {es : List (Field × Item RMessage)} {bs : List Atom}
    (hes : List.Forall₂ (fun e b => Makes sub m buffer e.1 b e.2) es bs) (hf : m.Files f) :
    contents sub f buffer bs = (es.filter (·.1 = f)).map Prod.snd := by
  induction hes with
  | nil => rfl
  | @cons e b es bs hmakes _ ih =>
      have hsame : b.id = f.id ↔ e.1 = f := by
        rw [hmakes.id_eq]
        refine ⟨fun hid => ?_, congrArg Field.id⟩
        have hfiles := hmakes.files
        rw [Message.Files, hid, hf] at hfiles
        exact (Option.some.inj hfiles).symm
      rw [contents] at ih ⊢
      by_cases hef : e.1 = f
      · have hitem := hmakes.atomItem_eq
        rw [hef] at hitem
        simp [hsame.mpr hef, hef, hitem, ih]
      · have hne : ¬ b.id = f.id := fun hid => hef (hsame.mp hid)
        simp [hne, hef, ih]

/-! ## What the records make -/

/-- The field takes its values from length-delimited records. -/
def Field.takesLend (f : Field) : Bool := f.type = .string ∨ f.type = .bytes ∨ f.type = .message

/-- No number is sent as bytes; those would be read as the bounds of the record. -/
def Field.Suits (f : Field) (p : Wire.Payload) : Prop := ∀ body, p = .lend body → f.takesLend = true

instance (f : Field) (p : Wire.Payload) : Decidable (f.Suits p) :=
  match p with
  | .lend _ => decidable_of_iff (f.takesLend = true) ⟨fun h _ _ => h, fun h => h _ rfl⟩
  | .varint _ | .bits64 _ | .bits32 _ => .isTrue fun _ h => by cases h

variable (sub) in
/-- What a record of the field makes, as an element: a sub-message is what `sub` reads. -/
def Field.item (f : Field) : Wire.Payload → Option (Item RMessage)
  | .lend body => match f.type with
      | .string | .bytes => some (.var (.str body))
      | .message => match f.type_name with
          | .m t => match sub t body with
              | .ok r => if f.label = .repeated ∧ r.msg = none then none else some (.message r)
              | .null => if f.label = .repeated then none else some (.message .zeroed)
              | .undefined => none
          | _ => none
      | _ => none
  | p => match f.type with
      | .double | .float => some (.var .real)
      | .string | .bytes | .message | .group | .other => none
      | _ => some (.var (f.shown p))

variable (sub) in
/-- The elements of the field that the records `rs` make, in order. -/
def Field.items (f : Field) (rs : List Wire.Record) : List (Item RMessage) :=
  (Wire.payloads f.id.toNat rs).filterMap (f.item sub)

section Records

variable {env : Env} {r : Wire.Record} {rs : List Wire.Record}

/-- A record of bytes. -/
theorem atomItem_lend (hisLend : a.isLend = true) (hlend : f.takesLend = true) :
    atomItem sub f buffer a = f.item sub (.lend (a.slice buffer)) := by
  rw [atomItem]
  rcases of_decide_eq_true hlend with htype | htype | htype
  · simp [readItem, readValue, scalar, Field.item, htype, hisLend, Cell.item]
  · simp [readItem, readValue, scalar, Field.item, htype, hisLend, Cell.item]
  · simp only [readItem, readValue, scalar, Field.item, htype, hisLend, if_true]
    split
    · rename_i hlabel
      cases f.type_name with
      | m t =>
          cases hsub : sub t (a.slice buffer) with
          | ok msg =>
              by_cases hnone : msg.msg = none <;>
                simp [hsub, hlabel, hnone, Option.isNone_iff_eq_none]
          | null => simp [hsub]
          | undefined => simp [hsub]
      | n _ => rfl
      | e _ => rfl
    · rename_i hlabel
      cases f.type_name with
      | m t =>
          cases hsub : sub t (a.slice buffer) with
          | ok msg => simp [hsub, hlabel, Cell.item]
          | null => simp [hsub, Cell.item]
          | undefined => simp [hsub]
      | n _ => rfl
      | e _ => rfl

/-- A record of a number. -/
theorem atomItem_number {l : Longlong} (ha : Carries buffer r a) (hres : env.Resolved f)
    (hl : atomWords r.payload = some l) : atomItem sub f buffer a = f.item sub r.payload := by
  have hword := ha.words l hl
  have hisLend : a.isLend = false := by
    rw [Bool.eq_false_iff]
    intro h
    obtain ⟨body, hbody⟩ := ha.isLend_iff.mp h
    rw [hbody] at hl
    cases hl
  have hscalar : ∀ {p} low hi, f.type.payload low hi = some p →
      atomItem sub f buffer a = some (.var (f.shown r.payload)) := by
    intro p low hi hpay
    have henum : f.type = .enum → ∃ k, f.type_name = .e (some k) := by
      intro htype
      simp only [Env.Resolved, htype] at hres
      obtain ⟨k, hk, -⟩ := hres
      exact ⟨k, hk⟩
    have hs := scalar_words hpay henum a
    rw [hword, ← f.shown_of_words hl] at hs
    simp [atomItem, readItem, readValue, hs, Cell.item]
  have hitem : f.item sub r.payload = match f.type with
      | .double | .float => some (.var .real)
      | .string | .bytes | .message | .group | .other => none
      | _ => some (.var (f.shown r.payload)) := by
    cases hp : r.payload with
    | lend body =>
        rw [hp] at hl
        cases hl
    | varint v => rfl
    | bits64 v => rfl
    | bits32 v => rfl
  rw [hitem]
  cases htype : f.type with
  | double | float => simp [atomItem, readItem, readValue, scalar, htype, Cell.item]
  | string | bytes | message | group | other =>
      simp [atomItem, readItem, readValue, scalar, htype, hisLend]
  | _ => exact hscalar 0 0 (by rw [htype]; rfl)

/-- The contents of a field are what its records make. -/
theorem contents_eq_items (has : CarriesAll buffer rs as) (hres : env.Resolved f)
    (hnum : 0 < f.id ∧ f.id < 2 ^ 28)
    (hsuits : ∀ p ∈ Wire.payloads f.id.toNat rs, f.Suits p) :
    contents sub f buffer as = f.items sub rs := by
  induction has with
  | nil => rfl
  | @cons r a rs as ha _ ih =>
      have hid : a.id = f.id ↔ r.number = f.id.toNat := by
        rw [← ha.id_eq (by omega : f.id.toNat < 2 ^ 28), Int.toNat_of_nonneg (by omega)]
      rw [contents] at ih ⊢
      by_cases hn : r.number = f.id.toNat
      · have hpayloads : Wire.payloads f.id.toNat (r :: rs) =
            r.payload :: Wire.payloads f.id.toNat rs := by simp [Wire.payloads, hn]
        rw [hpayloads] at hsuits
        have hrest := ih fun p hp => hsuits p (List.mem_cons_of_mem _ hp)
        have hone : atomItem sub f buffer a = f.item sub r.payload := by
          cases hp : r.payload with
          | lend body =>
              rw [atomItem_lend (ha.isLend_iff.mpr ⟨body, hp⟩) (hsuits _ List.mem_cons_self body hp),
                ha.body body hp]
          | varint v =>
              rw [← hp]
              exact atomItem_number ha hres (by rw [hp]; rfl)
          | bits64 v =>
              rw [← hp]
              exact atomItem_number ha hres (by rw [hp]; rfl)
          | bits32 v =>
              rw [← hp]
              exact atomItem_number ha hres (by rw [hp]; rfl)
        rw [List.filter_cons_of_pos (by simpa using hid.mpr hn), List.filterMap_cons, hrest, hone]
        simp only [Field.items, hpayloads, List.filterMap_cons]
      · have hpayloads : Wire.payloads f.id.toNat (r :: rs) = Wire.payloads f.id.toNat rs := by
          simp [Wire.payloads, hn]
        rw [hpayloads] at hsuits
        rw [List.filter_cons_of_neg (by simpa using fun h => hn (hid.mp h)), ih hsuits,
          Field.items, Field.items, hpayloads]

end Records

/-! ## What the accessors show -/

/-- The accessors show the elements `items` under the name of a field. -/
structure Shows (env : Env) (msg : RMessage) (f : Field) (items : List (Item RMessage)) : Prop where
  size : rmessageSize msg f.name = some items.length
  var : ∀ (k : ℕ) x, items[k]? = some (.var x) → msg.lookup env f.name k = some (some f.type, x)
  message : ∀ (k : ℕ) r, items[k]? = some (.message r) → rmessageMessage env msg f.name k = .ok r
  absent : items = [] → msg.query f.name = some none

variable {env : Env} {msg : RMessage}

private theorem shows_nil (hquery : msg.query f.name = some none) : Shows env msg f [] where
  size := by simp [rmessageSize, hquery]
  var k x h := by simp at h
  message k r h := by simp at h
  absent _ := hquery

private theorem shows_array {items : List (Item RMessage)} (hlabel : f.label = .repeated)
    (hne : items ≠ []) (hquery : msg.query f.name = some (some ⟨f, .array items⟩)) :
    Shows env msg f items where
  size := by simp [rmessageSize, hquery, hlabel]
  var k x h := by simp [RMessage.lookup, hquery, hlabel, h]
  message k r h := by simp [rmessageMessage, hquery, hlabel, h]
  absent h := absurd h hne

private theorem shows_single {item : Item RMessage} (hlabel : f.label ≠ .repeated)
    (hpacked : f.label ≠ .packed) (hquery : msg.query f.name = some (itemValue f item)) :
    Shows env msg f [item] where
  size := by
    cases item <;> simp [rmessageSize, hquery, itemValue, hlabel, hpacked]
  var k x h := by
    cases k with
    | zero =>
        obtain rfl : item = .var x := by simpa using h
        simp [RMessage.lookup, hquery, itemValue, hlabel, hpacked]
    | succ k => simp at h
  message k r h := by
    cases k with
    | zero =>
        obtain rfl : item = .message r := by simpa using h
        simp [rmessageMessage, hquery, itemValue, hlabel]
    | succ k => simp at h
  absent h := by simp at h

/-- A message that was read shows the contents of each field, as long as there is
one element at most where a field is not repeated. -/
theorem Holds.shows (h : Holds sub m buffer index as) (hm : m.Unpacked) (hf : m.Files f)
    (hhash : calcHash f.name ≠ 0)
    (hone : f.label = .repeated ∨ (contents sub f buffer as).length ≤ 1) (type : Option ℕ) :
    Shows env (.mk type (some index)) f (contents sub f buffer as) := by
  have hvalues := h.values f hf
  have hnone : index.valuesAt f.name = [] → contents sub f buffer as = [] →
      Shows env (.mk type (some index)) f (contents sub f buffer as) := by
    intro hnil hcontents
    rcases ChainTable.query_valuesAt h.wf hhash with ⟨v, hv, -⟩ | ⟨-, hq⟩
    · rw [hnil] at hv
      cases hv
    · rw [hcontents]
      exact shows_nil hq
  by_cases hlabel : f.label = .repeated
  · rw [heldFor, if_pos hlabel] at hvalues
    split at hvalues
    · rename_i hany
      have hquery := ChainTable.query_of_valuesAt h.wf (List.perm_singleton.mp hvalues)
      by_cases hne : contents sub f buffer as = []
      · rw [arrayValue, if_pos hne] at hquery
        rw [hne]
        exact shows_nil hquery
      · rw [arrayValue, if_neg hne] at hquery
        exact shows_array hlabel hne hquery
    · rename_i hany
      refine hnone (List.perm_nil.mp hvalues) ?_
      have hfilter : as.filter (·.id = f.id) = [] :=
        List.filter_eq_nil_iff.mpr fun b hb hid => hany (List.any_eq_true.mpr ⟨b, hb, hid⟩)
      rw [contents, hfilter, List.filterMap_nil]
  · have hlen := hone.resolve_left hlabel
    rw [heldFor, if_neg hlabel] at hvalues
    rcases hitems : contents sub f buffer as with _ | ⟨item, _ | ⟨item', rest⟩⟩
    · rw [← hitems]
      rw [hitems, List.map_nil] at hvalues
      exact hnone (List.perm_nil.mp hvalues) hitems
    · rw [hitems, List.map_cons, List.map_nil] at hvalues
      exact shows_single hlabel (hm.label _ f hf)
        (ChainTable.query_of_valuesAt h.wf (List.perm_singleton.mp hvalues))
    · rw [hitems] at hlen
      simp at hlen

/-- A message that was read holds what its atoms make. -/
theorem rmessageNewAux_holds {fuel t : ℕ} (ht : env.messages[t]? = some m) (hm : m.Unpacked)
    (h : rmessageNewAux env (fuel + 1) (some t) buffer = .ok msg) :
    ∃ as index, openContext buffer.length buffer 0 = .ok as ∧ msg = .mk (some t) (some index) ∧
      Holds (rmessageNewAux env fuel) m buffer index as := by
  rw [rmessageNewAux] at h
  split at h
  · rename_i hnil
    cases h
    refine ⟨[], MapSp.new 0, ?_, rfl, holds_new 0⟩
    rw [hnil]
    rfl
  · simp only [Option.bind_some, ht] at h
    obtain ⟨as, hopen, h⟩ := Res.bind_eq_ok.mp h
    split at h
    · cases h
    · obtain ⟨index, hstore, h⟩ := Res.bind_eq_ok.mp h
      cases h
      exact ⟨as, index, hopen, rfl, (holds_new as.length).storeAtoms hm hstore⟩

/-- A buffer that was read is no longer than a heap can be made for. -/
theorem rmessageNew_length {name : CStr} {t : ℕ} (hget : getMessage env name = some (some t))
    (h : rmessageNew env name buffer = some (.ok msg)) : buffer.length ≤ heapMax := by
  rw [rmessageNew, hget] at h
  simp only [Option.bind_eq_bind, Option.bind_some] at h
  split at h
  · cases h
  · exact Nat.le_of_not_lt ‹_›

/-- Reading any buffer as any registered type. -/
theorem rmessageNew_holds {name : CStr} {t : ℕ} (hget : getMessage env name = some (some t))
    (ht : env.messages[t]? = some m) (hm : m.Unpacked)
    (h : rmessageNew env name buffer = some (.ok msg)) :
    ∃ as index, openContext buffer.length buffer 0 = .ok as ∧ msg = .mk (some t) (some index) ∧
      Holds (rmessageNewAux env buffer.length) m buffer index as := by
  rw [rmessageNew, hget] at h
  simp only [Option.bind_eq_bind, Option.bind_some] at h
  split at h
  · cases h
  · split at h
    · rename_i msg' haux
      cases h
      exact rmessageNewAux_holds ht hm haux
    · cases h
    · cases h

/-- The contents of a message that was read are what the records of the buffer make. -/
theorem rmessageNew_items (hreg : Registries env) {name : CStr} (hname : Registered env name m)
    (hm : m.Regular) {rs : List Wire.Record} (hrs : Wire.ShortMessage rs buffer)
    (hsuits : ∀ f ∈ m.fields, ∀ p ∈ Wire.payloads f.id.toNat rs, f.Suits p)
    (h : rmessageNew env name buffer = some (.ok msg)) :
    ∃ as type index, msg = .mk type (some index) ∧
      Holds (rmessageNewAux env buffer.length) m buffer index as ∧
      ∀ f ∈ m.fields, contents (rmessageNewAux env buffer.length) f buffer as =
        f.items (rmessageNewAux env buffer.length) rs := by
  obtain ⟨t, hget, ht⟩ := hname
  have hmem := List.mem_of_getElem? ht
  obtain ⟨as, index, hopen, rfl, hholds⟩ :=
    rmessageNew_holds hget ht (hm.unpacked hreg hmem) h
  have hlong : buffer.length ≤ heapMax := rmessageNew_length hget h
  obtain ⟨as', hopen', hcarries⟩ := openContext_carries hrs [] (Nat.le_refl _)
    (Nat.lt_of_le_of_lt hlong (by decide))
  obtain rfl := Res.ok.inj (hopen.symm.trans hopen')
  exact ⟨as, _, index, rfl, hholds, fun f hf => contents_eq_items hcarries
    (hreg.resolved hmem hf) (hm.number f hf) (hsuits f hf)⟩

/-- Reading any well-formed buffer as any registered type: the message shows for every
field what the records with its number make, in the order they are in. -/
theorem rmessageNew_shows (hreg : Registries env) {name : CStr} (hname : Registered env name m)
    (hm : m.Regular) {rs : List Wire.Record} (hrs : Wire.ShortMessage rs buffer)
    (hsuits : ∀ f ∈ m.fields, ∀ p ∈ Wire.payloads f.id.toNat rs, f.Suits p)
    (h : rmessageNew env name buffer = some (.ok msg)) :
    ∀ f ∈ m.fields,
      f.label = .repeated ∨ (f.items (rmessageNewAux env buffer.length) rs).length ≤ 1 →
      Shows env msg f (f.items (rmessageNewAux env buffer.length) rs) := by
  obtain ⟨as, type, index, rfl, hholds, hitems⟩ := rmessageNew_items hreg hname hm hrs hsuits h
  intro f hf hone
  rw [← hitems f hf] at hone ⊢
  exact hholds.shows (hm.unpacked hreg hname.mem) (hm.files hreg hname.mem hf) (hm.hash f hf)
    hone type

end Contents

/-- The records of a value of an enum. -/
def valueRecords : List Wire.Record := Wire.fields [(1, .lend [65]), (2, .varint 7)]

/-- The type of the values of enums, and whether it is regular and reads those records. -/
def readNew : Option (Bool × Bool) := do
  let p ← pbcNew
  let i ← getMessage p (lit "google.protobuf.EnumValueDescriptorProto")
  let m ← p.messages[← i]?
  let r ← rmessageNew p (lit "google.protobuf.EnumValueDescriptorProto") [10, 1, 65, 16, 7]
  pure (decide (m.Regular ∧ ∀ f ∈ m.fields, ∀ p ∈ Wire.payloads f.id.toNat valueRecords, f.Suits p),
    r matches .ok _)

private theorem readNew_eq : readNew = some (true, true) := by decide +kernel

private theorem valueRecords_message : Wire.ShortMessage valueRecords [10, 1, 65, 16, 7] :=
  Wire.shortMessage_encode valueRecords (by decide)

private theorem read_new : ∃ (p : Env) (m : Message) (msg : RMessage), Registries p ∧
    Registered p (lit "google.protobuf.EnumValueDescriptorProto") m ∧ m.Regular ∧
    (∀ f ∈ m.fields, ∀ p ∈ Wire.payloads f.id.toNat valueRecords, f.Suits p) ∧
    rmessageNew p (lit "google.protobuf.EnumValueDescriptorProto") [10, 1, 65, 16, 7] =
      some (.ok msg) := by
  have hread := readNew_eq
  unfold readNew at hread
  simp only [Option.bind_eq_bind, Option.bind_eq_some_iff] at hread
  obtain ⟨p, hnew, found, hfound, i, rfl, m, hm, r, hr, hread⟩ := hread
  obtain ⟨hall, hok⟩ := Prod.mk.inj (Option.some.inj hread)
  obtain ⟨hregular, hsuits⟩ := of_decide_eq_true hall
  cases r with
  | error e => cases hok
  | ok msg => exact ⟨p, m, msg, .new hnew, ⟨i, hfound, hm⟩, hregular, hsuits, hr⟩

/-- A value of an enum that a new environment reads. -/
theorem rmessageNew_shows_value : ∃ (p : Env) (m : Message) (msg : RMessage),
    rmessageNew p (lit "google.protobuf.EnumValueDescriptorProto") [10, 1, 65, 16, 7] =
      some (.ok msg) ∧
    ∀ f ∈ m.fields,
      f.label = .repeated ∨ (f.items (rmessageNewAux p 5) valueRecords).length ≤ 1 →
      Shows p msg f (f.items (rmessageNewAux p 5) valueRecords) := by
  obtain ⟨p, m, msg, hreg, hname, hm, hsuits, hr⟩ := read_new
  exact ⟨p, m, msg, hr, rmessageNew_shows hreg hname hm valueRecords_message hsuits hr⟩

/-! ## Going through the fields -/

/-- `_pbcP_type`: zero stands for no type, and 128 more for more than one value. -/
def Field.pbcType (f : Field) : ℕ :=
  let ret := match f.type with
    | .double | .float => 2
    | .int64 | .sint64 => 10
    | .int32 | .sint32 => 1
    | .uint32 | .uint64 => 11
    | .fixed32 | .sfixed32 => 8
    | .sfixed64 | .fixed64 => 7
    | .bool => 3
    | .string => 5
    | .bytes => 9
    | .enum => 4
    | .message => 6
    | _ => 0
  if ret = 0 then 0
  else if f.label = .repeated ∨ f.label = .packed then ret + 128
  else ret

/-- `pbc_rmessage_next`: the next name with the type of its field, or the end. -/
def rmessageNext (m : RMessage) (key : Option CStr) : Option (Option (CStr × ℕ)) :=
  match m.index with
  | none => some none
  | some index => (MapSp.next index key).map fun found =>
      found.map fun e => (e.1, e.2.type.pbcType)

/-- Going on from a key, the fields `l` are visited, and then there are no more. -/
inductive Visits (m : RMessage) : Option CStr → List (CStr × ℕ) → Prop where
  | stop {key : Option CStr} : rmessageNext m key = some none → Visits m key []
  | visit {key : Option CStr} {e : CStr × ℕ} {l : List (CStr × ℕ)} :
      rmessageNext m key = some (some e) → Visits m (some e.1) l → Visits m key (e :: l)

private theorem visits_of_enumerates {type : Option ℕ} {index : MapSp (Value RMessage)}
    {key : Option CStr} {l : List (CStr × Value RMessage)}
    (h : ChainTable.Enumerates calcHash index key l) :
    Visits (.mk type (some index)) key (l.map fun e => (e.1, e.2.type.pbcType)) := by
  induction h with
  | stop hnext =>
      refine .stop ?_
      change (ChainTable.next calcHash index _).map _ = _
      rw [hnext]
      rfl
  | visit hnext _ ih =>
      refine .visit ?_ ih
      change (ChainTable.next calcHash index _).map _ = _
      rw [hnext]
      rfl

section Next

variable {sub : Option ℕ → List UInt8 → Res RMessage} {m : Message}
  {index : MapSp (Value RMessage)} {buffer : List UInt8} {as : List Atom}

/-- The values of a field that is there are of its type. -/
private theorem mem_heldFor {f : Field} {v : Value RMessage}
    (h : some v ∈ heldFor sub f buffer as) : v.type = f ∧ contents sub f buffer as ≠ [] := by
  rw [heldFor] at h
  split at h
  · split at h
    · have heq := List.mem_singleton.mp h
      rw [arrayValue] at heq
      split at heq
      · cases heq
      · rename_i hne
        cases heq
        exact ⟨rfl, hne⟩
    · cases h
  · obtain ⟨item, hitem, hv⟩ := List.mem_map.mp h
    refine ⟨?_, List.ne_nil_of_mem hitem⟩
    cases item <;> cases hv <;> rfl

private theorem heldFor_mem {f : Field} (h : contents sub f buffer as ≠ []) :
    ∃ v, some v ∈ heldFor sub f buffer as := by
  rw [heldFor]
  split
  · have hany : as.any (·.id = f.id) = true := by
      by_contra hno
      refine h ?_
      have hfilter : as.filter (·.id = f.id) = [] :=
        List.filter_eq_nil_iff.mpr fun b hb hid => hno (List.any_eq_true.mpr ⟨b, hb, hid⟩)
      rw [contents, hfilter, List.filterMap_nil]
    rw [if_pos hany, arrayValue, if_neg h]
    exact ⟨_, List.mem_singleton_self _⟩
  · obtain ⟨item, rest, hitems⟩ := List.exists_cons_of_ne_nil h
    rw [hitems]
    cases item <;> exact ⟨_, List.mem_cons_self⟩

/-- No name is in the index twice, as long as no field that is not repeated is there twice. -/
private theorem Holds.nodup (h : Holds sub m buffer index as)
    (hone : ∀ f, m.Files f → f.label ≠ .repeated → (contents sub f buffer as).length ≤ 1) :
    (index.entries.map Prod.fst).Nodup := by
  refine ChainTable.nodup_of_valuesAt fun key => ?_
  rcases hvalues : index.valuesAt key with _ | ⟨v, rest⟩
  · exact Nat.zero_le _
  · obtain ⟨f, hf, rfl⟩ := h.keys key v (ChainTable.mem_valuesAt.mp (hvalues ▸ List.mem_cons_self))
    rw [← hvalues, (h.values f hf).length_eq]
    by_cases hlabel : f.label = .repeated
    · exact heldFor_length hlabel
    · rw [heldFor, if_neg hlabel, List.length_map]
      exact hone f hf hlabel

/-- Going through the names of a message that was read shows each field for which the
records make something, once, with its type; as long as no field that is not repeated
has more than one element. -/
theorem rmessageNext_visits {env : Env} {msg : RMessage} (hreg : Registries env) {name : CStr}
    (hname : Registered env name m) (hm : m.Regular) {rs : List Wire.Record}
    (hrs : Wire.ShortMessage rs buffer)
    (hsuits : ∀ f ∈ m.fields, ∀ p ∈ Wire.payloads f.id.toNat rs, f.Suits p)
    (h : rmessageNew env name buffer = some (.ok msg))
    (hone : ∀ f ∈ m.fields, f.label ≠ .repeated →
      (f.items (rmessageNewAux env buffer.length) rs).length ≤ 1) :
    ∃ l, Visits msg none l ∧ l.Nodup ∧ ∀ e, e ∈ l ↔ ∃ f ∈ m.fields,
      f.items (rmessageNewAux env buffer.length) rs ≠ [] ∧ e = (f.name, f.pbcType) := by
  obtain ⟨as, type, index, rfl, hholds, hitems⟩ := rmessageNew_items hreg hname hm hrs hsuits h
  have hmem : ∀ {f}, m.Files f → f ∈ m.fields := fun hf =>
    ((hreg.queryId_iff hname.mem hm.ids).mp hf).1
  have hnodup := hholds.nodup fun f hf hlabel => by
    rw [hitems f (hmem hf)]
    exact hone f (hmem hf) hlabel
  refine ⟨_, visits_of_enumerates (ChainTable.enumerates_visible hholds.wf hnodup), ?_, fun e => ?_⟩
  · refine List.Nodup.of_map Prod.fst ?_
    rw [List.map_map]
    exact ChainTable.visible_nodup hnodup
  · rw [List.mem_map]
    constructor
    · rintro ⟨⟨k, v⟩, hv, rfl⟩
      have hentry := ChainTable.mem_visible.mp hv
      obtain ⟨f, hf, rfl⟩ := hholds.keys k _ hentry
      obtain ⟨htype, hne⟩ := mem_heldFor
        ((hholds.values f hf).subset (ChainTable.mem_valuesAt.mpr hentry))
      exact ⟨f, hmem hf, hitems f (hmem hf) ▸ hne, by rw [htype]⟩
    · rintro ⟨f, hf, hne, rfl⟩
      rw [← hitems f hf] at hne
      obtain ⟨v, hv⟩ := heldFor_mem hne
      have hvalues := hholds.values f (hm.files hreg hname.mem hf)
      have hentry := ChainTable.mem_valuesAt.mp (hvalues.symm.subset hv)
      exact ⟨(f.name, v), ChainTable.mem_visible.mpr hentry, by rw [(mem_heldFor hv).1]⟩

/-- Records of different fields make one element at most of each. -/
private theorem items_length_le {f : Field} {rs : List Wire.Record}
    (h : (rs.map Wire.Record.number).Nodup) : (f.items sub rs).length ≤ 1 := by
  refine Nat.le_trans (List.length_filterMap_le _ _) ?_
  have hcount := List.nodup_iff_count_le_one.mp h f.id.toNat
  rw [List.count, List.countP_map, List.countP_eq_length_filter] at hcount
  rw [Wire.payloads, List.length_map]
  exact hcount

/-- Going through the value of an enum. -/
theorem rmessageNext_visits_value : ∃ (p : Env) (m : Message) (msg : RMessage)
    (l : List (CStr × ℕ)),
    rmessageNew p (lit "google.protobuf.EnumValueDescriptorProto") [10, 1, 65, 16, 7] =
      some (.ok msg) ∧ Visits msg none l ∧ l.Nodup ∧ ∀ e, e ∈ l ↔ ∃ f ∈ m.fields,
        f.items (rmessageNewAux p 5) valueRecords ≠ [] ∧ e = (f.name, f.pbcType) := by
  obtain ⟨p, m, msg, hreg, hname, hm, hsuits, hr⟩ := read_new
  obtain ⟨l, hl⟩ := rmessageNext_visits hreg hname hm valueRecords_message hsuits hr
    fun f _ _ => items_length_le (by decide)
  exact ⟨p, m, msg, l, hr, hl⟩

end Next

end Pbc
