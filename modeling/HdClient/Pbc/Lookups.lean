-- SUMMARY: What the maps of the library answer: number and name tables exactly their rows, and string maps what was stored last over whole runs.
import HdClient.Base.Dictionary
import HdClient.Pbc.Proto

/-! # What the maps answer

The two tables that are built once answer exactly as their rows do, in whichever
form they are kept. The map from strings grows while it is used; after any run
of operations it is the dictionary of what was stored last. -/

namespace Pbc

/-! ## Tables built once -/

theorem MapIp.query_new_iff {α : Type} {table : List (ℤ × α)} {map : MapIp α}
    (hnodup : (table.map Prod.fst).Nodup) (hnew : MapIp.new table = some map) {id : ℤ} {p : α} :
    map.query id = some p ↔ (id, p) ∈ table := by
  rw [MapIp.query_new hnodup hnew]
  constructor
  · intro h
    obtain ⟨row, hrow, hp⟩ := Option.map_eq_some_iff.mp h
    obtain rfl : row.1 = id := by simpa using List.find?_some hrow
    obtain rfl : row.2 = p := hp
    exact List.mem_of_find?_eq_some hrow
  · exact MapIp.lookup_of_mem hnodup

/-- A map of numbers is kept as an array where that is small enough, and as a
hash table elsewhere; both answer as the rows they are made of. -/
theorem mapIp_answers {α : Type} {table : List (ℤ × α)} (hne : table ≠ [])
    (hnodup : (table.map Prod.fst).Nodup) :
    ∃ map, MapIp.new table = some map ∧ ∀ id,
      (∀ p, map.query id = some p ↔ (id, p) ∈ table) ∧
      (MapIp.newHash table).query id = map.query id := by
  obtain ⟨map, hnew⟩ := MapIp.new_ne_none hne
  refine ⟨map, hnew, fun id => ⟨fun p => MapIp.query_new_iff hnodup hnew, ?_⟩⟩
  rw [MapIp.query_newHash hne hnodup, MapIp.query_new hnodup hnew]

/-- Array and hash table: small numbers, and one that is negative. -/
theorem mapIp_answers_small :
    ∃ map, MapIp.new [(7, 0), (-1, 1), (2, 2)] = some map ∧ ∀ id,
      (∀ p, map.query id = some p ↔ (id, p) ∈ [((7 : ℤ), 0), (-1, 1), (2, 2)]) ∧
      (MapIp.newHash [(7, 0), (-1, 1), (2, 2)]).query id = map.query id :=
  mapIp_answers (by decide) (by decide)

private theorem names_mem {table : List (ℤ × CStr)} (hnames : (table.map Prod.snd).Nodup) {id : ℤ}
    {key : CStr} : MapSi.lookup table key = some id ↔ (id, key) ∈ table := by
  constructor
  · intro h
    obtain ⟨row, hrow, hid⟩ := Option.map_eq_some_iff.mp h
    obtain rfl : row.2 = key := by simpa using List.find?_some hrow
    obtain rfl : row.1 = id := hid
    exact List.mem_of_find?_eq_some hrow
  · exact MapSi.lookup_of_mem hnames

/-- The numbers and the names of a registered enum are looked up as each other's
inverse, and are those of its table. -/
theorem pushEnum_inverse {p : Env} {name : CStr} {table : List (ℤ × CStr)} (hne : table ≠ [])
    (hids : (table.map Prod.fst).Nodup) (hnames : (table.map Prod.snd).Nodup)
    (hfresh : ∀ v, (name, v) ∉ p.enums.entries) (hhash : calcHash name ≠ 0) :
    ∃ q i e, pushEnum p name table = some q ∧ q.enums.query name = some (some i) ∧
      q.enumObjs[i]? = some e ∧ ∀ id key,
        (e.name.query key = some (some id) ↔ (id, key) ∈ table) ∧
        (e.id.query id = some key ↔ e.name.query key = some (some id)) ∧
        ((∀ id, (id, key) ∉ table) → e.name.query key = some none) := by
  obtain ⟨row, rows, rfl⟩ := List.exists_cons_of_ne_nil hne
  obtain ⟨ids, hnew⟩ := MapIp.new_ne_none hne
  have hquery : p.enums.query name = some none :=
    ChainTable.query_of_absent p.enums_wf hhash hfresh
  have hput := MapSp.entries_insert p.enums_wf name (some p.enumObjs.length)
  have hmem : (name, some p.enumObjs.length) ∈
      (p.enums.insert name (some p.enumObjs.length)).entries :=
    hput.mem_iff.mpr List.mem_cons_self
  have hfound : (p.enums.insert name (some p.enumObjs.length)).query name =
      some (some p.enumObjs.length) := by
    refine ChainTable.query_of_unique (MapSp.wf_insert p.enums_wf _ _) hhash hmem fun w hw => ?_
    rcases List.mem_cons.mp (hput.mem_iff.mp hw) with heq | hold
    · exact (Prod.mk.inj heq).2
    · exact absurd hold (hfresh w)
  have hsi := MapSi.query_new hne hnames
  refine ⟨_, p.enumObjs.length, _, by simp [pushEnum, hquery, hnew]; rfl, hfound,
    List.getElem?_concat_length, fun id key => ⟨?_, ?_, fun hno => ?_⟩⟩
  · rw [hsi, Option.some.injEq]
    exact names_mem hnames
  · rw [hsi, Option.some.injEq, names_mem hnames]
    exact MapIp.query_new_iff hids hnew
  · rw [hsi, MapSi.lookup_of_not_mem hno]

/-- An enum in the empty environment. -/
theorem pushEnum_inverse_empty :
    ∃ q i e, pushEnum .empty (lit "E") [(3, lit "LOW"), (-2, lit "HIGH")] = some q ∧
      q.enums.query (lit "E") = some (some i) ∧ q.enumObjs[i]? = some e ∧ ∀ id key,
        (e.name.query key = some (some id) ↔ (id, key) ∈ [(3, lit "LOW"), (-2, lit "HIGH")]) ∧
        (e.id.query id = some key ↔ e.name.query key = some (some id)) ∧
        ((∀ id, (id, key) ∉ [(3, lit "LOW"), (-2, lit "HIGH")]) →
          e.name.query key = some none) :=
  pushEnum_inverse (by decide) (by decide) (by decide)
    (fun v h => by
      have hnone : Env.empty.enums.entries = [] := rfl
      rw [hnone] at h
      nomatch h)
    (by decide)

/-! ## The map from strings -/

variable {α : Type}

/-- `_pbcM_sp_next`, with null for the start and for the end. -/
def MapSp.next (map : MapSp α) (key : Option CStr) : Option (Option (CStr × α)) :=
  ChainTable.next calcHash map key

/-- A call that changes a map: `_pbcM_sp_insert`, or a store through the pointer
that `_pbcM_sp_query_insert` returns. -/
inductive SpCall (α : Type) where
  | insert (key : CStr) (value : Option α)
  | store (key : CStr) (value : Option α)

namespace SpCall

def run : SpCall α → MapSp α → MapSp α
  | insert key value, map => map.insert key value
  | store key value, map => (map.queryInsert key).1.setPointer (map.queryInsert key).2 value

/-- What the call means for a dictionary. -/
def put : SpCall α → ChainTable.Dict CStr α → ChainTable.Dict CStr α
  | insert key value, d => d.insert key value
  | store key value, d => d.insert key value

/-- An insert does not look whether the key is there, so its caller has to. -/
def Fits : SpCall α → ChainTable.Dict CStr α → Prop
  | insert key _, d => key ∉ d
  | store _ _, _ => True

end SpCall

/-- Any calls on a new map, and the dictionary that they mean. -/
inductive SpRun (max : ℕ) : List (SpCall α) → MapSp α → ChainTable.Dict CStr α → Prop where
  | new : SpRun max [] (MapSp.new max) ∅
  | call {cs : List (SpCall α)} {map : MapSp α} {d : ChainTable.Dict CStr α} {c : SpCall α} :
      SpRun max cs map d → c.Fits d → SpRun max (cs ++ [c]) (c.run map) (c.put d)

theorem SpCall.refines {map : MapSp α} {d : ChainTable.Dict CStr α}
    (h : ChainTable.Refines calcHash map d) {c : SpCall α} (hc : c.Fits d) :
    ChainTable.Refines calcHash (c.run map) (c.put d) := by
  cases c with
  | insert key value => exact h.insertAt hc value
  | store key value => exact h.store key value

theorem SpRun.refines {max : ℕ} {cs : List (SpCall α)} {map : MapSp α}
    {d : ChainTable.Dict CStr α} (h : SpRun max cs map d) : ChainTable.Refines calcHash map d := by
  induction h with
  | new => exact ⟨MapSp.wf_new max, by simp⟩
  | call _ hc ih => exact SpCall.refines ih hc

/-- After any calls, a key is looked up as what was stored under it last, and
going through the map shows every key that has a pointer, once. -/
theorem mapSp_answers {max : ℕ} {cs : List (SpCall α)} {map : MapSp α}
    {d : ChainTable.Dict CStr α} (h : SpRun max cs map d) :
    (∀ key, calcHash key ≠ 0 → map.query key = some (d.lookup key).join) ∧
      map.size = d.keys.length ∧
      ∃ l, ChainTable.Enumerates calcHash map none l ∧
        l.Perm (d.entries.filterMap fun e => e.2.map fun p => (e.1, p)) := by
  have href := h.refines
  have hnodup : (map.entries.map Prod.fst).Nodup := by
    rw [(href.entries.map Prod.fst).nodup_iff, List.map_map]
    exact d.nodupKeys
  refine ⟨fun key hhash => href.query hhash, href.size_eq, _,
    ChainTable.enumerates_visible href.wf hnodup, ?_⟩
  have hvisible : map.visible =
      map.entries.filterMap fun e => e.2.map fun p => (e.1, p) := by
    rw [ChainTable.visible, ChainTable.entries, List.filterMap_filterMap]
    congr 1
    funext s
    cases hk : s.key <;> simp [ChainTable.Slot.visible, ChainTable.Slot.entry, hk]
  rw [hvisible]
  refine (href.entries.filterMap _).trans ?_
  rw [List.filterMap_map]
  rfl

/-- A key that is there from the start, and one that is stored twice. -/
theorem mapSp_answers_stored : ∃ map d,
    SpRun 1 [.insert (lit "a") (some 1), .store (lit "b") (some 2), .store (lit "b") (some 3)]
      map d ∧
    (∀ key, calcHash key ≠ 0 → map.query key = some (d.lookup key).join) ∧
      map.size = d.keys.length ∧
      ∃ l, ChainTable.Enumerates calcHash map none l ∧
        l.Perm (d.entries.filterMap fun e => e.2.map fun p => (e.1, p)) := by
  have hnew : SpRun 1 [] (MapSp.new 1 : MapSp ℕ) ∅ := .new
  have hrun := (hnew.call (c := .insert (lit "a") (some 1)) (AList.notMem_empty _)).call
    (c := .store (lit "b") (some 2)) trivial
  have h := hrun.call (c := .store (lit "b") (some 3)) trivial
  exact ⟨_, _, h, mapSp_answers h⟩

end Pbc
