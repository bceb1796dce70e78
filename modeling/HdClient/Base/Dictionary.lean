-- SUMMARY: Chain tables as dictionaries: what storing and looking up come to, and going through all entries by their keys.
import Mathlib.Data.List.AList
import HdClient.Base.ChainTable

/-! # Chain tables as dictionaries

A table that holds no key twice is a dictionary. Its entries are gone through by
asking for the entry behind the one of a key, again and again. -/

namespace ChainTable

variable {κ α : Type} [DecidableEq κ] {hashOf : κ → ℕ} {t : ChainTable κ α}

/-! ## Storing and looking up -/

/-- What a lookup returns is stored under the key, or nothing is. -/
theorem query_cases (h : t.WF hashOf) {key : κ} {v : Option α}
    (hq : t.query key (hashOf key) = some v) :
    (key, v) ∈ t.entries ∨ v = none ∧ ∀ w, (key, w) ∉ t.entries := by
  rcases walk_spec h key with ⟨hfree, hno⟩ | ⟨i, hwalk, hkey⟩ | ⟨hwalk, hno⟩
  · refine .inr ⟨?_, hno⟩
    obtain ⟨c, hc⟩ : ∃ c, t.cap = c + 1 := ⟨t.cap - 1, by have := h.cap_pos; omega⟩
    rw [query, hc, walk, h.clear _ hfree] at hq
    by_cases hhash : 0 = hashOf key
    · simp [Slot.clear, hhash] at hq
    · simpa [Slot.clear, hhash] using hq.symm
  · refine .inl (mem_entries.mpr ⟨i, hkey, ?_⟩)
    simpa [query, hwalk] using hq
  · refine .inr ⟨?_, hno⟩
    simpa [query, hwalk] using hq.symm

/-- A key that is stored once is found, whatever its hash. -/
theorem query_of_mem (h : t.WF hashOf) {key : κ} {v : Option α} (hmem : (key, v) ∈ t.entries)
    (hone : ∀ w, (key, w) ∈ t.entries → w = v) : t.query key (hashOf key) = some v := by
  rcases walk_spec h key with ⟨-, hno⟩ | ⟨i, hwalk, hkey⟩ | ⟨-, hno⟩
  · exact absurd hmem (hno v)
  · have hpointer := hone _ (mem_entries.mpr ⟨i, hkey, rfl⟩)
    simp [query, hwalk, hpointer]
  · exact absurd hmem (hno v)

/-! ### Everything under a key -/

/-- What is stored under a key, as often as the key is there. -/
def valuesAt (t : ChainTable κ α) (key : κ) : List (Option α) :=
  (t.entries.filter (·.1 = key)).map Prod.snd

theorem mem_valuesAt {key : κ} {v : Option α} : v ∈ t.valuesAt key ↔ (key, v) ∈ t.entries := by
  simp [valuesAt]

@[simp] theorem valuesAt_empty (cap : ℕ) (key : κ) :
    (empty cap : ChainTable κ α).valuesAt key = [] := by
  simp [valuesAt, entries, empty, Slot.entry, Slot.clear]

theorem valuesAt_perm {u : ChainTable κ α} {rest : List (κ × Option α)}
    (h : u.entries.Perm rest) (key : κ) :
    (u.valuesAt key).Perm ((rest.filter (·.1 = key)).map Prod.snd) :=
  (h.filter _).map _

theorem valuesAt_insertAt (h : t.WF hashOf) (key : κ) (v : Option α) (k : κ) :
    ((t.insertAt key (hashOf key) v).1.valuesAt k).Perm
      ((if k = key then [v] else []) ++ t.valuesAt k) := by
  refine (valuesAt_perm (insertAt_spec h key v).entries k).trans (.of_eq ?_)
  rw [List.filter_cons]
  by_cases hk : k = key
  · subst hk
    simp [valuesAt]
  · have hne : ¬ key = k := fun heq => hk heq.symm
    simp [valuesAt, hk, hne]

/-- No key is there twice if none has two values. -/
theorem nodup_of_valuesAt (h : ∀ key, (t.valuesAt key).length ≤ 1) :
    (t.entries.map Prod.fst).Nodup := by
  refine List.nodup_iff_count_le_one.mpr fun key => ?_
  have hkey := h key
  rw [valuesAt, List.length_map, ← List.countP_eq_length_filter] at hkey
  rw [List.count, List.countP_map]
  refine Nat.le_trans (Nat.le_of_eq (List.countP_congr fun e _ => ?_)) hkey
  simp

/-- What a lookup returns is stored under the key, or nothing is. -/
theorem query_valuesAt (h : t.WF hashOf) {key : κ} (hhash : hashOf key ≠ 0) :
    (∃ v ∈ t.valuesAt key, t.query key (hashOf key) = some v) ∨
      t.valuesAt key = [] ∧ t.query key (hashOf key) = some none := by
  rcases query_spec h key hhash with ⟨v, hv, hq⟩ | ⟨hno, hq⟩
  · exact .inl ⟨v, mem_valuesAt.mpr hv, hq⟩
  · exact .inr ⟨List.eq_nil_iff_forall_not_mem.mpr fun v hv => hno v (mem_valuesAt.mp hv), hq⟩

theorem query_of_valuesAt (h : t.WF hashOf) {key : κ} {v : Option α} (hone : t.valuesAt key = [v]) :
    t.query key (hashOf key) = some v := by
  refine query_of_mem h (mem_valuesAt.mp (hone ▸ List.mem_singleton_self v)) fun w hw => ?_
  have hw' := mem_valuesAt.mpr hw
  rwa [hone, List.mem_singleton] at hw'

/-- The slot of a key that is there once at most holds its pointer, and storing
another one there leaves the other keys alone. -/
theorem store_valuesAt (h : t.WF hashOf) {key : κ} (hone : (t.valuesAt key).length ≤ 1) :
    ((t.queryInsert key (hashOf key)).1.slot (t.queryInsert key (hashOf key)).2).pointer =
        (t.valuesAt key).headD none ∧
      ∀ v, ((t.queryInsert key (hashOf key)).1.setPointer
          (t.queryInsert key (hashOf key)).2 v).WF hashOf ∧
        ((t.queryInsert key (hashOf key)).1.setPointer
          (t.queryInsert key (hashOf key)).2 v).valuesAt key = [v] ∧
        ∀ k ≠ key, (((t.queryInsert key (hashOf key)).1.setPointer
          (t.queryInsert key (hashOf key)).2 v).valuesAt k).Perm (t.valuesAt k) := by
  have hput : ∃ old rest, (t.queryInsert key (hashOf key)).1.WF hashOf ∧
      ((t.queryInsert key (hashOf key)).1.slot (t.queryInsert key (hashOf key)).2).key = some key ∧
      (t.queryInsert key (hashOf key)).1.entries.Perm ((key, old) :: rest) ∧
      (rest.filter (·.1 = key)) = [] ∧ old = (t.valuesAt key).headD none ∧
      ∀ k ≠ key, ((rest.filter (·.1 = k)).map Prod.snd).Perm (t.valuesAt k) := by
    rcases queryInsert_spec h key with ⟨hsame, hkey⟩ | ⟨hno, hplaced⟩
    · obtain ⟨-, rest, hold, -⟩ := setPointer_spec h hkey none
      have hfilter := valuesAt_perm hold
      have hat := hfilter key
      rw [hsame]
      simp only [List.filter_cons, decide_true, if_true, List.map_cons] at hat
      have hrest : rest.filter (·.1 = key) = [] := by
        have hlen := hat.length_eq
        simp only [List.length_cons, List.length_map] at hlen
        exact List.length_eq_zero_iff.mp (by omega)
      rw [hrest, List.map_nil] at hat
      refine ⟨_, rest, h, hkey, hold, hrest, ?_, fun k hk => ?_⟩
      · rw [List.perm_singleton.mp hat]
        rfl
      · have hne : ¬ key = k := fun heq => hk heq.symm
        have hk' := hfilter k
        simp only [List.filter_cons, hne, decide_false] at hk'
        exact hk'.symm
    · have hnil : t.valuesAt key = [] :=
        List.eq_nil_iff_forall_not_mem.mpr fun v hv => hno v (mem_valuesAt.mp hv)
      refine ⟨none, t.entries, hplaced.wf, hplaced.key_eq, hplaced.entries, ?_, ?_, fun k _ => .refl _⟩
      · exact List.map_eq_nil_iff.mp hnil
      · rw [hnil]
        rfl
  generalize t.queryInsert key (hashOf key) = u at *
  obtain ⟨old, rest, hwf, hkey, hentries, hrest, hold, hothers⟩ := hput
  have hpointer : (u.1.slot u.2).pointer = old := by
    have hmem := (valuesAt_perm hentries key).subset
      (mem_valuesAt.mpr (mem_entries.mpr ⟨_, hkey, rfl⟩))
    simpa [List.filter_cons, hrest] using hmem
  refine ⟨hpointer.trans hold, fun v => ?_⟩
  obtain ⟨hwf', rest', hold', hnew⟩ := setPointer_spec hwf hkey v
  rw [hpointer] at hold'
  have hsame : rest'.Perm rest := (hold'.symm.trans hentries).cons_inv
  refine ⟨hwf', ?_, fun k hk => ?_⟩
  · have hat := valuesAt_perm (hnew.trans (hsame.cons _)) key
    simpa [List.filter_cons, hrest] using hat
  · have hne : ¬ key = k := fun heq => hk heq.symm
    have hat := valuesAt_perm (hnew.trans (hsame.cons _)) k
    simp only [List.filter_cons, hne, decide_false] at hat
    exact hat.trans (hothers k hk)

/-! ### Dictionaries -/

/-- A dictionary; a key may be there without a pointer. -/
abbrev Dict (κ α : Type) := AList fun _ : κ => Option α

/-- The table holds what the dictionary does. -/
structure Refines (hashOf : κ → ℕ) (t : ChainTable κ α) (d : Dict κ α) : Prop where
  wf : t.WF hashOf
  entries : t.entries.Perm (d.entries.map fun e => (e.1, e.2))

namespace Refines

variable {d : Dict κ α}

theorem mem_iff (h : Refines hashOf t d) {key : κ} {v : Option α} :
    (key, v) ∈ t.entries ↔ d.lookup key = some v := by
  rw [h.entries.mem_iff, List.mem_map, ← Option.mem_def, AList.mem_lookup_iff]
  constructor
  · rintro ⟨⟨k, w⟩, hmem, heq⟩
    obtain ⟨rfl, rfl⟩ := Prod.mk.inj heq
    exact hmem
  · intro hmem
    exact ⟨⟨key, v⟩, hmem, rfl⟩

theorem absent_of_not_mem (h : Refines hashOf t d) {key : κ} (hno : ∀ v, (key, v) ∉ t.entries) :
    key ∉ d := by
  rw [← AList.lookup_eq_none]
  cases hlookup : d.lookup key with
  | none => rfl
  | some v => exact absurd (h.mem_iff.mpr hlookup) (hno v)

/-- An entry under a new key is put into the dictionary. -/
theorem of_placed (h : Refines hashOf t d) {u : ChainTable κ α} {key : κ} {v : Option α} {i : ℕ}
    (hno : key ∉ d) (hplaced : Placed hashOf t u key v i) : Refines hashOf u (d.insert key v) := by
  refine ⟨hplaced.wf, hplaced.entries.trans ?_⟩
  rw [AList.entries_insert_of_notMem hno, List.map_cons]
  exact h.entries.cons _

/-- Exchanging the pointer of an entry is storing under its key. -/
theorem of_exchanged (h : Refines hashOf t d) {u : ChainTable κ α} (hwf : u.WF hashOf) {key : κ}
    {v w : Option α} {rest : List (κ × Option α)} (hold : t.entries.Perm ((key, v) :: rest))
    (hnew : u.entries.Perm ((key, w) :: rest)) : Refines hashOf u (d.insert key w) := by
  have hmem : key ∈ d := by
    rw [← AList.lookup_isSome, h.mem_iff.mp (hold.mem_iff.mpr List.mem_cons_self)]
    rfl
  obtain ⟨b, l₁, l₂, hl₁, hd, hk⟩ := List.exists_of_kerase (AList.mem_keys.mp hmem)
  have hsplit : (d.entries.map fun e => (e.1, e.2)).Perm
      ((key, b) :: (List.kerase key d.entries).map fun e => (e.1, e.2)) := by
    rw [hk, hd]
    simp [List.perm_middle]
  have hb : b = v := by
    have hvb : (key, b) ∈ t.entries := (h.entries.trans hsplit).mem_iff.mpr List.mem_cons_self
    have hv := h.mem_iff.mp (hold.mem_iff.mpr List.mem_cons_self)
    rw [h.mem_iff, hv] at hvb
    exact (Option.some.inj hvb).symm
  subst hb
  have hrest := (hold.symm.trans (h.entries.trans hsplit)).cons_inv
  refine ⟨hwf, hnew.trans ?_⟩
  rw [AList.entries_insert, List.map_cons]
  exact hrest.cons _

theorem insertAt (h : Refines hashOf t d) {key : κ} (hno : key ∉ d) (v : Option α) :
    Refines hashOf (t.insertAt key (hashOf key) v).1 (d.insert key v) :=
  h.of_placed hno (insertAt_spec h.wf key v)

/-- A pointer is stored under a key whether or not the key was there. -/
theorem store (h : Refines hashOf t d) (key : κ) (v : Option α) :
    Refines hashOf ((t.queryInsert key (hashOf key)).1.setPointer
      (t.queryInsert key (hashOf key)).2 v) (d.insert key v) := by
  rcases queryInsert_spec h.wf key with ⟨hsame, hkey⟩ | ⟨hno, hplaced⟩
  · obtain ⟨hwf, rest, hold, hnew⟩ := setPointer_spec h.wf hkey v
    rw [hsame]
    exact h.of_exchanged hwf hold hnew
  · have hput := h.of_placed (h.absent_of_not_mem hno) hplaced
    obtain ⟨hwf, rest, hold, hnew⟩ := setPointer_spec hput.wf hplaced.key_eq v
    simpa using hput.of_exchanged hwf hold hnew

/-- A lookup returns what is stored under the key, and null where nothing is. -/
theorem query (h : Refines hashOf t d) {key : κ} (hhash : hashOf key ≠ 0) :
    t.query key (hashOf key) = some (d.lookup key).join := by
  rcases query_spec h.wf key hhash with ⟨v, hv, hq⟩ | ⟨hno, hq⟩
  · rw [hq, h.mem_iff.mp hv]
    rfl
  · rw [hq, AList.lookup_eq_none.mpr (h.absent_of_not_mem hno)]
    rfl

omit [DecidableEq κ] in
theorem size_eq (h : Refines hashOf t d) : t.size = d.keys.length := by
  rw [h.wf.size_eq, h.entries.length_eq]
  simp [AList.keys, List.keys]

end Refines

/-! ## Going through the entries -/

/-- What a slot shows: an entry without a pointer is passed over. -/
def Slot.visible (s : Slot κ α) : Option (κ × α) := s.key.bind fun k => s.pointer.map fun p => (k, p)

/-- The entries with a pointer, in slot order. -/
def visible (t : ChainTable κ α) : List (κ × α) := t.slots.filterMap Slot.visible

omit [DecidableEq κ] in
theorem mem_visible {key : κ} {p : α} : (key, p) ∈ t.visible ↔ (key, some p) ∈ t.entries := by
  simp only [visible, entries, List.mem_filterMap]
  constructor
  · rintro ⟨s, hs, hvis⟩
    refine ⟨s, hs, ?_⟩
    cases hk : s.key <;> cases hp : s.pointer <;>
      simp_all [Slot.visible, Slot.entry]
  · rintro ⟨s, hs, hentry⟩
    refine ⟨s, hs, ?_⟩
    cases hk : s.key <;> simp_all [Slot.visible, Slot.entry]

omit [DecidableEq κ] in
/-- The names of what is visible are among those of all entries, in order. -/
theorem visible_nodup (h : (t.entries.map Prod.fst).Nodup) : (t.visible.map Prod.fst).Nodup := by
  have hsub : (t.visible.map Prod.fst).Sublist (t.entries.map Prod.fst) := by
    rw [visible, entries, List.map_filterMap, List.map_filterMap]
    induction t.slots with
    | nil => exact .refl _
    | cons s slots ih =>
        simp only [List.filterMap_cons]
        cases hk : s.key with
        | none =>
            have hvis : s.visible = none := by simp [Slot.visible, hk]
            have hentry : s.entry = none := by simp [Slot.entry, hk]
            simpa [hvis, hentry] using ih
        | some k =>
            have hentry : s.entry = some (k, s.pointer) := by simp [Slot.entry, hk]
            cases hp : s.pointer with
            | none =>
                have hvis : s.visible = none := by simp [Slot.visible, hk, hp]
                simpa [hvis, hentry] using ih.cons k
            | some p =>
                have hvis : s.visible = some (k, p) := by simp [Slot.visible, hk, hp]
                simpa [hvis, hentry] using ih.cons_cons k
  exact hsub.nodup h

/-- The first slot with a pointer from `i` on. -/
def firstFrom (t : ChainTable κ α) : ℕ → ℕ → Option ℕ
  | 0, _ => none
  | fuel + 1, i => if (t.slot i).pointer.isSome then some i else firstFrom t fuel (i + 1)

/-- The slot behind the one that a key is found in, or the first one of all. -/
def nextSlot (hashOf : κ → ℕ) (t : ChainTable κ α) : Option κ → Option (Option ℕ)
  | none => some (t.firstFrom t.cap 0)
  | some key => (t.walk key (hashOf key) t.cap (t.home (hashOf key))).map fun found =>
      found.bind fun i => t.firstFrom (t.cap - (i + 1)) (i + 1)

/-- The entry behind the one of a key, or the first one of all. -/
def next (hashOf : κ → ℕ) (t : ChainTable κ α) (key : Option κ) : Option (Option (κ × α)) :=
  (t.nextSlot hashOf key).map fun found => found.bind fun i => (t.slot i).visible

/-- `Enumerates hashOf t key l`: going on from `key`, the entries `l` are visited,
and then there are no more. -/
inductive Enumerates (hashOf : κ → ℕ) (t : ChainTable κ α) : Option κ → List (κ × α) → Prop where
  | stop {key : Option κ} : t.next hashOf key = some none → Enumerates hashOf t key []
  | visit {key : Option κ} {e : κ × α} {l : List (κ × α)} :
      t.next hashOf key = some (some e) → Enumerates hashOf t (some e.1) l →
      Enumerates hashOf t key (e :: l)

theorem Enumerates.functional {key : Option κ} {l l' : List (κ × α)}
    (h : Enumerates hashOf t key l) (h' : Enumerates hashOf t key l') : l = l' := by
  induction h generalizing l' with
  | stop hnext =>
      cases h' with
      | stop => rfl
      | visit hnext' =>
          rw [hnext] at hnext'
          cases hnext'
  | visit hnext _ ih =>
      cases h' with
      | stop hnext' =>
          rw [hnext] at hnext'
          cases hnext'
      | visit hnext' hrest' =>
          obtain rfl := Option.some.inj (Option.some.inj (hnext.symm.trans hnext'))
          rw [ih hrest']

/-- Behind every key that is visited, the rest is what going on from that key visits. -/
private theorem Enumerates.suffix {key : Option κ} {l : List (κ × α)}
    (h : Enumerates hashOf t key l) {k : κ} (hk : k ∈ l.map Prod.fst) :
    ∃ p l', (k, p) :: l' <:+ l ∧ Enumerates hashOf t (some k) l' := by
  induction h with
  | stop => nomatch hk
  | @visit key e l _ hrest ih =>
      rcases List.mem_cons.mp hk with rfl | hk
      · exact ⟨e.2, l, List.suffix_refl _, hrest⟩
      · obtain ⟨q, l', hsuf, hl'⟩ := ih hk
        exact ⟨q, l', hsuf.trans (List.suffix_cons _ _), hl'⟩

/-- Going through the entries never visits a key twice, if it ends. -/
theorem Enumerates.nodup {key : Option κ} {l : List (κ × α)} (h : Enumerates hashOf t key l) :
    (l.map Prod.fst).Nodup := by
  induction h with
  | stop => exact List.nodup_nil
  | @visit key e l _ hrest ih =>
      rw [List.map_cons, List.nodup_cons]
      refine ⟨fun hmem => ?_, ih⟩
      obtain ⟨q, l', hsuf, hl'⟩ := hrest.suffix hmem
      have hlen := hsuf.length_le
      rw [hl'.functional hrest, List.length_cons] at hlen
      omega

/-- In a table that holds no key twice, a walk ends at the slot of its key. -/
private theorem walk_of_nodup (h : t.WF hashOf) (hnodup : (t.entries.map Prod.fst).Nodup) {i : ℕ}
    {key : κ} (hkey : (t.slot i).key = some key) :
    t.walk key (hashOf key) t.cap (t.home (hashOf key)) = some (some i) := by
  have hno : ¬ ∀ v, (key, v) ∉ t.entries := fun hno => hno _ (mem_entries.mpr ⟨i, hkey, rfl⟩)
  rcases walk_spec h key with ⟨-, hno'⟩ | ⟨j, hwalk, hj⟩ | ⟨-, hno'⟩
  · exact absurd hno' hno
  · obtain rfl : j = i := by
      by_contra hne
      have hi : i < t.cap := Taken.lt (i := i) (by simp [Taken, hkey])
      have hjlt : j < t.cap := Taken.lt (i := j) (by simp [Taken, hj])
      have hget : ∀ {n}, n < t.cap → t.slots[n]? = some (t.slot n) := fun {n} hn => by
        have hlt : n < t.slots.length := hn
        simp [slot, List.getElem?_eq_getElem hlt]
      -- two different slots with one key are two entries with that key
      have hpair : ∀ {m n : ℕ}, m < n → n < t.cap → (t.slot m).key = some key →
          (t.slot n).key = some key → False := by
        intro m n hmn hn hm hn'
        have hm' := Nat.lt_trans hmn hn
        have hsplit : t.entries.map Prod.fst = (t.slots.filterMap Slot.key) := by
          rw [entries, List.map_filterMap]
          congr 1
          funext s
          cases hs : s.key <;> simp [Slot.entry, hs]
        have htwo : [t.slot m, t.slot n].Sublist t.slots := by
          have hfirst : [t.slot m].Sublist (t.slots.take n) := by
            refine List.singleton_sublist.mpr (List.mem_iff_getElem?.mpr ⟨m, ?_⟩)
            rw [List.getElem?_take_of_lt hmn, hget hm']
          rw [slots_split hn]
          exact hfirst.append (by simp : [t.slot n].Sublist _)
        have := (htwo.filterMap Slot.key).nodup (hsplit ▸ hnodup)
        simp [hm, hn'] at this
      rcases Nat.lt_or_gt_of_ne hne with hlt | hgt
      · exact hpair hlt hi hj hkey
      · exact hpair hgt hjlt hkey hj
    exact hwalk
  · exact absurd hno' hno

omit [DecidableEq κ] in
/-- A slot with a pointer has a key. -/
private theorem key_of_pointer (h : t.WF hashOf) {i : ℕ} {p : α} (hp : (t.slot i).pointer = some p) :
    ∃ k, (t.slot i).key = some k := by
  refine Option.isSome_iff_exists.mp ?_
  by_contra hfree
  rw [h.clear i hfree] at hp
  cases hp

/-- A table that holds no key twice is gone through in slot order. -/
theorem enumerates_visible (h : t.WF hashOf) (hnodup : (t.entries.map Prod.fst).Nodup) :
    Enumerates hashOf t none t.visible := by
  have hfrom : ∀ (n i : ℕ) (key : Option κ), i + n = t.cap →
      t.nextSlot hashOf key = some (t.firstFrom n i) →
      Enumerates hashOf t key ((t.slots.drop i).filterMap Slot.visible) := by
    intro n
    induction n with
    | zero =>
        intro i key hcap hnext
        have hdrop : t.slots.drop i = [] := List.drop_eq_nil_of_le (by
          have : t.slots.length = t.cap := rfl
          omega)
        rw [hdrop]
        exact .stop (by rw [next, hnext]; rfl)
    | succ n ih =>
        intro i key hcap hnext
        have hi : i < t.slots.length := by
          have : t.slots.length = t.cap := rfl
          omega
        have hget : t.slots[i] = t.slot i := by simp [slot, List.getElem?_eq_getElem hi]
        rw [List.drop_eq_getElem_cons hi, hget]
        rw [firstFrom] at hnext
        cases hp : (t.slot i).pointer with
        | none =>
            have hvis : (t.slot i).visible = none := by
              cases hk : (t.slot i).key <;> simp [Slot.visible, hk, hp]
            rw [List.filterMap_cons_none hvis]
            exact ih (i + 1) key (by omega) (by simpa [hp] using hnext)
        | some p =>
            obtain ⟨k, hk⟩ := key_of_pointer h hp
            have hvis : (t.slot i).visible = some (k, p) := by simp [Slot.visible, hk, hp]
            rw [List.filterMap_cons_some hvis]
            have hstep : t.next hashOf key = some (some (k, p)) := by
              rw [next, hnext]
              simp [hp, hvis]
            refine .visit hstep (ih (i + 1) (some k) (by omega) ?_)
            have hn : t.cap - (i + 1) = n := by omega
            rw [nextSlot, walk_of_nodup h hnodup hk, Option.map_some, Option.bind_some, hn]
  simpa [visible] using hfrom t.cap 0 none (by omega) rfl

end ChainTable
