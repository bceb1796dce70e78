-- SUMMARY: Hash tables whose colliding entries are chained through the slots of the table itself, and what a lookup in one returns.
import Mathlib.Data.List.Perm.Subperm
import Mathlib.Data.List.Nodup
import HdClient.Base.Word

/-! # Coalesced hash tables

Every entry lives in a slot of one array whose length is a power of two. An
entry whose home slot is taken goes to the next free slot and is linked in
right behind the home slot, so that chains of different homes may run together.
A table may hold a key more than once. -/

namespace ChainTable

/-- A slot; `next` is zero at the end of a chain and the index plus one of the
following slot elsewhere. -/
structure Slot (κ α : Type) where
  key : Option κ
  hash : ℕ
  pointer : Option α
  next : ℕ

/-- What a fresh slot holds. -/
def Slot.clear {κ α : Type} : Slot κ α := ⟨none, 0, none, 0⟩

def Slot.setNext {κ α : Type} (s : Slot κ α) (next : ℕ) : Slot κ α := { s with next := next }

def Slot.setPointer {κ α : Type} (s : Slot κ α) (value : Option α) : Slot κ α :=
  { s with pointer := value }

@[simp] theorem Slot.key_setNext {κ α : Type} (s : Slot κ α) (n : ℕ) :
    (s.setNext n).key = s.key := rfl
@[simp] theorem Slot.hash_setNext {κ α : Type} (s : Slot κ α) (n : ℕ) :
    (s.setNext n).hash = s.hash := rfl
@[simp] theorem Slot.pointer_setNext {κ α : Type} (s : Slot κ α) (n : ℕ) :
    (s.setNext n).pointer = s.pointer := rfl
@[simp] theorem Slot.next_setNext {κ α : Type} (s : Slot κ α) (n : ℕ) :
    (s.setNext n).next = n := rfl

end ChainTable

/-- A table; its capacity is the number of its slots. -/
structure ChainTable (κ α : Type) where
  size : ℕ
  slots : List (ChainTable.Slot κ α)

namespace ChainTable

variable {κ α : Type}

def cap (t : ChainTable κ α) : ℕ := t.slots.length

/-- The slot with index `i`. -/
def slot (t : ChainTable κ α) (i : ℕ) : Slot κ α := t.slots.getD i Slot.clear

def setSlot (t : ChainTable κ α) (i : ℕ) (s : Slot κ α) : ChainTable κ α :=
  { t with slots := t.slots.set i s }

def setSize (t : ChainTable κ α) (size : ℕ) : ChainTable κ α := { t with size := size }

/-- The slot where the chain of a hash begins. -/
def home (t : ChainTable κ α) (hash : ℕ) : ℕ := hash &&& (t.cap - 1)

/-- A table without entries. -/
def empty (cap : ℕ) : ChainTable κ α := ⟨0, List.replicate cap Slot.clear⟩

/-! ## Operations -/

/-- The first free slot from `i` on, going round. -/
def probe (t : ChainTable κ α) : ℕ → ℕ → ℕ
  | 0, i => i
  | fuel + 1, i =>
      if (t.slot i).key.isSome then probe t fuel ((i + 1) &&& (t.cap - 1)) else i

/-- Put an entry into a table that has room, and return the slot it went to. -/
def place (t : ChainTable κ α) (key : κ) (hash : ℕ) (value : Option α) :
    ChainTable κ α × ℕ :=
  let h := t.home hash
  if (t.slot h).key.isNone then
    ((t.setSlot h ⟨some key, hash, value, (t.slot h).next⟩).setSize (t.size + 1), h)
  else
    let e := t.probe t.cap ((h + 1) &&& (t.cap - 1))
    let t' := t.setSlot e ⟨some key, hash, value, (t.slot h).next⟩
    ((t'.setSlot h ((t'.slot h).setNext (e + 1))).setSize (t.size + 1), e)

/-- Place what the slots `ss` hold, one after the other. -/
def refill (t : ChainTable κ α) : List (Slot κ α) → ChainTable κ α
  | [] => t
  | s :: ss => match s.key with
      | some key => refill (t.place key s.hash s.pointer).1 ss
      | none => refill t ss

/-- The entries of a full table in a table of twice the capacity. -/
def rehash (t : ChainTable κ α) : ChainTable κ α :=
  (empty (t.cap * 2)).refill (t.slots.take t.size)

/-- Put in an entry, growing the table when it is full. -/
def insertAt (t : ChainTable κ α) (key : κ) (hash : ℕ) (value : Option α) :
    ChainTable κ α × ℕ :=
  if t.size < t.cap then t.place key hash value else t.rehash.place key hash value

variable [DecidableEq κ]

/-- Follow a chain from slot `i` in search of `key`. The outer `none` is the
comparison of a key with one that is not there. -/
def walk (t : ChainTable κ α) (key : κ) (hash : ℕ) : ℕ → ℕ → Option (Option ℕ)
  | 0, _ => some none
  | fuel + 1, i =>
      if (t.slot i).hash = hash ∧ (t.slot i).key = none then none
      else if (t.slot i).hash = hash ∧ (t.slot i).key = some key then some (some i)
      else match (t.slot i).next with
        | 0 => some none
        | j + 1 => walk t key hash fuel j

/-- The pointer stored under `key`, if any. -/
def query (t : ChainTable κ α) (key : κ) (hash : ℕ) : Option (Option α) :=
  (t.walk key hash t.cap (t.home hash)).map fun found => found.bind fun i => (t.slot i).pointer

/-- `walk` in a table that has outlived the keys of `freed`: to compare with one of
them has no defined effect either. -/
def walkLive (t : ChainTable κ α) (freed : List κ) (key : κ) (hash : ℕ) :
    ℕ → ℕ → Option (Option ℕ)
  | 0, _ => some none
  | fuel + 1, i =>
      if (t.slot i).hash = hash ∧ ∀ k ∈ (t.slot i).key, k ∈ freed then none
      else if (t.slot i).hash = hash ∧ (t.slot i).key = some key then some (some i)
      else match (t.slot i).next with
        | 0 => some none
        | j + 1 => walkLive t freed key hash fuel j

/-- The pointer stored under `key`, if any, where the keys of `freed` are gone. -/
def queryLive (t : ChainTable κ α) (freed : List κ) (key : κ) (hash : ℕ) :
    Option (Option α) :=
  (t.walkLive freed key hash t.cap (t.home hash)).map fun found =>
    found.bind fun i => (t.slot i).pointer

/-- The slot of `key`, after putting the key in without a pointer where it is missing. -/
def queryInsert (t : ChainTable κ α) (key : κ) (hash : ℕ) : ChainTable κ α × ℕ :=
  if (t.slot (t.home hash)).key.isNone then t.insertAt key hash none
  else match t.walk key hash t.cap (t.home hash) with
    | some (some i) => (t, i)
    | _ => t.insertAt key hash none

/-- Store a pointer in slot `i`. -/
def setPointer (t : ChainTable κ α) (i : ℕ) (value : Option α) : ChainTable κ α :=
  t.setSlot i ((t.slot i).setPointer value)

/-! ## Slots -/

omit [DecidableEq κ] in
theorem slot_setSlot (t : ChainTable κ α) {i : ℕ} (hi : i < t.cap) (s : Slot κ α) (j : ℕ) :
    (t.setSlot i s).slot j = if j = i then s else t.slot j := by
  simp only [slot, setSlot, List.getD_eq_getElem?_getD]
  by_cases h : j = i
  · subst h
    rw [if_pos rfl, List.getElem?_set_self hi]
    rfl
  · rw [if_neg h, List.getElem?_set_ne (Ne.symm h)]

omit [DecidableEq κ] in
@[simp] theorem cap_setSlot (t : ChainTable κ α) (i : ℕ) (s : Slot κ α) :
    (t.setSlot i s).cap = t.cap := by
  simp [cap, setSlot]

omit [DecidableEq κ] in
theorem slot_of_ge {t : ChainTable κ α} {i : ℕ} (h : t.cap ≤ i) : t.slot i = Slot.clear := by
  simp [slot, List.getElem?_eq_none h]

/-- A slot that holds an entry. -/
def Taken (t : ChainTable κ α) (i : ℕ) : Prop := (t.slot i).key.isSome = true

omit [DecidableEq κ] in
theorem Taken.lt {t : ChainTable κ α} {i : ℕ} (h : t.Taken i) : i < t.cap := by
  by_contra hge
  simp [Taken, slot_of_ge (Nat.le_of_not_lt hge), Slot.clear] at h

omit [DecidableEq κ] in
theorem Taken.isNone_eq {t : ChainTable κ α} {i : ℕ} (h : t.Taken i) :
    (t.slot i).key.isNone = false := by
  obtain ⟨k, hk⟩ := Option.isSome_iff_exists.mp h
  simp [hk]

/-! ## Chains -/

/-- `Chain t i l`: from slot `i` on, the chain runs through the slots `l` and ends. -/
inductive Chain (t : ChainTable κ α) : ℕ → List ℕ → Prop where
  | last {i : ℕ} : t.Taken i → (t.slot i).next = 0 → Chain t i [i]
  | link {i j : ℕ} {l : List ℕ} :
      t.Taken i → (t.slot i).next = j + 1 → Chain t j l → Chain t i (i :: l)

namespace Chain

omit [DecidableEq κ]

theorem head_mem {t : ChainTable κ α} {i : ℕ} {l : List ℕ} (h : t.Chain i l) : i ∈ l := by
  cases h <;> exact List.mem_cons_self

theorem taken {t : ChainTable κ α} {i j : ℕ} {l : List ℕ} (h : t.Chain i l) (hj : j ∈ l) :
    t.Taken j := by
  induction h with
  | last hi _ =>
      obtain rfl := List.mem_singleton.mp hj
      exact hi
  | link hi _ _ ih =>
      rcases List.mem_cons.mp hj with rfl | hj
      · exact hi
      · exact ih hj

/-- A slot begins one chain only. -/
theorem unique {t : ChainTable κ α} {i : ℕ} {l l' : List ℕ} (h : t.Chain i l)
    (h' : t.Chain i l') : l = l' := by
  induction h generalizing l' with
  | last _ hnext =>
      cases h' with
      | last _ _ => rfl
      | link _ hnext' _ => omega
  | link _ hnext _ ih =>
      cases h' with
      | last _ hnext' => omega
      | link _ hnext' h' =>
          obtain rfl : _ = _ := Nat.succ.inj (hnext.symm.trans hnext')
          rw [ih h']

/-- Every slot of a chain begins a chain that is part of it. -/
theorem suffix {t : ChainTable κ α} {i j : ℕ} {l : List ℕ} (h : t.Chain i l) (hj : j ∈ l) :
    ∃ l', t.Chain j l' ∧ l' <:+ l := by
  induction h with
  | last hi hnext =>
      obtain rfl := List.mem_singleton.mp hj
      exact ⟨_, .last hi hnext, List.suffix_refl _⟩
  | link hi hnext h ih =>
      rcases List.mem_cons.mp hj with rfl | hj
      · exact ⟨_, .link hi hnext h, List.suffix_refl _⟩
      · obtain ⟨l', hl', hsuf⟩ := ih hj
        exact ⟨l', hl', hsuf.trans (List.suffix_cons _ _)⟩

theorem nodup {t : ChainTable κ α} {i : ℕ} {l : List ℕ} (h : t.Chain i l) : l.Nodup := by
  induction h with
  | last _ _ => simp
  | @link i j l hi hnext h ih =>
      refine List.nodup_cons.mpr ⟨fun hmem => ?_, ih⟩
      obtain ⟨l', hl', hsuf⟩ := h.suffix hmem
      obtain rfl : l' = i :: l := hl'.unique (.link hi hnext h)
      have hlen := hsuf.length_le
      rw [List.length_cons] at hlen
      omega

theorem length_le {t : ChainTable κ α} {i : ℕ} {l : List ℕ} (h : t.Chain i l) :
    l.length ≤ t.cap := by
  have hsub : l ⊆ List.range t.cap := fun j hj => List.mem_range.mpr (h.taken hj).lt
  simpa using (List.subperm_of_subset h.nodup hsub).length_le

end Chain

/-! ## Walking a chain -/

/-- Along a chain whose hashes are right, a walk finds the first slot with the key. -/
theorem walk_eq_find {t : ChainTable κ α} {hashOf : κ → ℕ}
    (hhash : ∀ j k, (t.slot j).key = some k → (t.slot j).hash = hashOf k) (key : κ)
    {i : ℕ} {l : List ℕ} (h : t.Chain i l) {fuel : ℕ} (hfuel : l.length ≤ fuel) :
    t.walk key (hashOf key) fuel i = some (l.find? fun j => (t.slot j).key = some key) := by
  have hstep : ∀ {j : ℕ}, t.Taken j →
      ¬ ((t.slot j).hash = hashOf key ∧ (t.slot j).key = none) ∧
      ((t.slot j).hash = hashOf key ∧ (t.slot j).key = some key ↔ (t.slot j).key = some key) := by
    intro j hj
    refine ⟨fun hnone => ?_, fun hkey => hkey.2, fun hkey => ⟨hhash j key hkey, hkey⟩⟩
    simp [Taken, hnone.2] at hj
  induction h generalizing fuel with
  | @last i hi hnext =>
      obtain ⟨f, rfl⟩ : ∃ f, fuel = f + 1 := ⟨fuel - 1, by simp at hfuel; omega⟩
      obtain ⟨hne, hiff⟩ := hstep hi
      simp only [walk, if_neg hne, hiff, hnext, List.find?_singleton]
      split <;> simp_all
  | @link i j l hi hnext h ih =>
      obtain ⟨f, rfl⟩ : ∃ f, fuel = f + 1 := ⟨fuel - 1, by simp at hfuel; omega⟩
      obtain ⟨hne, hiff⟩ := hstep hi
      simp only [walk, if_neg hne, hiff, hnext, List.find?_cons]
      split
      · simp_all
      · simp_all

/-- A walk that compares with no key that is gone is one of the table as it was. -/
theorem walk_of_walkLive {t : ChainTable κ α} {freed : List κ} {key : κ} {hash fuel i : ℕ}
    {r : Option ℕ} (h : t.walkLive freed key hash fuel i = some r) :
    t.walk key hash fuel i = some r := by
  induction fuel generalizing i with
  | zero => exact h
  | succ fuel ih =>
      rw [walkLive] at h
      split at h
      · cases h
      · rename_i hlive
        have hsome : ¬ ((t.slot i).hash = hash ∧ (t.slot i).key = none) := fun hnone =>
          hlive ⟨hnone.1, by simp [hnone.2]⟩
        rw [walk, if_neg hsome]
        split at h
        · rename_i hfound
          rw [if_pos hfound]
          exact h
        · rename_i hother
          rw [if_neg hother]
          cases hnext : (t.slot i).next with
          | zero =>
              rw [hnext] at h
              exact h
          | succ j =>
              rw [hnext] at h
              exact ih h

/-- Where no key that is gone has the hash in question, none is missed. -/
theorem walkLive_of_hash {t : ChainTable κ α} {hashOf : κ → ℕ}
    (hhash : ∀ j k, (t.slot j).key = some k → (t.slot j).hash = hashOf k) {freed : List κ}
    {key : κ} (hfreed : ∀ k ∈ freed, hashOf k ≠ hashOf key) (fuel i : ℕ) :
    t.walkLive freed key (hashOf key) fuel i = t.walk key (hashOf key) fuel i := by
  induction fuel generalizing i with
  | zero => rfl
  | succ fuel ih =>
      have hiff : ((t.slot i).hash = hashOf key ∧ ∀ k ∈ (t.slot i).key, k ∈ freed) ↔
          ((t.slot i).hash = hashOf key ∧ (t.slot i).key = none) := by
        refine and_congr_right fun hi => ?_
        cases hk : (t.slot i).key with
        | none => simp
        | some k =>
            have hgone : k ∉ freed := fun hmem => hfreed k hmem ((hhash i k hk).symm.trans hi)
            simp [hgone]
      rw [walkLive, walk]
      simp only [hiff, ih]

theorem query_of_queryLive {t : ChainTable κ α} {freed : List κ} {key : κ} {hash : ℕ}
    {r : Option α} (h : t.queryLive freed key hash = some r) : t.query key hash = some r := by
  obtain ⟨found, hwalk, hr⟩ := Option.map_eq_some_iff.mp h
  rw [query, walk_of_walkLive hwalk, Option.map_some, hr]

theorem queryLive_of_hash {t : ChainTable κ α} {hashOf : κ → ℕ}
    (hhash : ∀ j k, (t.slot j).key = some k → (t.slot j).hash = hashOf k) {freed : List κ}
    {key : κ} (hfreed : ∀ k ∈ freed, hashOf k ≠ hashOf key) :
    t.queryLive freed key (hashOf key) = t.query key (hashOf key) := by
  rw [queryLive, walkLive_of_hash hhash hfreed, query]

/-! ## Entries -/

omit [DecidableEq κ]

/-- What a slot holds. -/
def Slot.entry (s : Slot κ α) : Option (κ × Option α) := s.key.map fun k => (k, s.pointer)

/-- The keys of a table with their pointers, in slot order. -/
def entries (t : ChainTable κ α) : List (κ × Option α) := t.slots.filterMap Slot.entry

theorem slots_split {t : ChainTable κ α} {i : ℕ} (hi : i < t.cap) :
    t.slots = t.slots.take i ++ t.slot i :: t.slots.drop (i + 1) := by
  have hlt : i < t.slots.length := hi
  have hget : t.slot i = t.slots[i] := by
    simp [slot, List.getElem?_eq_getElem hlt]
  rw [hget, ← List.drop_eq_getElem_cons hlt, List.take_append_drop]

theorem slots_setSlot {t : ChainTable κ α} {i : ℕ} (hi : i < t.cap) (s : Slot κ α) :
    (t.setSlot i s).slots = t.slots.take i ++ s :: t.slots.drop (i + 1) :=
  List.set_eq_take_append_cons_drop.trans (if_pos hi)

theorem mem_entries {t : ChainTable κ α} {k : κ} {v : Option α} :
    (k, v) ∈ t.entries ↔ ∃ i, (t.slot i).key = some k ∧ (t.slot i).pointer = v := by
  constructor
  · intro h
    obtain ⟨s, hs, hentry⟩ := List.mem_filterMap.mp h
    obtain ⟨i, hi, rfl⟩ := List.mem_iff_getElem.mp hs
    refine ⟨i, ?_⟩
    have hget : t.slot i = t.slots[i] := by simp [slot, List.getElem?_eq_getElem hi]
    rw [hget]
    cases hkey : t.slots[i].key with
    | none => simp [Slot.entry, hkey] at hentry
    | some k' => simpa [Slot.entry, hkey] using hentry
  · rintro ⟨i, hk, hv⟩
    have hi : i < t.cap := Taken.lt (i := i) (by simp [Taken, hk])
    refine List.mem_filterMap.mpr ⟨t.slot i, ?_, by simp [Slot.entry, hk, hv]⟩
    rw [slots_split hi]
    simp

/-- Replacing a slot exchanges what it holds. -/
theorem entries_setSlot {t : ChainTable κ α} {i : ℕ} (hi : i < t.cap) (s : Slot κ α) :
    ∃ rest, t.entries.Perm ((t.slot i).entry.toList ++ rest) ∧
      (t.setSlot i s).entries.Perm (s.entry.toList ++ rest) := by
  refine ⟨(t.slots.take i).filterMap Slot.entry ++ (t.slots.drop (i + 1)).filterMap Slot.entry,
    ?_, ?_⟩
  · have h : t.entries = (t.slots.take i).filterMap Slot.entry ++
        ((t.slot i).entry.toList ++ (t.slots.drop (i + 1)).filterMap Slot.entry) := by
      conv_lhs => rw [entries, slots_split hi]
      cases hs : (t.slot i).entry <;> simp [hs]
    rw [h]
    exact List.perm_append_comm_assoc _ _ _
  · have h : (t.setSlot i s).entries = (t.slots.take i).filterMap Slot.entry ++
        (s.entry.toList ++ (t.slots.drop (i + 1)).filterMap Slot.entry) := by
      rw [entries, slots_setSlot hi]
      cases hs : s.entry <;> simp [hs]
    rw [h]
    exact List.perm_append_comm_assoc _ _ _

theorem entries_setSlot_same {t : ChainTable κ α} {i : ℕ} (hi : i < t.cap) {s : Slot κ α}
    (h : s.entry = (t.slot i).entry) : (t.setSlot i s).entries.Perm t.entries := by
  obtain ⟨rest, hold, hnew⟩ := entries_setSlot hi s
  rw [h] at hnew
  exact hnew.trans hold.symm

theorem entries_setSlot_free {t : ChainTable κ α} {i : ℕ} (hi : i < t.cap) (hfree : ¬ t.Taken i)
    (k : κ) (hash : ℕ) (v : Option α) (next : ℕ) :
    (t.setSlot i ⟨some k, hash, v, next⟩).entries.Perm ((k, v) :: t.entries) := by
  obtain ⟨rest, hold, hnew⟩ := entries_setSlot hi ⟨some k, hash, v, next⟩
  have hnone : (t.slot i).entry = none := by
    have : (t.slot i).key = none := by simpa [Taken] using hfree
    simp [Slot.entry, this]
  rw [hnone] at hold
  exact hnew.trans (hold.symm.cons _)

theorem entries_length_le (t : ChainTable κ α) : t.entries.length ≤ t.cap :=
  List.length_filterMap_le _ _

/-- A table with fewer entries than slots has a free slot. -/
theorem exists_free {t : ChainTable κ α} (h : t.entries.length < t.cap) :
    ∃ i < t.cap, ¬ t.Taken i := by
  by_contra hall
  simp only [not_exists, not_and, not_not] at hall
  have hsome : ∀ s ∈ t.slots, (Slot.entry s).isSome = true := by
    intro s hs
    obtain ⟨i, hi, rfl⟩ := List.mem_iff_getElem.mp hs
    have := hall i hi
    simp only [Taken, slot, List.getD_eq_getElem?_getD, List.getElem?_eq_getElem hi,
      Option.getD_some] at this
    simpa [Slot.entry] using this
  have hlen : t.entries.length = t.slots.length :=
    List.length_filterMap_eq_countP.trans (List.countP_eq_length.mpr hsome)
  exact absurd hlen (Nat.ne_of_lt h)

/-! ## Well-formed tables -/

/-- The invariant of a table: an entry is found on the chain of its home slot. -/
structure WF (hashOf : κ → ℕ) (t : ChainTable κ α) : Prop where
  cap_pow : ∃ k, t.cap = 2 ^ k
  clear : ∀ i, ¬ t.Taken i → t.slot i = Slot.clear
  hash_eq : ∀ i k, (t.slot i).key = some k → (t.slot i).hash = hashOf k
  reach : ∀ i, t.Taken i → ∃ l, t.Chain (t.home (t.slot i).hash) l ∧ i ∈ l
  size_eq : t.size = t.entries.length

theorem slot_empty (cap i : ℕ) : (empty cap : ChainTable κ α).slot i = Slot.clear := by
  simp [slot, empty, List.getElem?_replicate]
  split <;> rfl

theorem not_taken_empty (cap i : ℕ) : ¬ (empty cap : ChainTable κ α).Taken i := by
  simp [Taken, slot_empty, Slot.clear]

@[simp] theorem entries_empty (cap : ℕ) : (empty cap : ChainTable κ α).entries = [] := by
  simp [entries, empty, Slot.entry, Slot.clear]

@[simp] theorem cap_empty (n : ℕ) : (empty n : ChainTable κ α).cap = n := by
  simp [cap, empty]

theorem wf_empty (hashOf : κ → ℕ) (k : ℕ) : (empty (2 ^ k) : ChainTable κ α).WF hashOf where
  cap_pow := ⟨k, by simp⟩
  clear i _ := slot_empty _ i
  hash_eq i k h := by simp [slot_empty, Slot.clear] at h
  reach i h := absurd h (not_taken_empty _ i)
  size_eq := by rw [entries_empty]; rfl

namespace WF

variable {hashOf : κ → ℕ} {t : ChainTable κ α}

theorem cap_pos (h : t.WF hashOf) : 0 < t.cap := by
  obtain ⟨k, hk⟩ := h.cap_pow
  rw [hk]
  exact Nat.two_pow_pos k

theorem and_cap (h : t.WF hashOf) (n : ℕ) : n &&& (t.cap - 1) = n % t.cap := by
  obtain ⟨k, hk⟩ := h.cap_pow
  rw [hk]
  exact Word.and_low_mask n k

theorem home_lt (h : t.WF hashOf) (hash : ℕ) : t.home hash < t.cap := by
  rw [home, h.and_cap]
  exact Nat.mod_lt _ h.cap_pos

/-- Every entry begins a chain. -/
theorem chain (h : t.WF hashOf) {i : ℕ} (hi : t.Taken i) : ∃ l, t.Chain i l := by
  obtain ⟨l, hl, hmem⟩ := h.reach i hi
  obtain ⟨l', hl', -⟩ := hl.suffix hmem
  exact ⟨l', hl'⟩

end WF

/-! ## Probing -/

/-- Going round, a probe stops at a free slot if there is one. -/
theorem probe_free {hashOf : κ → ℕ} {t : ChainTable κ α} (h : t.WF hashOf) {fuel i d : ℕ}
    (hi : i < t.cap) (hd : d < fuel) (hfree : ¬ t.Taken ((i + d) % t.cap)) :
    ¬ t.Taken (t.probe fuel i) ∧ t.probe fuel i < t.cap := by
  induction fuel generalizing i d with
  | zero => omega
  | succ fuel ih =>
      simp only [probe]
      split
      · rename_i htaken
        have hdpos : d ≠ 0 := by
          rintro rfl
          rw [Nat.add_zero, Nat.mod_eq_of_lt hi] at hfree
          exact hfree htaken
        rw [h.and_cap]
        refine ih (d := d - 1) (Nat.mod_lt _ h.cap_pos) (by omega) ?_
        rw [Nat.mod_add_mod]
        have hsum : i + 1 + (d - 1) = i + d := by omega
        rwa [hsum]
      · rename_i hnot
        exact ⟨hnot, hi⟩

theorem probe_cap_free {hashOf : κ → ℕ} {t : ChainTable κ α} (h : t.WF hashOf)
    (hroom : t.size < t.cap) {i : ℕ} (hi : i < t.cap) :
    ¬ t.Taken (t.probe t.cap i) ∧ t.probe t.cap i < t.cap := by
  rw [h.size_eq] at hroom
  obtain ⟨f, hf, hfree⟩ := exists_free hroom
  refine probe_free h hi (d := (f + (t.cap - i)) % t.cap) (Nat.mod_lt _ h.cap_pos) ?_
  have hsum : (i + (f + (t.cap - i)) % t.cap) % t.cap = f := by
    rw [Nat.add_mod_mod]
    have : i + (f + (t.cap - i)) = f + t.cap := by omega
    rw [this, Nat.add_mod_right, Nat.mod_eq_of_lt hf]
  rwa [hsum]

/-! ## Placing an entry -/

/-- The chain `l` with `e` linked in behind `h`. -/
def linkBehind (h e : ℕ) (l : List ℕ) : List ℕ :=
  l.flatMap fun j => if j = h then [j, e] else [j]

theorem mem_linkBehind {h e j : ℕ} {l : List ℕ} (hj : j ∈ l) : j ∈ linkBehind h e l := by
  refine List.mem_flatMap.mpr ⟨j, hj, ?_⟩
  split <;> simp

theorem new_mem_linkBehind {h e : ℕ} {l : List ℕ} (hh : h ∈ l) :
    e ∈ linkBehind h e l :=
  List.mem_flatMap.mpr ⟨h, hh, by simp⟩

/-- A search that does not stop at the new slot does not notice it. -/
theorem find?_linkBehind {p : ℕ → Bool} {h e : ℕ} (he : p e = false) (l : List ℕ) :
    (linkBehind h e l).find? p = l.find? p := by
  induction l with
  | nil => rfl
  | cons j l ih =>
      rw [linkBehind, List.flatMap_cons, ← linkBehind, List.find?_append, ih]
      by_cases hj : p j
      · split <;> simp [hj]
      · split <;> simp [hj, he]

/-- Chains do not notice a change to a slot that is not on them. -/
theorem Chain.congr {t u : ChainTable κ α} {i : ℕ} {l : List ℕ} (h : t.Chain i l)
    (hsame : ∀ j ∈ l, u.slot j = t.slot j) : u.Chain i l := by
  induction h with
  | @last i hi hnext =>
      have hslot := hsame i List.mem_cons_self
      exact .last (by rwa [Taken, hslot]) (by rwa [hslot])
  | @link i j l hi hnext _ ih =>
      have hslot := hsame i List.mem_cons_self
      exact .link (by rwa [Taken, hslot]) (by rwa [hslot])
        (ih fun j' hj' => hsame j' (List.mem_cons_of_mem _ hj'))

/-- Linking a new slot in behind `h` lengthens the chains through `h` by that slot. -/
theorem Chain.linkBehind {t u : ChainTable κ α} {h e : ℕ}
    (he : u.Taken e) (hh : u.Taken h) (hnext : (u.slot h).next = e + 1)
    (henext : (u.slot e).next = (t.slot h).next)
    (hother : ∀ j, j ≠ h → t.Taken j → u.slot j = t.slot j) {i : ℕ} {l : List ℕ}
    (hl : t.Chain i l) : u.Chain i (ChainTable.linkBehind h e l) := by
  induction hl with
  | @last i hi hlast =>
      by_cases hih : i = h
      · subst hih
        simpa [ChainTable.linkBehind] using
          Chain.link hh hnext (.last he (henext.trans hlast))
      · have hslot := hother i hih hi
        simpa [ChainTable.linkBehind, hih] using
          Chain.last (t := u) (i := i) (by rwa [Taken, hslot]) (by rwa [hslot])
  | @link i j l hi hlink _ ih =>
      by_cases hih : i = h
      · subst hih
        simpa [ChainTable.linkBehind] using
          Chain.link hh hnext (.link he (henext.trans hlink) ih)
      · have hslot := hother i hih hi
        simpa [ChainTable.linkBehind, hih] using
          Chain.link (t := u) (i := i) (by rwa [Taken, hslot]) (by rwa [hslot]) ih

variable {hashOf : κ → ℕ} {t : ChainTable κ α}

@[simp] theorem cap_place (t : ChainTable κ α) (key : κ) (hash : ℕ) (value : Option α) :
    (t.place key hash value).1.cap = t.cap := by
  simp only [place]
  split <;> simp [cap, setSlot, setSize]

theorem size_place (t : ChainTable κ α) (key : κ) (hash : ℕ) (value : Option α) :
    (t.place key hash value).1.size = t.size + 1 := by
  simp only [place]
  split <;> rfl

theorem home_congr {u : ChainTable κ α} (hcap : u.cap = t.cap) (hash : ℕ) :
    u.home hash = t.home hash := by
  rw [home, home, hcap]

/-- The invariant after a free home slot has taken an entry. -/
private theorem WF.of_home (h : t.WF hashOf) {u : ChainTable κ α} {H : ℕ} {s : Slot κ α}
    {key : κ} (hcap : u.cap = t.cap) (hsize : u.size = u.entries.length)
    (hslot : ∀ j, u.slot j = if j = H then s else t.slot j)
    (hH : t.home (hashOf key) = H) (hfree : ¬ t.Taken H)
    (hkey : s.key = some key) (hhash : s.hash = hashOf key) (hnext : s.next = 0) :
    u.WF hashOf := by
  have htaken : ∀ j, u.Taken j ↔ j = H ∨ t.Taken j := by
    intro j
    by_cases hj : j = H <;> simp [Taken, hslot, hj, hkey]
  refine ⟨hcap ▸ h.cap_pow, ?_, ?_, ?_, hsize⟩
  · intro j hj
    obtain ⟨hjH, hjt⟩ := not_or.mp (mt (htaken j).mpr hj)
    rw [hslot, if_neg hjH]
    exact h.clear j hjt
  · intro j k hk
    rw [hslot] at hk ⊢
    by_cases hjH : j = H
    · rw [if_pos hjH] at hk ⊢
      obtain rfl : key = k := Option.some.inj (hkey.symm.trans hk)
      exact hhash
    · rw [if_neg hjH] at hk ⊢
      exact h.hash_eq j k hk
  · intro j hj
    rw [home_congr hcap, hslot]
    by_cases hjH : j = H
    · refine ⟨[j], ?_, List.mem_singleton_self j⟩
      rw [if_pos hjH, hhash, hH, ← hjH]
      exact .last hj (by rw [hslot, if_pos hjH, hnext])
    · obtain ⟨l, hl, hmem⟩ := h.reach j (((htaken j).mp hj).resolve_left hjH)
      rw [if_neg hjH]
      refine ⟨l, hl.congr fun j' hj' => ?_, hmem⟩
      rw [hslot, if_neg]
      rintro rfl
      exact hfree (hl.taken hj')

/-- The chains after an entry has been linked in behind slot `H`. -/
theorem chain_place_linked {u : ChainTable κ α} {H e : ℕ} {key : κ} {v : Option α}
    (hslot : ∀ j, u.slot j = if j = H then (t.slot H).setNext (e + 1)
      else if j = e then ⟨some key, hashOf key, v, (t.slot H).next⟩ else t.slot j)
    (hfree : ¬ t.Taken e) (htH : t.Taken H) {i : ℕ} {l : List ℕ} (hl : t.Chain i l) :
    u.Chain i (linkBehind H e l) := by
  have heH : e ≠ H := fun heq => hfree (heq ▸ htH)
  have hslotH : u.slot H = (t.slot H).setNext (e + 1) := by rw [hslot, if_pos rfl]
  have hslote : u.slot e = ⟨some key, hashOf key, v, (t.slot H).next⟩ := by
    rw [hslot, if_neg heH, if_pos rfl]
  refine hl.linkBehind (by simp [Taken, hslote]) ?_ (by rw [hslotH, Slot.next_setNext])
    (by rw [hslote]) fun j hjH hjt => ?_
  · rw [Taken, hslotH]
    exact htH
  · rw [hslot, if_neg hjH, if_neg]
    rintro rfl
    exact hfree hjt

/-- The invariant after an entry has been linked in behind its home slot. -/
private theorem WF.of_linked (h : t.WF hashOf) {u : ChainTable κ α} {H e : ℕ} {key : κ}
    {v : Option α} (hcap : u.cap = t.cap) (hsize : u.size = u.entries.length)
    (hslot : ∀ j, u.slot j = if j = H then (t.slot H).setNext (e + 1)
      else if j = e then ⟨some key, hashOf key, v, (t.slot H).next⟩ else t.slot j)
    (hH : t.home (hashOf key) = H) (htH : t.Taken H) (hfree : ¬ t.Taken e) :
    u.WF hashOf := by
  have heH : e ≠ H := fun heq => hfree (heq ▸ htH)
  have hslotH : u.slot H = (t.slot H).setNext (e + 1) := by rw [hslot, if_pos rfl]
  have hslote : u.slot e = ⟨some key, hashOf key, v, (t.slot H).next⟩ := by
    rw [hslot, if_neg heH, if_pos rfl]
  have hother : ∀ j, j ≠ H → t.Taken j → u.slot j = t.slot j := by
    intro j hjH hjt
    rw [hslot, if_neg hjH, if_neg]
    rintro rfl
    exact hfree hjt
  have huH : u.Taken H := by
    rw [Taken, hslotH]
    exact htH
  have hue : u.Taken e := by simp [Taken, hslote]
  have hchain : ∀ {i l}, t.Chain i l → u.Chain i (linkBehind H e l) :=
    chain_place_linked hslot hfree htH
  have htaken : ∀ j, u.Taken j → j = e ∨ t.Taken j := by
    intro j hj
    by_cases hje : j = e
    · exact .inl hje
    · by_cases hjH : j = H
      · exact .inr (hjH ▸ htH)
      · rw [Taken, hslot, if_neg hjH, if_neg hje] at hj
        exact .inr hj
  refine ⟨hcap ▸ h.cap_pow, ?_, ?_, ?_, hsize⟩
  · intro j hj
    have hje : j ≠ e := by
      rintro rfl
      exact hj hue
    have hjH : j ≠ H := by
      rintro rfl
      exact hj huH
    rw [hslot, if_neg hjH, if_neg hje]
    refine h.clear j fun hjt => hj ?_
    rw [Taken, hother j hjH hjt]
    exact hjt
  · intro j k hk
    by_cases hjH : j = H
    · subst hjH
      rw [hslotH] at hk ⊢
      exact h.hash_eq j k hk
    · by_cases hje : j = e
      · subst hje
        rw [hslote] at hk ⊢
        exact congrArg hashOf (Option.some.inj hk)
      · rw [hslot, if_neg hjH, if_neg hje] at hk ⊢
        exact h.hash_eq j k hk
  · intro j hj
    rw [home_congr hcap]
    rcases htaken j hj with rfl | hjt
    · obtain ⟨l, hl⟩ := h.chain htH
      rw [hslote, hH]
      exact ⟨_, hchain hl, new_mem_linkBehind hl.head_mem⟩
    · obtain ⟨l, hl, hmem⟩ := h.reach j hjt
      have hhash : (u.slot j).hash = (t.slot j).hash := by
        by_cases hjH : j = H
        · rw [hjH, hslotH, Slot.hash_setNext]
        · rw [hother j hjH hjt]
      rw [hhash]
      exact ⟨_, hchain hl, mem_linkBehind hmem⟩

/-- The slots after an entry has been placed in its free home slot. -/
theorem slot_place_home {key : κ} (hlt : t.home (hashOf key) < t.cap)
    (hfree : ¬ t.Taken (t.home (hashOf key))) (value : Option α) (j : ℕ) :
    (t.place key (hashOf key) value).1.slot j =
      if j = t.home (hashOf key) then
        ⟨some key, hashOf key, value, (t.slot (t.home (hashOf key))).next⟩
      else t.slot j := by
  have hnone : (t.slot (t.home (hashOf key))).key.isNone = true := by
    simpa [Taken] using hfree
  simp only [place, if_pos hnone]
  exact slot_setSlot t hlt _ j

/-- The slots after an entry has been linked in behind its home slot. -/
theorem slot_place_linked (h : t.WF hashOf) (hroom : t.size < t.cap) {key : κ}
    (htH : t.Taken (t.home (hashOf key))) (value : Option α) :
    ∃ e, e = t.probe t.cap ((t.home (hashOf key) + 1) &&& (t.cap - 1)) ∧ ¬ t.Taken e ∧ e < t.cap ∧
      ∀ j, (t.place key (hashOf key) value).1.slot j =
        if j = t.home (hashOf key) then (t.slot (t.home (hashOf key))).setNext (e + 1)
        else if j = e then ⟨some key, hashOf key, value, (t.slot (t.home (hashOf key))).next⟩
        else t.slot j := by
  obtain ⟨hfree, hlt⟩ := probe_cap_free h hroom
    (i := (t.home (hashOf key) + 1) &&& (t.cap - 1))
    (by rw [h.and_cap]; exact Nat.mod_lt _ h.cap_pos)
  refine ⟨_, rfl, hfree, hlt, fun j => ?_⟩
  have hHlt := h.home_lt (hashOf key)
  simp only [place, htH.isNone_eq, Bool.false_eq_true, if_false]
  generalize t.home (hashOf key) = H at *
  generalize t.probe t.cap ((H + 1) &&& (t.cap - 1)) = e at *
  have heH : H ≠ e := fun heq => hfree (heq ▸ htH)
  have hset := slot_setSlot t hlt ⟨some key, hashOf key, value, (t.slot H).next⟩
  have hcap := cap_setSlot t e ⟨some key, hashOf key, value, (t.slot H).next⟩
  generalize t.setSlot e ⟨some key, hashOf key, value, (t.slot H).next⟩ = v at *
  have hvH : v.slot H = t.slot H := by rw [hset, if_neg heH]
  rw [hvH, ← hset j]
  exact slot_setSlot v (hcap ▸ hHlt) _ j

/-- What placing an entry comes to. -/
structure Placed (hashOf : κ → ℕ) (t u : ChainTable κ α) (key : κ) (value : Option α)
    (i : ℕ) : Prop where
  wf : u.WF hashOf
  entries : u.entries.Perm ((key, value) :: t.entries)
  key_eq : (u.slot i).key = some key
  pointer_eq : (u.slot i).pointer = value

theorem place_spec (h : t.WF hashOf) (hroom : t.size < t.cap) (key : κ) (value : Option α) :
    Placed hashOf t (t.place key (hashOf key) value).1 key value
      (t.place key (hashOf key) value).2 := by
  have hHlt := h.home_lt (hashOf key)
  by_cases htH : t.Taken (t.home (hashOf key))
  · obtain ⟨hfree, hlt⟩ := probe_cap_free h hroom
      (i := (t.home (hashOf key) + 1) &&& (t.cap - 1))
      (by rw [h.and_cap]; exact Nat.mod_lt _ h.cap_pos)
    simp only [place, htH.isNone_eq, Bool.false_eq_true, if_false]
    generalize hH : t.home (hashOf key) = H at *
    generalize t.probe t.cap ((H + 1) &&& (t.cap - 1)) = e at *
    have heH : e ≠ H := fun heq => hfree (heq ▸ htH)
    have hset := slot_setSlot t hlt ⟨some key, hashOf key, value, (t.slot H).next⟩
    have hperm := entries_setSlot_free hlt hfree key (hashOf key) value (t.slot H).next
    have hcap := cap_setSlot t e ⟨some key, hashOf key, value, (t.slot H).next⟩
    generalize t.setSlot e ⟨some key, hashOf key, value, (t.slot H).next⟩ = v at *
    have hvH : v.slot H = t.slot H := by rw [hset, if_neg heH.symm]
    have hHv : H < v.cap := hcap ▸ hHlt
    have hslot := slot_setSlot v hHv ((v.slot H).setNext (e + 1))
    have hperm' := (entries_setSlot_same hHv
      (s := (v.slot H).setNext (e + 1)) rfl).trans hperm
    have hwf := h.of_linked (u := (v.setSlot H ((v.slot H).setNext (e + 1))).setSize (t.size + 1))
      (v := value) (by simpa [cap, setSlot, setSize] using hcap)
      (by rw [h.size_eq]; exact hperm'.length_eq.symm)
      (fun j => (hslot j).trans (by rw [hset j, hvH])) hH htH hfree
    have hslote : (v.setSlot H ((v.slot H).setNext (e + 1))).slot e =
        ⟨some key, hashOf key, value, (t.slot H).next⟩ := by
      rw [hslot, if_neg heH, hset, if_pos rfl]
    exact ⟨hwf, hperm', congrArg Slot.key hslote, congrArg Slot.pointer hslote⟩
  · have hnone : (t.slot (t.home (hashOf key))).key.isNone = true := by
      simpa [Taken] using htH
    simp only [place, if_pos hnone]
    generalize hH : t.home (hashOf key) = H at *
    have hslot := slot_setSlot t hHlt ⟨some key, hashOf key, value, (t.slot H).next⟩
    have hperm := entries_setSlot_free hHlt htH key (hashOf key) value (t.slot H).next
    have hcap := cap_setSlot t H ⟨some key, hashOf key, value, (t.slot H).next⟩
    have hnext : (t.slot H).next = 0 := by rw [h.clear H htH]; rfl
    have hwf := h.of_home
      (u := (t.setSlot H ⟨some key, hashOf key, value, (t.slot H).next⟩).setSize (t.size + 1))
      hcap (by rw [h.size_eq]; exact hperm.length_eq.symm) hslot hH htH rfl rfl hnext
    have hslotH := (hslot H).trans (if_pos rfl)
    exact ⟨hwf, hperm, congrArg Slot.key hslotH, congrArg Slot.pointer hslotH⟩

/-! ## Growing -/

theorem refill_spec {ss : List (Slot κ α)} {u : ChainTable κ α} (hu : u.WF hashOf)
    (hss : ∀ s ∈ ss, ∀ k, s.key = some k → s.hash = hashOf k)
    (hroom : u.size + ss.length ≤ u.cap) :
    (u.refill ss).WF hashOf ∧ (u.refill ss).cap = u.cap ∧
      (u.refill ss).entries.Perm (ss.filterMap Slot.entry ++ u.entries) := by
  induction ss generalizing u with
  | nil => exact ⟨hu, rfl, .refl _⟩
  | cons s ss ih =>
      have hrest : ∀ s' ∈ ss, ∀ k, s'.key = some k → s'.hash = hashOf k := fun s' hs' =>
        hss s' (List.mem_cons_of_mem _ hs')
      rw [List.length_cons] at hroom
      rw [refill]
      cases hkey : s.key with
      | none =>
          have hentry : s.entry = none := by simp [Slot.entry, hkey]
          simpa [hentry] using ih hu hrest (by omega)
      | some k =>
          have hentry : s.entry = some (k, s.pointer) := by simp [Slot.entry, hkey]
          have hhash : s.hash = hashOf k := hss s List.mem_cons_self k hkey
          have hplaced := place_spec hu (by omega) k s.pointer
          rw [hhash]
          obtain ⟨hwf, hcap, hperm⟩ := ih hplaced.wf hrest
            (by rw [size_place, cap_place]; omega)
          refine ⟨hwf, by rw [hcap, cap_place], hperm.trans ?_⟩
          rw [List.filterMap_cons_some hentry, List.cons_append]
          exact (hplaced.entries.append_left _).trans List.perm_middle

theorem rehash_spec (h : t.WF hashOf) (hfull : t.size = t.cap) :
    t.rehash.WF hashOf ∧ t.rehash.entries.Perm t.entries ∧ t.rehash.size < t.rehash.cap := by
  obtain ⟨k, hk⟩ := h.cap_pow
  have hempty : (empty (t.cap * 2) : ChainTable κ α).WF hashOf := by
    rw [hk, ← Nat.pow_succ]
    exact wf_empty hashOf (k + 1)
  have htake : t.slots.take t.size = t.slots := by
    rw [hfull]
    exact List.take_length
  have hss : ∀ s ∈ t.slots, ∀ k, s.key = some k → s.hash = hashOf k := by
    intro s hs k hkey
    obtain ⟨i, hi, rfl⟩ := List.mem_iff_getElem.mp hs
    have hget : t.slot i = t.slots[i] := by simp [slot, List.getElem?_eq_getElem hi]
    rw [← hget] at hkey ⊢
    exact h.hash_eq i k hkey
  have hpos := h.cap_pos
  obtain ⟨hwf, hcap, hperm⟩ := refill_spec hempty hss
    (by rw [cap_empty]; simp only [empty, cap]; omega)
  rw [entries_empty, List.append_nil] at hperm
  rw [rehash, htake]
  refine ⟨hwf, hperm, ?_⟩
  rw [hwf.size_eq, hperm.length_eq, hcap, cap_empty]
  have := t.entries_length_le
  change t.entries.length < t.cap * 2
  omega

theorem insertAt_spec (h : t.WF hashOf) (key : κ) (value : Option α) :
    Placed hashOf t (t.insertAt key (hashOf key) value).1 key value
      (t.insertAt key (hashOf key) value).2 := by
  rw [insertAt]
  split
  · rename_i hroom
    exact place_spec h hroom key value
  · rename_i hfull
    have hle := t.entries_length_le
    rw [← h.size_eq] at hle
    obtain ⟨hwf, hperm, hroom⟩ := rehash_spec h (by omega)
    have hplaced := place_spec hwf hroom key value
    exact ⟨hplaced.wf, hplaced.entries.trans (hperm.cons _), hplaced.key_eq,
      hplaced.pointer_eq⟩

/-! ## Looking up -/

variable [DecidableEq κ]

/-- What a walk from the home slot of a key finds. -/
theorem walk_spec (h : t.WF hashOf) (key : κ) :
    (¬ t.Taken (t.home (hashOf key)) ∧ ∀ v, (key, v) ∉ t.entries) ∨
    (∃ i, t.walk key (hashOf key) t.cap (t.home (hashOf key)) = some (some i) ∧
      (t.slot i).key = some key) ∨
    (t.walk key (hashOf key) t.cap (t.home (hashOf key)) = some none ∧
      ∀ v, (key, v) ∉ t.entries) := by
  by_cases hhome : t.Taken (t.home (hashOf key))
  · obtain ⟨l, hl⟩ := h.chain hhome
    rw [walk_eq_find h.hash_eq key hl hl.length_le]
    cases hfind : l.find? fun j => (t.slot j).key = some key with
    | some i => exact .inr (.inl ⟨i, rfl, by simpa using List.find?_some hfind⟩)
    | none =>
        refine .inr (.inr ⟨rfl, fun v hv => ?_⟩)
        obtain ⟨i, hi, -⟩ := mem_entries.mp hv
        obtain ⟨l', hl', hmem⟩ := h.reach i (by simp [Taken, hi])
        rw [h.hash_eq i key hi] at hl'
        obtain rfl := hl'.unique hl
        simpa [hi] using List.find?_eq_none.mp hfind i hmem
  · refine .inl ⟨hhome, fun v hv => hhome ?_⟩
    obtain ⟨i, hi, -⟩ := mem_entries.mp hv
    obtain ⟨l, hl, -⟩ := h.reach i (by simp [Taken, hi])
    rw [h.hash_eq i key hi] at hl
    exact hl.taken hl.head_mem

/-- A lookup returns a pointer stored under the key, and nothing if there is
none. The hash zero is that of a fresh slot, whose missing key would be compared. -/
theorem query_spec (h : t.WF hashOf) (key : κ) (hhash : hashOf key ≠ 0) :
    (∃ v, (key, v) ∈ t.entries ∧ t.query key (hashOf key) = some v) ∨
    ((∀ v, (key, v) ∉ t.entries) ∧ t.query key (hashOf key) = some none) := by
  rcases walk_spec h key with ⟨hfree, hno⟩ | ⟨i, hwalk, hkey⟩ | ⟨hwalk, hno⟩
  · refine .inr ⟨hno, ?_⟩
    obtain ⟨c, hc⟩ : ∃ c, t.cap = c + 1 := ⟨t.cap - 1, by have := h.cap_pos; omega⟩
    have hclear := h.clear _ hfree
    have hne : (0 : ℕ) ≠ hashOf key := hhash.symm
    have hwalk : t.walk key (hashOf key) t.cap (t.home (hashOf key)) = some none := by
      rw [hc, walk, hclear]
      simp [Slot.clear, hne]
    simp [query, hwalk]
  · refine .inl ⟨(t.slot i).pointer, mem_entries.mpr ⟨i, hkey, rfl⟩, ?_⟩
    simp [query, hwalk]
  · exact .inr ⟨hno, by simp [query, hwalk]⟩

/-- A key that is stored once is found. -/
theorem query_of_unique (h : t.WF hashOf) {key : κ} (hhash : hashOf key ≠ 0) {v : Option α}
    (hmem : (key, v) ∈ t.entries) (hone : ∀ w, (key, w) ∈ t.entries → w = v) :
    t.query key (hashOf key) = some v := by
  rcases query_spec h key hhash with ⟨w, hw, hq⟩ | ⟨hno, -⟩
  · rw [hq, hone w hw]
  · exact absurd hmem (hno v)

theorem query_of_absent (h : t.WF hashOf) {key : κ} (hhash : hashOf key ≠ 0)
    (hno : ∀ v, (key, v) ∉ t.entries) : t.query key (hashOf key) = some none := by
  rcases query_spec h key hhash with ⟨w, hw, -⟩ | ⟨-, hq⟩
  · exact absurd hw (hno w)
  · exact hq

/-- A key is in the table afterwards: where it was, or in a new slot without a pointer. -/
theorem queryInsert_spec (h : t.WF hashOf) (key : κ) :
    ((t.queryInsert key (hashOf key)).1 = t ∧
      (t.slot (t.queryInsert key (hashOf key)).2).key = some key) ∨
    ((∀ v, (key, v) ∉ t.entries) ∧
      Placed hashOf t (t.queryInsert key (hashOf key)).1 key none
        (t.queryInsert key (hashOf key)).2) := by
  rcases walk_spec h key with ⟨hfree, hno⟩ | ⟨i, hwalk, hkey⟩ | ⟨hwalk, hno⟩
  · have hnone : (t.slot (t.home (hashOf key))).key.isNone = true := by
      simpa [Taken] using hfree
    rw [queryInsert, if_pos hnone]
    exact .inr ⟨hno, insertAt_spec h key none⟩
  · have htaken : t.Taken (t.home (hashOf key)) := by
      obtain ⟨l, hl, -⟩ := h.reach i (by simp [Taken, hkey])
      rw [h.hash_eq i key hkey] at hl
      exact hl.taken hl.head_mem
    rw [queryInsert, htaken.isNone_eq, if_neg (by decide), hwalk]
    exact .inl ⟨rfl, hkey⟩
  · rw [queryInsert]
    split
    · exact .inr ⟨hno, insertAt_spec h key none⟩
    · rw [hwalk]
      exact .inr ⟨hno, insertAt_spec h key none⟩

omit [DecidableEq κ] in
/-- Storing a pointer keeps the invariant and exchanges one entry. -/
theorem setPointer_spec (h : t.WF hashOf) {i : ℕ} {key : κ} (hkey : (t.slot i).key = some key)
    (value : Option α) :
    (t.setPointer i value).WF hashOf ∧
    ∃ rest, t.entries.Perm ((key, (t.slot i).pointer) :: rest) ∧
      (t.setPointer i value).entries.Perm ((key, value) :: rest) := by
  have hi : i < t.cap := Taken.lt (i := i) (by simp [Taken, hkey])
  obtain ⟨rest, hold, hnew⟩ := entries_setSlot hi ((t.slot i).setPointer value)
  have hentry : (t.slot i).entry = some (key, (t.slot i).pointer) := by simp [Slot.entry, hkey]
  have hentry' : ((t.slot i).setPointer value).entry = some (key, value) := by
    simp [Slot.entry, Slot.setPointer, hkey]
  rw [hentry] at hold
  rw [hentry'] at hnew
  have hslot := slot_setSlot t hi ((t.slot i).setPointer value)
  have htaken : ∀ j, (t.setPointer i value).Taken j ↔ t.Taken j := by
    intro j
    rw [Taken, setPointer, hslot]
    split
    · rename_i hji
      rw [hji]
      rfl
    · rfl
  have hchain : ∀ {j l}, t.Chain j l → (t.setPointer i value).Chain j l := by
    intro j l hl
    induction hl with
    | last hj hnext =>
        refine .last ((htaken _).mpr hj) ?_
        rw [setPointer, hslot]
        split
        · rename_i hji
          rw [← hnext, hji]
          rfl
        · exact hnext
    | link hj hnext _ ih =>
        refine .link ((htaken _).mpr hj) ?_ ih
        rw [setPointer, hslot]
        split
        · rename_i hji
          rw [← hnext, hji]
          rfl
        · exact hnext
  have hcap : (t.setPointer i value).cap = t.cap := cap_setSlot _ _ _
  refine ⟨⟨hcap ▸ h.cap_pow, ?_, ?_, ?_, ?_⟩, rest, hold, hnew⟩
  · intro j hj
    have hjt : ¬ t.Taken j := mt (htaken j).mpr hj
    rw [setPointer, hslot, if_neg]
    · exact h.clear j hjt
    · rintro rfl
      exact hjt (by simp [Taken, hkey])
  · intro j k hk
    rw [setPointer, hslot] at hk ⊢
    split at hk
    · rename_i hji
      rw [if_pos hji]
      exact h.hash_eq i k hk
    · rename_i hji
      rw [if_neg hji]
      exact h.hash_eq j k hk
  · intro j hj
    obtain ⟨l, hl, hmem⟩ := h.reach j ((htaken j).mp hj)
    have hhash : ((t.setPointer i value).slot j).hash = (t.slot j).hash := by
      rw [setPointer, hslot]
      split
      · rename_i hji
        rw [hji]
        rfl
      · rfl
    rw [home_congr hcap, hhash]
    exact ⟨l, hchain hl, hmem⟩
  · change t.size = (t.setSlot i ((t.slot i).setPointer value)).entries.length
    rw [h.size_eq, hold.length_eq, hnew.length_eq]
    rfl

end ChainTable
