-- SUMMARY: Hash tables that are filled once with as many rows as they have slots, and what following a chain in one finds.
import HdClient.Base.ChainTable

/-! # Tables filled once

The rows of a table that is made in one go are put in one after the other. A row
whose home slot is taken goes to the first free slot of the whole table, which a
mark that only moves up keeps track of, and is linked in right behind the home
slot. Homes need not be masks of a hash here. -/

namespace ChainTable

variable {κ α : Type}

/-- The first free slot from `i` on. -/
def sweep (t : ChainTable κ α) : ℕ → ℕ → ℕ
  | 0, i => i
  | fuel + 1, i => if (t.slot i).key.isSome then sweep t fuel (i + 1) else i

/-- Put in the rows of a table; the free slots are looked for from `mark` on. -/
def fill (home : κ → ℕ) (hashOf : κ → ℕ) : List (κ × α) → ℕ → ChainTable κ α → ChainTable κ α
  | [], _, t => t
  | (k, p) :: rows, mark, t =>
      let h := home k
      if (t.slot h).key.isNone then
        fill home hashOf rows mark (t.setSlot h ⟨some k, hashOf k, some p, (t.slot h).next⟩)
      else
        let e := t.sweep t.cap mark
        let t := t.setSlot e ⟨some k, hashOf k, some p, (t.slot h).next⟩
        fill home hashOf rows e (t.setSlot h ((t.slot h).setNext (e + 1)))

/-- A table in which every entry is on the chain of its home, no slot below the
mark is free, and the entries are the given rows. -/
structure Filled (home hashOf : κ → ℕ) (t : ChainTable κ α) (mark : ℕ)
    (rows : List (κ × α)) : Prop where
  clear : ∀ i, ¬ t.Taken i → t.slot i = Slot.clear
  hash_eq : ∀ i k, (t.slot i).key = some k → (t.slot i).hash = hashOf k
  reach : ∀ i k, (t.slot i).key = some k → ∃ l, t.Chain (home k) l ∧ i ∈ l
  swept : ∀ i < mark, t.Taken i
  entries : t.entries.Perm (rows.map fun row => (row.1, some row.2))

theorem filled_empty (home hashOf : κ → ℕ) (cap : ℕ) :
    Filled home hashOf (empty cap : ChainTable κ α) 0 [] where
  clear i _ := slot_empty cap i
  hash_eq i k h := by simp [slot_empty, Slot.clear] at h
  reach i k h := by simp [slot_empty, Slot.clear] at h
  swept i h := absurd h (Nat.not_lt_zero i)
  entries := by simp

theorem entries_setSlot_entry {t : ChainTable κ α} {i : ℕ} (hi : i < t.cap)
    (hfree : ¬ t.Taken i) (k : κ) (hash : ℕ) (p : α) (next : ℕ) {rows : List (κ × α)}
    (h : t.entries.Perm (rows.map fun row => (row.1, some row.2))) :
    (t.setSlot i ⟨some k, hash, some p, next⟩).entries.Perm
      (((k, p) :: rows).map fun row => (row.1, some row.2)) :=
  (entries_setSlot_free hi hfree k hash (some p) next).trans (h.cons _)

/-! ## Sweeping -/

theorem sweep_free {t : ChainTable κ α} {fuel i f : ℕ} (hif : i ≤ f) (hfuel : f < i + fuel)
    (hfree : ¬ t.Taken f) :
    ¬ t.Taken (t.sweep fuel i) ∧ t.sweep fuel i ≤ f ∧ ∀ j, i ≤ j → j < t.sweep fuel i → t.Taken j := by
  induction fuel generalizing i with
  | zero => omega
  | succ fuel ih =>
      rw [sweep]
      split
      · rename_i htaken
        have hne : i ≠ f := by
          rintro rfl
          exact hfree htaken
        obtain ⟨hfree', hle, hbelow⟩ := ih (by omega : i + 1 ≤ f) (by omega)
        refine ⟨hfree', hle, fun j hij hj => ?_⟩
        by_cases hji : j = i
        · exact hji ▸ htaken
        · exact hbelow j (by omega) hj
      · rename_i hnot
        exact ⟨hnot, hif, fun j hij hj => by omega⟩

namespace Filled

variable {home hashOf : κ → ℕ} {t : ChainTable κ α} {mark : ℕ} {rows : List (κ × α)}

theorem length_eq (h : Filled home hashOf t mark rows) : t.entries.length = rows.length := by
  simpa using h.entries.length_eq

/-- Where there is room, the sweep ends at a free slot, with none below it. -/
theorem sweep_spec (h : Filled home hashOf t mark rows) (hroom : rows.length < t.cap) :
    ¬ t.Taken (t.sweep t.cap mark) ∧ t.sweep t.cap mark < t.cap ∧
      ∀ j < t.sweep t.cap mark, t.Taken j := by
  obtain ⟨f, hf, hfree⟩ := exists_free (t := t) (by rw [h.length_eq]; exact hroom)
  have hmark : mark ≤ f := by
    by_contra hlt
    exact hfree (h.swept f (by omega))
  obtain ⟨hfree', hle, hbelow⟩ := sweep_free hmark (by omega : f < mark + t.cap) hfree
  refine ⟨hfree', by omega, fun j hj => ?_⟩
  by_cases hjm : j < mark
  · exact h.swept j hjm
  · exact hbelow j (by omega) hj

theorem chain (h : Filled home hashOf t mark rows) {i : ℕ} (hi : t.Taken i) :
    ∃ l, t.Chain i l := by
  obtain ⟨k, hk⟩ := Option.isSome_iff_exists.mp hi
  obtain ⟨l, hl, hmem⟩ := h.reach i k hk
  obtain ⟨l', hl', -⟩ := hl.suffix hmem
  exact ⟨l', hl'⟩

/-- A row that finds its home slot free. -/
theorem home_free (h : Filled home hashOf t mark rows) (k : κ) (p : α) (hlt : home k < t.cap)
    (hfree : ¬ t.Taken (home k)) :
    Filled home hashOf (t.setSlot (home k) ⟨some k, hashOf k, some p, (t.slot (home k)).next⟩)
      mark ((k, p) :: rows) := by
  have hslot := slot_setSlot t hlt ⟨some k, hashOf k, some p, (t.slot (home k)).next⟩
  have hentries := entries_setSlot_entry hlt hfree k (hashOf k) p (t.slot (home k)).next h.entries
  have hnext : (t.slot (home k)).next = 0 := by rw [h.clear _ hfree]; rfl
  generalize t.setSlot (home k) ⟨some k, hashOf k, some p, (t.slot (home k)).next⟩ = u at *
  have hold : ∀ j, t.Taken j → u.slot j = t.slot j := by
    intro j hj
    rw [hslot, if_neg]
    rintro rfl
    exact hfree hj
  have hhome : u.Chain (home k) [home k] := by
    refine .last ?_ ?_
    · rw [Taken, hslot, if_pos rfl]
      rfl
    · rw [hslot, if_pos rfl, hnext]
  refine ⟨fun i hi => ?_, fun i k' hk' => ?_, fun i k' hk' => ?_, fun i hi => ?_, hentries⟩
  · by_cases hih : i = home k
    · rw [Taken, hslot, if_pos hih] at hi
      exact absurd rfl hi
    · rw [hslot, if_neg hih]
      refine h.clear i fun hti => hi ?_
      rw [Taken, hold i hti]
      exact hti
  · rw [hslot] at hk' ⊢
    by_cases hih : i = home k
    · rw [if_pos hih] at hk' ⊢
      exact congrArg hashOf (Option.some.inj hk')
    · rw [if_neg hih] at hk' ⊢
      exact h.hash_eq i k' hk'
  · rw [hslot] at hk'
    by_cases hih : i = home k
    · rw [if_pos hih, Option.some.injEq] at hk'
      subst hk'
      exact ⟨_, hhome, hih ▸ List.mem_singleton_self _⟩
    · rw [if_neg hih] at hk'
      obtain ⟨l, hl, hmem⟩ := h.reach i k' hk'
      exact ⟨l, hl.congr fun j hj => hold j (hl.taken hj), hmem⟩
  · rw [Taken, hold i (h.swept i hi)]
    exact h.swept i hi

/-- A row that is linked in behind its home slot, at a free slot `e`. -/
theorem linked (h : Filled home hashOf t mark rows) (k : κ) (p : α) {e : ℕ} (hlt : home k < t.cap)
    (htaken : t.Taken (home k)) (helt : e < t.cap) (hfree : ¬ t.Taken e)
    (hbelow : ∀ j < e, t.Taken j) :
    Filled home hashOf
      ((t.setSlot e ⟨some k, hashOf k, some p, (t.slot (home k)).next⟩).setSlot (home k)
        (((t.setSlot e ⟨some k, hashOf k, some p, (t.slot (home k)).next⟩).slot
          (home k)).setNext (e + 1)))
      e ((k, p) :: rows) := by
  have heh : e ≠ home k := fun heq => hfree (heq ▸ htaken)
  have hset := slot_setSlot t helt ⟨some k, hashOf k, some p, (t.slot (home k)).next⟩
  have hentries := entries_setSlot_entry helt hfree k (hashOf k) p (t.slot (home k)).next h.entries
  have hcap := cap_setSlot t e ⟨some k, hashOf k, some p, (t.slot (home k)).next⟩
  generalize t.setSlot e ⟨some k, hashOf k, some p, (t.slot (home k)).next⟩ = v at *
  have hvh : v.slot (home k) = t.slot (home k) := by rw [hset, if_neg heh.symm]
  have hlt' : home k < v.cap := hcap ▸ hlt
  have hslot := slot_setSlot v hlt' ((v.slot (home k)).setNext (e + 1))
  have hperm := (entries_setSlot_same hlt' (s := (v.slot (home k)).setNext (e + 1)) rfl).trans
    hentries
  generalize v.setSlot (home k) ((v.slot (home k)).setNext (e + 1)) = u at *
  have huh : u.slot (home k) = (t.slot (home k)).setNext (e + 1) := by rw [hslot, if_pos rfl, hvh]
  have hue : u.slot e = ⟨some k, hashOf k, some p, (t.slot (home k)).next⟩ := by
    rw [hslot, if_neg heh, hset, if_pos rfl]
  have hother : ∀ j, j ≠ home k → j ≠ e → u.slot j = t.slot j := by
    intro j hjh hje
    rw [hslot, if_neg hjh, hset, if_neg hje]
  have htu : ∀ j, t.Taken j → u.Taken j := by
    intro j hj
    by_cases hjh : j = home k
    · rw [Taken, hjh, huh]
      exact htaken
    · rwa [Taken, hother j hjh fun hje => hfree (hje ▸ hj)]
  have hetaken : u.Taken e := by simp [Taken, hue]
  have hchain : ∀ {i l}, t.Chain i l → u.Chain i (linkBehind (home k) e l) := fun hl =>
    hl.linkBehind hetaken (htu _ htaken) (by rw [huh, Slot.next_setNext]) (by rw [hue])
      fun j hjh hj => hother j hjh fun hje => hfree (hje ▸ hj)
  refine ⟨fun i hi => ?_, fun i k' hk' => ?_, fun i k' hk' => ?_, fun i hi => ?_, hperm⟩
  · have hih : i ≠ home k := by
      rintro rfl
      exact hi (htu _ htaken)
    have hie : i ≠ e := by
      rintro rfl
      exact hi hetaken
    rw [hother i hih hie]
    exact h.clear i fun hti => hi (htu i hti)
  · by_cases hih : i = home k
    · subst hih
      rw [huh] at hk' ⊢
      exact h.hash_eq _ k' hk'
    · by_cases hie : i = e
      · subst hie
        rw [hue] at hk' ⊢
        exact congrArg hashOf (Option.some.inj hk')
      · rw [hother i hih hie] at hk' ⊢
        exact h.hash_eq i k' hk'
  · by_cases hie : i = e
    · subst hie
      rw [hue, Option.some.injEq] at hk'
      subst hk'
      obtain ⟨l, hl⟩ := h.chain htaken
      exact ⟨_, hchain hl, new_mem_linkBehind hl.head_mem⟩
    · have hkey : (t.slot i).key = some k' := by
        by_cases hih : i = home k
        · subst hih
          rwa [huh] at hk'
        · rwa [hother i hih hie] at hk'
      obtain ⟨l, hl, hmem⟩ := h.reach i k' hkey
      exact ⟨_, hchain hl, mem_linkBehind hmem⟩
  · exact htu i (hbelow i hi)

/-- Filling a table leaves the rows in it, and its capacity alone. -/
theorem fill (rest : List (κ × α)) (h : Filled home hashOf t mark rows)
    (hhome : ∀ row ∈ rest, home row.1 < t.cap) (hroom : rest.length + rows.length ≤ t.cap) :
    (ChainTable.fill home hashOf rest mark t).cap = t.cap ∧
      ∃ mark', Filled home hashOf (ChainTable.fill home hashOf rest mark t) mark'
        (rest.reverse ++ rows) := by
  induction rest generalizing t mark rows with
  | nil => exact ⟨rfl, mark, h⟩
  | cons row rest ih =>
      obtain ⟨k, p⟩ := row
      rw [List.length_cons] at hroom
      have hlt := hhome (k, p) List.mem_cons_self
      have hrest : ∀ row ∈ rest, home row.1 < t.cap := fun row hrow =>
        hhome row (List.mem_cons_of_mem _ hrow)
      have hrows : ((k, p) :: rest).reverse ++ rows = rest.reverse ++ (k, p) :: rows := by simp
      rw [hrows, ChainTable.fill]
      by_cases htaken : t.Taken (home k)
      · obtain ⟨hfree, helt, hbelow⟩ := h.sweep_spec (by omega)
        simp only [htaken.isNone_eq, Bool.false_eq_true, if_false]
        obtain ⟨hcap, hfilled⟩ := ih (h.linked k p hlt htaken helt hfree hbelow)
          (by simpa using hrest) (by simp; omega)
        exact ⟨by simpa using hcap, hfilled⟩
      · have hnone : (t.slot (home k)).key.isNone = true := by simpa [Taken] using htaken
        simp only [hnone, if_true]
        obtain ⟨hcap, hfilled⟩ := ih (h.home_free k p hlt htaken) (by simpa using hrest)
          (by simp; omega)
        exact ⟨by simpa using hcap, hfilled⟩

/-! ## Looking up -/

theorem mem_entries (h : Filled home hashOf t mark rows) {k : κ} {v : Option α} :
    (k, v) ∈ t.entries ↔ ∃ p, v = some p ∧ (k, p) ∈ rows := by
  rw [h.entries.mem_iff, List.mem_map]
  constructor
  · rintro ⟨⟨k', p⟩, hmem, heq⟩
    obtain ⟨rfl, rfl⟩ := Prod.mk.inj heq
    exact ⟨p, rfl, hmem⟩
  · rintro ⟨p, rfl, hmem⟩
    exact ⟨(k, p), hmem, rfl⟩

/-- Along the chain of its home, the first slot with a key is that of a row, and
a key that no such slot has is that of no row. -/
theorem find [DecidableEq κ] (h : Filled home hashOf t mark rows) (key : κ) :
    (¬ t.Taken (home key) ∧ ∀ p, (key, p) ∉ rows) ∨
    ∃ l, t.Chain (home key) l ∧
      ((∃ i p, (l.find? fun j => (t.slot j).key = some key) = some i ∧
          t.slot i = ⟨some key, hashOf key, some p, (t.slot i).next⟩ ∧ (key, p) ∈ rows) ∨
        ((l.find? fun j => (t.slot j).key = some key) = none ∧ ∀ p, (key, p) ∉ rows)) := by
  have hslot : ∀ {p}, (key, p) ∈ rows → ∃ i, (t.slot i).key = some key ∧ t.Taken (home key) := by
    intro p hp
    obtain ⟨i, hi, -⟩ := ChainTable.mem_entries.mp (h.mem_entries.mpr ⟨p, rfl, hp⟩)
    obtain ⟨l, hl, -⟩ := h.reach i key hi
    exact ⟨i, hi, hl.taken hl.head_mem⟩
  by_cases htaken : t.Taken (home key)
  · obtain ⟨l, hl⟩ := h.chain htaken
    refine .inr ⟨l, hl, ?_⟩
    cases hfind : l.find? fun j => (t.slot j).key = some key with
    | some i =>
        have hkey : (t.slot i).key = some key := by simpa using List.find?_some hfind
        obtain ⟨p, hp, hmem⟩ := h.mem_entries.mp (ChainTable.mem_entries.mpr ⟨i, hkey, rfl⟩)
        refine .inl ⟨i, p, rfl, ?_, hmem⟩
        rw [← hkey, ← hp, ← h.hash_eq i key hkey]
    | none =>
        refine .inr ⟨rfl, fun p hp => ?_⟩
        obtain ⟨i, hi, -⟩ := hslot hp
        obtain ⟨l', hl', hmem⟩ := h.reach i key hi
        obtain rfl := hl'.unique hl
        simpa [hi] using List.find?_eq_none.mp hfind i hmem
  · refine .inl ⟨htaken, fun p hp => htaken ?_⟩
    obtain ⟨-, -, h'⟩ := hslot hp
    exact h'

end Filled

end ChainTable
