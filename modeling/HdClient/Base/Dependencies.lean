-- SUMMARY: Items that depend on one another by name: what can be had of them, and when they can all be put in order.
import Mathlib.Data.List.Nodup
import Mathlib.Data.List.Perm.Subperm

/-! # Dependencies

Every item has a name and depends on names. Some names are held from the start;
an item that is taken up makes its own name one that is held. -/

namespace Dependencies

variable {φ ν : Type} (name : φ → ν) (deps : φ → List ν)

/-- The names that are held, or are had by taking up items one after the other. -/
inductive Obtainable (items : List φ) (held : ν → Prop) : ν → Prop where
  | held {n : ν} : held n → Obtainable items held n
  | item {f : φ} : f ∈ items → (∀ d ∈ deps f, Obtainable items held d) →
      Obtainable items held (name f)

/-- An item that can be taken up behind the items of `before`. -/
def Ready (held : ν → Prop) (before : List φ) (f : φ) : Prop :=
  ∀ d ∈ deps f, held d ∨ d ∈ before.map name

/-- An order in which every item stands behind those it depends on. -/
inductive Ordered (held : ν → Prop) : List φ → Prop where
  | nil : Ordered held []
  | snoc {before : List φ} {f : φ} :
      Ordered held before → Ready name deps held before f → Ordered held (before ++ [f])

/-- All items can be put in order. -/
def Satisfiable (items : List φ) (held : ν → Prop) : Prop :=
  ∃ order : List φ, order.Perm items ∧ Ordered name deps held order

/-- Names among which everything is held that can be taken up from them. -/
structure Closed (items : List φ) (held got : ν → Prop) : Prop where
  start : ∀ n, held n → got n
  item : ∀ f ∈ items, (∀ d ∈ deps f, got d) → got (name f)

variable {name deps} {items items' order before : List φ} {held got : ν → Prop}

/-! ## What can be had -/

theorem Obtainable.of_closed {n : ν} (h : Obtainable name deps items held n)
    (hclosed : Closed name deps items held got) : got n := by
  induction h with
  | held hn => exact hclosed.start _ hn
  | item hf _ ih => exact hclosed.item _ hf ih

theorem Obtainable.mono {n : ν} (hsub : items ⊆ items')
    (h : Obtainable name deps items held n) : Obtainable name deps items' held n :=
  h.of_closed ⟨fun _ hn => .held hn, fun _ hf hdeps => .item (hsub hf) hdeps⟩

/-- The order of the items does not matter to what can be had of them. -/
theorem obtainable_perm (h : items.Perm items') (n : ν) :
    Obtainable name deps items held n ↔ Obtainable name deps items' held n :=
  ⟨.mono h.subset, .mono h.symm.subset⟩

/-- What is closed, and holds nothing that cannot be had, is what can be had. -/
theorem Closed.iff_obtainable (hclosed : Closed name deps items held got)
    (hsound : ∀ n, got n → Obtainable name deps items held n) (n : ν) :
    got n ↔ Obtainable name deps items held n :=
  ⟨hsound n, fun h => h.of_closed hclosed⟩

/-! ## Orders -/

theorem satisfiable_perm (h : items.Perm items') :
    Satisfiable name deps items held ↔ Satisfiable name deps items' held :=
  ⟨fun ⟨order, hperm, hord⟩ => ⟨order, hperm.trans h, hord⟩,
    fun ⟨order, hperm, hord⟩ => ⟨order, hperm.trans h.symm, hord⟩⟩

theorem Ordered.obtainable (h : Ordered name deps held order) (hsub : order ⊆ items) :
    ∀ f ∈ order, ∀ d ∈ deps f, Obtainable name deps items held d := by
  induction h with
  | nil => exact fun f hf => absurd hf List.not_mem_nil
  | @snoc before g _ hready ih =>
      have hbefore := ih fun f hf => hsub (List.mem_append_left _ hf)
      intro f hf d hd
      rcases List.mem_append.mp hf with hf | hf
      · exact hbefore f hf d hd
      · obtain rfl := List.mem_singleton.mp hf
        rcases hready d hd with hd | hd
        · exact .held hd
        · obtain ⟨g, hg, rfl⟩ := List.mem_map.mp hd
          exact .item (hsub (List.mem_append_left _ hg)) (hbefore g hg)

/-- If nothing that is left is ready, the names of the others are closed. -/
theorem closed_of_not_ready {rest : List φ} (hmem : ∀ f ∈ items, f ∈ before ∨ f ∈ rest)
    (hstuck : ∀ f ∈ rest, ¬ Ready name deps held before f) :
    Closed name deps items held fun n => held n ∨ n ∈ before.map name := by
  refine ⟨fun n hn => .inl hn, fun f hf hdeps => ?_⟩
  rcases hmem f hf with hf | hf
  · exact .inr (List.mem_map_of_mem hf)
  · exact absurd hdeps (hstuck f hf)

/-- Items can be put in order if whatever they depend on can be had. -/
theorem satisfiable_iff : Satisfiable name deps items held ↔
    ∀ f ∈ items, ∀ d ∈ deps f, Obtainable name deps items held d := by
  constructor
  · rintro ⟨order, hperm, hord⟩ f hf
    exact hord.obtainable hperm.subset f (hperm.symm.subset hf)
  · intro hall
    -- an order of some items is extended as long as there are others
    have hextend : ∀ (k : ℕ) (before rest : List φ), rest.length = k →
        (before ++ rest).Perm items → Ordered name deps held before →
        Satisfiable name deps items held := by
      intro k
      induction k with
      | zero =>
          intro before rest hlen hperm hord
          rw [List.length_eq_zero_iff.mp hlen, List.append_nil] at hperm
          exact ⟨before, hperm, hord⟩
      | succ k ih =>
          intro before rest hlen hperm hord
          have hready : ∃ f ∈ rest, Ready name deps held before f := by
            by_contra hno
            rw [not_exists] at hno
            have hstuck : ∀ f ∈ rest, ¬ Ready name deps held before f := fun f hf hr =>
              hno f ⟨hf, hr⟩
            have hclosed : Closed name deps items held fun n => held n ∨ n ∈ before.map name :=
              closed_of_not_ready (fun f hf => List.mem_append.mp (hperm.symm.subset hf)) hstuck
            obtain ⟨f, hf⟩ := List.exists_mem_of_length_eq_add_one hlen
            have hf' : f ∈ items := hperm.subset (List.mem_append_right _ hf)
            exact hstuck f hf fun d hd => (hall f hf' d hd).of_closed hclosed
          obtain ⟨f, hf, hready⟩ := hready
          obtain ⟨l, r, rfl⟩ := List.append_of_mem hf
          have hlen' : (l ++ r).length = k := by
            rw [List.length_append, List.length_cons] at hlen
            rw [List.length_append]
            omega
          have hmove : (before ++ [f] ++ (l ++ r)).Perm (before ++ (l ++ f :: r)) := by
            rw [List.append_assoc, List.singleton_append]
            exact List.perm_middle.symm.append_left before
          exact ih (before ++ [f]) (l ++ r) hlen' (hmove.trans hperm) (hord.snoc hready)
    exact hextend items.length [] items rfl (.refl _) .nil

/-- The items whose names are held already add nothing to what can be had. -/
theorem obtainable_filter {keep : φ → Bool} (hkeep : ∀ f ∈ items, keep f = false → held (name f))
    (n : ν) : Obtainable name deps (items.filter keep) held n ↔ Obtainable name deps items held n := by
  refine ⟨.mono (List.filter_subset_self _), fun h => h.of_closed ⟨fun _ hn => .held hn, ?_⟩⟩
  intro f hf hdeps
  cases hk : keep f with
  | true => exact .item (List.mem_filter.mpr ⟨hf, hk⟩) hdeps
  | false => exact .held (hkeep f hf hk)

end Dependencies
