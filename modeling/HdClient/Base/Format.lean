-- SUMMARY: Formats as relations between values and words, and the rules by which unambiguous formats compose.
import Mathlib.Algebra.Ring.Nat
import Mathlib.Data.List.Basic

/-! # Formats

A format relates a value to the words that may stand for it. A format is
*functional* when a whole word stands for one value only, and *unambiguous*
when this holds of a word at the head of a longer one, so that a reader that
does not know where the word ends still recovers the value, the word, and what
follows it. -/

/-- A format over the alphabet `β` for values in `α`. -/
abbrev Format (β α : Type) := α → List β → Prop

namespace Format

variable {β α γ : Type}

/-- A whole word stands for one value only. -/
def Functional (F : Format β α) : Prop :=
  ∀ ⦃a b xs⦄, F a xs → F b xs → a = b

/-- A word at the head of a longer one determines the value, itself, and the rest. -/
def Unambiguous (F : Format β α) : Prop :=
  ∀ ⦃a b xs ys r s⦄, F a xs → F b ys → xs ++ r = ys ++ s → a = b ∧ xs = ys ∧ r = s

theorem Unambiguous.functional {F : Format β α} (h : F.Unambiguous) : F.Functional := by
  intro a b xs ha hb
  exact (h (r := []) (s := []) ha hb rfl).1

/-! ## Cuts -/

/-- A word that was cut short. -/
structure Cut (cut whole : List β) : Prop where
  isPrefix : cut <+: whole
  ne : cut ≠ whole

theorem Cut.length_lt {cut whole : List β} (h : Cut cut whole) : cut.length < whole.length :=
  Nat.lt_of_le_of_ne h.isPrefix.length_le fun heq => h.ne (h.isPrefix.eq_of_length heq)

theorem not_cut_nil {cut : List β} : ¬ Cut cut [] := fun h => by simpa using h.length_lt

/-- The cut is in the first part, or in the second one. -/
theorem Cut.append {cut xs ys : List β} (h : Cut cut (xs ++ ys)) :
    Cut cut xs ∨ ∃ rest, cut = xs ++ rest ∧ Cut rest ys := by
  by_cases hle : xs.length ≤ cut.length
  · obtain ⟨rest, rfl⟩ := List.prefix_of_prefix_length_le (List.prefix_append xs ys) h.isPrefix hle
    refine .inr ⟨rest, rfl, (List.prefix_append_right_inj xs).mp h.isPrefix, ?_⟩
    rintro rfl
    exact h.ne rfl
  · refine .inl ⟨?_, fun heq => hle (heq ▸ Nat.le_refl _)⟩
    exact List.prefix_of_prefix_length_le h.isPrefix (List.prefix_append xs ys) (by omega)

/-! ## Basic formats -/

/-- The one word `w`. -/
def only (w : List β) : Format β Unit := fun _ xs => xs = w

theorem only_unambiguous (w : List β) : (only w).Unambiguous := by
  rintro ⟨⟩ ⟨⟩ xs ys r s rfl rfl h
  exact ⟨rfl, rfl, List.append_cancel_left h⟩

/-- A word standing for itself. -/
def raw : Format β (List β) := fun a xs => xs = a

theorem raw_functional : (raw : Format β (List β)).Functional := by
  rintro a b xs rfl rfl
  rfl

/-! ## Sequencing -/

/-- A word of `F`, then a word of `G`. -/
def seq (F : Format β α) (G : Format β γ) : Format β (α × γ) :=
  fun p xs => ∃ ys zs, xs = ys ++ zs ∧ F p.1 ys ∧ G p.2 zs

theorem seq_intro {F : Format β α} {G : Format β γ} {a : α} {c : γ} {ys zs : List β}
    (ha : F a ys) (hc : G c zs) : seq F G (a, c) (ys ++ zs) :=
  ⟨ys, zs, rfl, ha, hc⟩

theorem seq_functional {F : Format β α} {G : Format β γ} (hF : F.Unambiguous)
    (hG : G.Functional) : (seq F G).Functional := by
  rintro ⟨a, c⟩ ⟨b, d⟩ _ ⟨ys, zs, rfl, ha, hc⟩ ⟨ys', zs', heq, hb, hd⟩
  obtain ⟨hab, rfl, rfl⟩ := hF ha hb heq
  exact Prod.ext hab (hG hc hd)

/-! ## Length framing -/

/-- A word of `F`, preceded by its length in the format `L`. -/
def framed (L : Format β ℕ) (F : Format β α) : Format β α :=
  fun a xs => ∃ ys zs, xs = ys ++ zs ∧ L zs.length ys ∧ F a zs

theorem framed_intro {L : Format β ℕ} {F : Format β α} {a : α} {ys zs : List β}
    (hL : L zs.length ys) (hF : F a zs) : framed L F a (ys ++ zs) :=
  ⟨ys, zs, rfl, hL, hF⟩

/-- The length tells where the word ends, so any functional format may be framed. -/
theorem framed_unambiguous {L : Format β ℕ} {F : Format β α} (hL : L.Unambiguous)
    (hF : F.Functional) : (framed L F).Unambiguous := by
  rintro a b _ _ r s ⟨ys, zs, rfl, hn, ha⟩ ⟨ys', zs', rfl, hn', hb⟩ h
  simp only [List.append_assoc] at h
  obtain ⟨hlen, rfl, hrest⟩ := hL hn hn' h
  obtain ⟨rfl, rfl⟩ := List.append_inj hrest hlen
  exact ⟨hF ha hb, rfl, rfl⟩

theorem framed_ne_nil {L : Format β ℕ} {F : Format β α} (hL : ∀ n, ¬ L n []) {a : α}
    {xs : List β} (h : framed L F a xs) : xs ≠ [] := by
  rintro rfl
  obtain ⟨ys, zs, heq, hn, -⟩ := h
  obtain ⟨rfl, rfl⟩ := List.append_eq_nil_iff.mp heq.symm
  exact hL _ hn

/-! ## Repetition -/

/-- Any number of words of `F`, one after the other. -/
inductive Star (F : Format β α) : Format β (List α) where
  | nil : Star F [] []
  | cons {a : α} {as : List α} {xs ys : List β} :
      F a xs → Star F as ys → Star F (a :: as) (xs ++ ys)

theorem Star.append {F : Format β α} {as bs : List α} {xs ys : List β}
    (ha : Star F as xs) (hb : Star F bs ys) : Star F (as ++ bs) (xs ++ ys) := by
  induction ha with
  | nil => exact hb
  | cons h _ ih => simpa [List.append_assoc] using Star.cons h ih

/-- A sequence of nonempty words of an unambiguous format can be cut up in one way only. -/
theorem star_functional {F : Format β α} (hF : F.Unambiguous)
    (hne : ∀ ⦃a xs⦄, F a xs → xs ≠ []) : Functional (Star F) := by
  intro as bs xs ha
  induction ha generalizing bs with
  | nil =>
      intro hb
      generalize hxs : ([] : List β) = xs at hb
      cases hb with
      | nil => rfl
      | cons h _ => exact absurd (List.append_eq_nil_iff.mp hxs.symm).1 (hne h)
  | @cons a as xs ys h _ ih =>
      intro hb
      generalize hzs : xs ++ ys = zs at hb
      cases hb with
      | nil => exact absurd (List.append_eq_nil_iff.mp hzs).1 (hne h)
      | cons h' hb' =>
          obtain ⟨rfl, rfl, rfl⟩ := hF h h' hzs
          exact congrArg (List.cons a) (ih hb')

end Format
