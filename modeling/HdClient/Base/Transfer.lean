-- SUMMARY: Transfers that a scripted peer carries out a few units at a time, and what a whole script makes of one.
import Mathlib.Algebra.Ring.Nat
import Mathlib.Data.List.Basic

/-! # Scripted transfers

A loop that moves `n` units asks its environment again and again for what is
still missing. The environment answers from a script. An answer either fails
the loop or carries as many units as it allows, as are still wanted, and as
there are at hand. -/

/-- An answer of the environment to one request. -/
inductive Ans where
  /-- The request fails. -/
  | fail
  /-- At most `k` units are carried. -/
  | upTo (k : ℕ)
  deriving Repr, DecidableEq

/-- How a loop over a script ends. -/
inductive Ending where
  /-- Everything was carried. -/
  | done
  /-- An answer failed. -/
  | failed
  /-- The script has no more answers. -/
  | waiting
  deriving Repr, DecidableEq

/-- What a script makes of a transfer. -/
structure Transfer where
  /-- The number of units carried. -/
  carried : ℕ
  ending : Ending
  /-- The answers that were not used. -/
  left : List Ans
  deriving Repr, DecidableEq

namespace Transfer

/-- Carry `need` units, out of `avail` that are at hand, as the script allows. -/
def carry : List Ans → ℕ → ℕ → Transfer
  | as, 0, _ => ⟨0, .done, as⟩
  | [], _ + 1, _ => ⟨0, .waiting, []⟩
  | .fail :: as, _ + 1, _ => ⟨0, .failed, as⟩
  | .upTo k :: as, n + 1, avail =>
      let m := min k (min (n + 1) avail)
      let t := carry as (n + 1 - m) (avail - m)
      ⟨m + t.carried, t.ending, t.left⟩

@[simp] theorem carry_zero (as : List Ans) (avail : ℕ) : carry as 0 avail = ⟨0, .done, as⟩ := by
  cases as <;> rfl

@[simp] theorem carry_nil {n : ℕ} (h : 0 < n) (avail : ℕ) :
    carry [] n avail = ⟨0, .waiting, []⟩ := by
  cases n with
  | zero => omega
  | succ n => rfl

@[simp] theorem carry_fail {n : ℕ} (h : 0 < n) (as : List Ans) (avail : ℕ) :
    carry (.fail :: as) n avail = ⟨0, .failed, as⟩ := by
  cases n with
  | zero => omega
  | succ n => rfl

theorem carry_upTo {n : ℕ} (h : 0 < n) (k : ℕ) (as : List Ans) (avail : ℕ) :
    carry (.upTo k :: as) n avail =
      ⟨min k (min n avail) +
          (carry as (n - min k (min n avail)) (avail - min k (min n avail))).carried,
        (carry as (n - min k (min n avail)) (avail - min k (min n avail))).ending,
        (carry as (n - min k (min n avail)) (avail - min k (min n avail))).left⟩ := by
  cases n with
  | zero => omega
  | succ n => rfl

/-! ## How much is carried -/

theorem carried_le (as : List Ans) (n avail : ℕ) :
    (carry as n avail).carried ≤ min n avail := by
  induction as generalizing n avail with
  | nil => cases n <;> simp [carry]
  | cons a as ih =>
      cases n with
      | zero => simp
      | succ n =>
          cases a with
          | fail => simp
          | upTo k =>
              have := ih (n + 1 - min k (min (n + 1) avail)) (avail - min k (min (n + 1) avail))
              rw [carry_upTo (by omega : 0 < n + 1)]
              dsimp only
              omega

theorem carried_le_need (as : List Ans) (n avail : ℕ) : (carry as n avail).carried ≤ n :=
  Nat.le_trans (carried_le as n avail) (Nat.min_le_left _ _)

theorem carried_le_avail (as : List Ans) (n avail : ℕ) :
    (carry as n avail).carried ≤ avail :=
  Nat.le_trans (carried_le as n avail) (Nat.min_le_right _ _)

theorem carried_of_done {as : List Ans} {n avail : ℕ} (h : (carry as n avail).ending = .done) :
    (carry as n avail).carried = n := by
  induction as generalizing n avail with
  | nil => cases n <;> simp_all [carry]
  | cons a as ih =>
      cases n with
      | zero => simp
      | succ n =>
          cases a with
          | fail => simp at h
          | upTo k =>
              rw [carry_upTo (by omega : 0 < n + 1)] at h ⊢
              have := ih h
              dsimp only
              omega

/-- The answers that are left are the last ones of the script. -/
theorem left_isSuffix (as : List Ans) (n avail : ℕ) : (carry as n avail).left <:+ as := by
  induction as generalizing n avail with
  | nil => cases n <;> simp [carry]
  | cons a as ih =>
      cases n with
      | zero => simp
      | succ n =>
          cases a with
          | fail => simp
          | upTo k =>
              rw [carry_upTo (by omega : 0 < n + 1)]
              exact (ih _ _).trans (List.suffix_cons _ as)

/-- More cannot be carried than is at hand. -/
theorem not_done_of_short {as : List Ans} {n avail : ℕ} (h : avail < n) :
    (carry as n avail).ending ≠ .done := by
  intro hdone
  have hcarried := carried_of_done hdone
  have := carried_le_avail as n avail
  omega

/-- What lies beyond the units that are wanted makes no difference. -/
theorem carry_of_le {as : List Ans} {n avail : ℕ} (h : n ≤ avail) :
    carry as n avail = carry as n n := by
  induction as generalizing n avail with
  | nil => cases n <;> simp [carry]
  | cons a as ih =>
      cases n with
      | zero => simp
      | succ n =>
          cases a with
          | fail => simp
          | upTo k =>
              rw [carry_upTo (by omega : 0 < n + 1), carry_upTo (by omega : 0 < n + 1)]
              have hmin : min k (min (n + 1) avail) = min k (n + 1) := by omega
              have hmin' : min k (min (n + 1) (n + 1)) = min k (n + 1) := by omega
              rw [hmin, hmin', ih (by omega : n + 1 - min k (n + 1) ≤ avail - min k (n + 1))]

/-! ## Live scripts -/

/-- Every answer carries something. -/
def Live (as : List Ans) : Prop := ∀ a ∈ as, ∃ k, 0 < k ∧ a = .upTo k

/-- No answer fails. -/
def Sound (as : List Ans) : Prop := ∀ a ∈ as, ∃ k, a = .upTo k

@[simp] theorem live_nil : Live [] := by simp [Live]

theorem live_cons {a : Ans} {as : List Ans} :
    Live (a :: as) ↔ (∃ k, 0 < k ∧ a = .upTo k) ∧ Live as := by
  simp [Live]

theorem Live.sound {as : List Ans} (h : Live as) : Sound as := by
  intro a ha
  obtain ⟨k, -, rfl⟩ := h a ha
  exact ⟨k, rfl⟩

theorem live_replicate {k : ℕ} (hk : 0 < k) (n : ℕ) : Live (List.replicate n (.upTo k)) :=
  fun _ ha => ⟨k, hk, List.eq_of_mem_replicate ha⟩

theorem Live.suffix {as left : List Ans} (h : Live as) (hle : left <:+ as) : Live left :=
  fun a ha => h a (hle.subset ha)

theorem Live.left {as : List Ans} (h : Live as) (n avail : ℕ) :
    Live (carry as n avail).left := by
  induction as generalizing n avail with
  | nil => cases n <;> simp [carry]
  | cons a as ih =>
      cases n with
      | zero => simpa using h
      | succ n =>
          obtain ⟨⟨k, -, rfl⟩, has⟩ := live_cons.mp h
          rw [carry_upTo (by omega : 0 < n + 1)]
          exact ih has _ _

theorem Sound.not_failed {as : List Ans} (h : Sound as) (n avail : ℕ) :
    (carry as n avail).ending ≠ .failed := by
  induction as generalizing n avail with
  | nil => cases n <;> simp [carry]
  | cons a as ih =>
      cases n with
      | zero => simp
      | succ n =>
          obtain ⟨k, rfl⟩ := h a List.mem_cons_self
          rw [carry_upTo (by omega : 0 < n + 1)]
          exact ih (fun b hb => h b (List.mem_cons_of_mem _ hb)) _ _

/-- A loop that asks for more than will ever come never ends, unless an answer fails. -/
theorem Sound.waiting_of_short {as : List Ans} (h : Sound as) {n avail : ℕ} (hlt : avail < n) :
    (carry as n avail).ending = .waiting := by
  cases hend : (carry as n avail).ending with
  | done => exact absurd hend (not_done_of_short hlt)
  | failed => exact absurd hend (h.not_failed n avail)
  | waiting => rfl

/-- A live script as long as the transfer carries all of it, one answer a unit at worst. -/
theorem Live.carry_done {as : List Ans} (h : Live as) {n avail : ℕ} (hn : n ≤ avail)
    (hlen : n ≤ as.length) :
    (carry as n avail).ending = .done ∧ as.length ≤ (carry as n avail).left.length + n := by
  induction as generalizing n avail with
  | nil =>
      obtain rfl : n = 0 := by simpa using hlen
      simp
  | cons a as ih =>
      cases n with
      | zero => simp
      | succ n =>
          obtain ⟨⟨k, hk, rfl⟩, has⟩ := live_cons.mp h
          rw [List.length_cons] at hlen
          rw [carry_upTo (by omega : 0 < n + 1), List.length_cons]
          obtain ⟨hdone, hleft⟩ := ih has
            (by omega : n + 1 - min k (min (n + 1) avail) ≤ avail - min k (min (n + 1) avail))
            (by omega)
          refine ⟨hdone, ?_⟩
          dsimp only
          omega

/-- All that is wanted being carried, the transfer is done. -/
theorem done_of_carried {as : List Ans} {n avail : ℕ} (h : (carry as n avail).carried = n) :
    (carry as n avail).ending = .done := by
  induction as generalizing n avail with
  | nil =>
      cases n with
      | zero => simp
      | succ n => simp at h
  | cons a as ih =>
      cases n with
      | zero => simp
      | succ n =>
          cases a with
          | fail => simp at h
          | upTo k =>
              rw [carry_upTo (by omega : 0 < n + 1)] at h ⊢
              have hle := carried_le_need as (n + 1 - min k (min (n + 1) avail))
                (avail - min k (min (n + 1) avail))
              refine ih ?_
              dsimp only at h
              omega

theorem carried_lt {as : List Ans} {n avail : ℕ} (h : (carry as n avail).ending ≠ .done) :
    (carry as n avail).carried < n :=
  Nat.lt_of_le_of_ne (carried_le_need as n avail) fun heq => h (done_of_carried heq)

/-! ## One script after another -/

/-- A transfer that waits has used every answer. -/
theorem left_of_waiting {as : List Ans} {n avail : ℕ} (h : (carry as n avail).ending = .waiting) :
    (carry as n avail).left = [] := by
  induction as generalizing n avail with
  | nil => cases n <;> simp [carry]
  | cons a as ih =>
      cases n with
      | zero => simp at h
      | succ n =>
          cases a with
          | fail => simp at h
          | upTo k =>
              rw [carry_upTo (by omega : 0 < n + 1)] at h ⊢
              exact ih h

/-- Further answers go on where a transfer was left waiting. -/
theorem carry_append_of_waiting {as : List Ans} (bs : List Ans) {n avail : ℕ}
    (h : (carry as n avail).ending = .waiting) :
    carry (as ++ bs) n avail =
      ⟨(carry as n avail).carried +
          (carry bs (n - (carry as n avail).carried) (avail - (carry as n avail).carried)).carried,
        (carry bs (n - (carry as n avail).carried) (avail - (carry as n avail).carried)).ending,
        (carry bs (n - (carry as n avail).carried)
          (avail - (carry as n avail).carried)).left⟩ := by
  induction as generalizing n avail with
  | nil =>
      cases n with
      | zero => simp at h
      | succ n => simp
  | cons a as ih =>
      cases n with
      | zero => simp at h
      | succ n =>
          cases a with
          | fail => simp at h
          | upTo k =>
              rw [carry_upTo (by omega : 0 < n + 1)] at h
              rw [List.cons_append, carry_upTo (by omega : 0 < n + 1), ih h,
                carry_upTo (by omega : 0 < n + 1)]
              simp only [Nat.sub_sub, Nat.add_assoc]

/-- An answer that fails ends a transfer that was waiting for it. -/
theorem carry_fail_of_waiting {as : List Ans} (left : List Ans) {n avail : ℕ}
    (h : (carry as n avail).ending = .waiting) :
    carry (as ++ .fail :: left) n avail = ⟨(carry as n avail).carried, .failed, left⟩ := by
  have hlt : (carry as n avail).carried < n := carried_lt (by rw [h]; decide)
  rw [carry_append_of_waiting _ h, carry_fail (by omega)]
  rfl

/-! ## Several transfers in a row -/

/-- One transfer after the other, as long as they are carried in full. -/
def carryAll : List Ans → List ℕ → Transfer
  | as, [] => ⟨0, .done, as⟩
  | as, n :: ns =>
      let t := carry as n n
      if t.ending = .done then
        let u := carryAll t.left ns
        ⟨t.carried + u.carried, u.ending, u.left⟩
      else t

@[simp] theorem carryAll_nil (as : List Ans) : carryAll as [] = ⟨0, .done, as⟩ := rfl

theorem carryAll_cons_of_done {as : List Ans} {n : ℕ} (ns : List ℕ)
    (h : (carry as n n).ending = .done) :
    carryAll as (n :: ns) =
      ⟨n + (carryAll (carry as n n).left ns).carried, (carryAll (carry as n n).left ns).ending,
        (carryAll (carry as n n).left ns).left⟩ := by
  rw [carryAll, if_pos h, carried_of_done h]

theorem carryAll_cons_of_not_done {as : List Ans} {n : ℕ} (ns : List ℕ)
    (h : (carry as n n).ending ≠ .done) : carryAll as (n :: ns) = carry as n n := by
  rw [carryAll, if_neg h]

theorem carryAll_of_done {as : List Ans} {ns : List ℕ} (h : (carryAll as ns).ending = .done) :
    (carryAll as ns).carried = ns.sum := by
  induction ns generalizing as with
  | nil => rfl
  | cons n ns ih =>
      by_cases hn : (carry as n n).ending = .done
      · rw [carryAll_cons_of_done ns hn] at h ⊢
        rw [List.sum_cons, ← ih h]
      · rw [carryAll_cons_of_not_done ns hn] at h
        exact absurd h hn

theorem carryAll_lt {as : List Ans} {ns : List ℕ} (h : (carryAll as ns).ending ≠ .done) :
    (carryAll as ns).carried < ns.sum := by
  induction ns generalizing as with
  | nil => exact absurd rfl h
  | cons n ns ih =>
      rw [List.sum_cons]
      by_cases hn : (carry as n n).ending = .done
      · rw [carryAll_cons_of_done ns hn] at h ⊢
        have := ih h
        dsimp only
        omega
      · rw [carryAll_cons_of_not_done ns hn]
        have := carried_lt hn
        omega

/-- What comes after a first row of transfers is carried once all of these are. -/
theorem carryAll_append_of_done {as : List Ans} {ns : List ℕ} (ms : List ℕ)
    (h : (carryAll as ns).ending = .done) :
    carryAll as (ns ++ ms) =
      ⟨ns.sum + (carryAll (carryAll as ns).left ms).carried,
        (carryAll (carryAll as ns).left ms).ending, (carryAll (carryAll as ns).left ms).left⟩ := by
  induction ns generalizing as with
  | nil => simp
  | cons n ns ih =>
      by_cases hn : (carry as n n).ending = .done
      · rw [List.cons_append, carryAll_cons_of_done _ hn]
        rw [carryAll_cons_of_done _ hn] at h ⊢
        rw [ih h, List.sum_cons, Nat.add_assoc]
      · rw [carryAll_cons_of_not_done ns hn] at h
        exact absurd h hn

theorem carryAll_append_of_not_done {as : List Ans} {ns : List ℕ} (ms : List ℕ)
    (h : (carryAll as ns).ending ≠ .done) : carryAll as (ns ++ ms) = carryAll as ns := by
  induction ns generalizing as with
  | nil => exact absurd rfl h
  | cons n ns ih =>
      by_cases hn : (carry as n n).ending = .done
      · rw [List.cons_append, carryAll_cons_of_done _ hn]
        rw [carryAll_cons_of_done _ hn] at h ⊢
        rw [ih h]
      · rw [List.cons_append, carryAll_cons_of_not_done _ hn, carryAll_cons_of_not_done _ hn]

theorem carryAll_left_isSuffix (as : List Ans) (ns : List ℕ) : (carryAll as ns).left <:+ as := by
  induction ns generalizing as with
  | nil => exact List.suffix_refl as
  | cons n ns ih =>
      by_cases hn : (carry as n n).ending = .done
      · rw [carryAll_cons_of_done ns hn]
        exact (ih _).trans (left_isSuffix as n n)
      · rw [carryAll_cons_of_not_done ns hn]
        exact left_isSuffix as n n

theorem Live.carryAll_left {as : List Ans} (h : Live as) (ns : List ℕ) :
    Live (carryAll as ns).left :=
  h.suffix (carryAll_left_isSuffix as ns)

theorem Sound.suffix {as left : List Ans} (h : Sound as) (hle : left <:+ as) : Sound left :=
  fun a ha => h a (hle.subset ha)

theorem Sound.carryAll_not_failed {as : List Ans} (h : Sound as) (ns : List ℕ) :
    (carryAll as ns).ending ≠ .failed := by
  induction ns generalizing as with
  | nil => simp
  | cons n ns ih =>
      by_cases hn : (carry as n n).ending = .done
      · rw [carryAll_cons_of_done ns hn]
        exact ih (h.suffix (left_isSuffix as n n))
      · rw [carryAll_cons_of_not_done ns hn]
        exact h.not_failed n n

/-- A live script carries everything, at one answer a unit at worst. -/
theorem Live.carryAll_done {as : List Ans} (h : Live as) {ns : List ℕ}
    (hlen : ns.sum ≤ as.length) :
    (carryAll as ns).ending = .done ∧
      as.length ≤ (carryAll as ns).left.length + ns.sum := by
  induction ns generalizing as with
  | nil => simp
  | cons n ns ih =>
      rw [List.sum_cons] at hlen ⊢
      obtain ⟨hdone, hleft⟩ := h.carry_done (Nat.le_refl n) (by omega)
      obtain ⟨hdone', hleft'⟩ := ih (h.left n n) (by omega)
      rw [carryAll_cons_of_done ns hdone]
      refine ⟨hdone', ?_⟩
      dsimp only
      omega

/-! ## Scripts that never stand still -/

/-- No answer carries nothing: each fails or carries something. -/
def Moving (as : List Ans) : Prop := .upTo 0 ∉ as

theorem Moving.suffix {as left : List Ans} (h : Moving as) (hle : left <:+ as) : Moving left :=
  fun hmem => h (hle.subset hmem)

/-- A moving script that is long enough does not leave a transfer waiting. -/
theorem Moving.carry_ends {as : List Ans} (h : Moving as) {n : ℕ} (hlen : n ≤ as.length) :
    (carry as n n).ending ≠ .waiting ∧
      ((carry as n n).ending = .done → as.length ≤ (carry as n n).left.length + n) := by
  induction as generalizing n with
  | nil =>
      obtain rfl : n = 0 := by simpa using hlen
      simp
  | cons a as ih =>
      cases n with
      | zero => simp
      | succ n =>
          cases a with
          | fail => simp
          | upTo k =>
              have hk : k ≠ 0 := by
                rintro rfl
                exact h List.mem_cons_self
              rw [List.length_cons] at hlen
              have hmin : min k (min (n + 1) (n + 1)) = min k (n + 1) := by omega
              obtain ⟨hends, hleft⟩ := ih (fun hmem => h (List.mem_cons_of_mem _ hmem))
                (by omega : n + 1 - min k (n + 1) ≤ as.length)
              rw [carry_upTo (by omega : 0 < n + 1), hmin, List.length_cons]
              refine ⟨hends, fun hdone => ?_⟩
              have := hleft hdone
              dsimp only
              omega

theorem Moving.carryAll_ends {as : List Ans} (h : Moving as) {ns : List ℕ}
    (hlen : ns.sum ≤ as.length) : (carryAll as ns).ending ≠ .waiting := by
  induction ns generalizing as with
  | nil => simp
  | cons n ns ih =>
      rw [List.sum_cons] at hlen
      obtain ⟨hends, hleft⟩ := h.carry_ends (by omega : n ≤ as.length)
      by_cases hn : (carry as n n).ending = .done
      · have := hleft hn
        rw [carryAll_cons_of_done ns hn]
        exact ih (h.suffix (left_isSuffix as n n)) (by omega)
      · rw [carryAll_cons_of_not_done ns hn]
        exact hends

/-- What is carried before a script stops is nothing only if its first answer fails. -/
theorem Moving.carried_pos {as : List Ans} (h : Moving as) {n : ℕ} (hn : 0 < n)
    (hfirst : as.head? ≠ some .fail) (hne : as ≠ []) : 0 < (carry as n n).carried := by
  cases as with
  | nil => exact absurd rfl hne
  | cons a as =>
      cases a with
      | fail => exact absurd rfl hfirst
      | upTo k =>
          have hk : k ≠ 0 := by
            rintro rfl
            exact h List.mem_cons_self
          rw [carry_upTo hn]
          dsimp only
          omega

end Transfer
