-- SUMMARY: Programs that run against a scripted environment, the outcomes they can have, and a weakest-precondition calculus for them.
import Mathlib.Algebra.Ring.Nat
import Mathlib.Data.List.Basic

/-! # Outcomes and programs

A program is run from a state and comes to one of three outcomes. It *returns*
a value, it is *waiting* for an answer that the environment's script does not
hold, or it has done something whose effect is *undefined*. The last two carry
the state they were reached in, so a property of the final state of every
outcome, over every script, is a property of every moment of a run. -/

/-- What running a program comes to. -/
inductive Outcome (σ α : Type) where
  /-- The program returned `a`. -/
  | ret (a : α) (s : σ) : Outcome σ α
  /-- The program waits for the environment. -/
  | wait (s : σ) : Outcome σ α
  /-- The program did something that has no defined effect. -/
  | undefined (s : σ) : Outcome σ α

/-- A program over the state `σ` with results in `α`. -/
structure Prog (σ α : Type) where
  run : σ → Outcome σ α

namespace Outcome

variable {σ α β : Type}

/-- The state an outcome was reached in. -/
def state : Outcome σ α → σ
  | .ret _ s => s
  | .wait s => s
  | .undefined s => s

/-- Go on from a returned outcome; the other outcomes are final. -/
def andThen : Outcome σ α → (α → Prog σ β) → Outcome σ β
  | .ret a s, f => (f a).run s
  | .wait s, _ => .wait s
  | .undefined s, _ => .undefined s

/-- The value that was returned. -/
def value? : Outcome σ α → Option α
  | .ret a _ => some a
  | .wait _ => none
  | .undefined _ => none

theorem value?_eq_some {o : Outcome σ α} {a : α} : o.value? = some a ↔ ∃ s, o = .ret a s := by
  cases o <;> simp [value?]

@[simp] theorem state_ret (a : α) (s : σ) : (Outcome.ret a s).state = s := rfl
@[simp] theorem state_wait (s : σ) : (Outcome.wait s : Outcome σ α).state = s := rfl
@[simp] theorem state_undefined (s : σ) : (Outcome.undefined s : Outcome σ α).state = s := rfl

@[simp] theorem andThen_ret (a : α) (s : σ) (f : α → Prog σ β) :
    (Outcome.ret a s).andThen f = (f a).run s := rfl
@[simp] theorem andThen_wait (s : σ) (f : α → Prog σ β) :
    (Outcome.wait s).andThen f = .wait s := rfl
@[simp] theorem andThen_undefined (s : σ) (f : α → Prog σ β) :
    (Outcome.undefined s).andThen f = .undefined s := rfl

/-! ## Weakest preconditions -/

/-- `o.wp Q I`: if `o` returned, its value and state satisfy `Q`, and if it did
not, the state it stopped in satisfies `I`. -/
def wp (o : Outcome σ α) (Q : α → σ → Prop) (I : σ → Prop) : Prop :=
  match o with
  | .ret a s => Q a s
  | .wait s => I s
  | .undefined s => I s

@[simp] theorem wp_ret {a : α} {s : σ} {Q : α → σ → Prop} {I : σ → Prop} :
    (Outcome.ret a s).wp Q I ↔ Q a s := Iff.rfl
@[simp] theorem wp_wait {s : σ} {Q : α → σ → Prop} {I : σ → Prop} :
    (Outcome.wait s : Outcome σ α).wp Q I ↔ I s := Iff.rfl
@[simp] theorem wp_undefined {s : σ} {Q : α → σ → Prop} {I : σ → Prop} :
    (Outcome.undefined s : Outcome σ α).wp Q I ↔ I s := Iff.rfl

theorem wp_andThen {o : Outcome σ α} {f : α → Prog σ β} {Q : β → σ → Prop}
    {I : σ → Prop} :
    (o.andThen f).wp Q I ↔ o.wp (fun a s => ((f a).run s).wp Q I) I := by
  cases o <;> rfl

theorem wp.mono {o : Outcome σ α} {Q Q' : α → σ → Prop} {I I' : σ → Prop}
    (h : o.wp Q I) (hQ : ∀ a s, Q a s → Q' a s) (hI : ∀ s, I s → I' s) :
    o.wp Q' I' := by
  cases o with
  | ret a s => exact hQ a s h
  | wait s => exact hI s h
  | undefined s => exact hI s h

/-- A property of the final state of every outcome. -/
theorem wp.state {o : Outcome σ α} {I : σ → Prop} (h : o.wp (fun _ => I) I) :
    I o.state := by
  cases o <;> exact h

/-- What a returned outcome satisfies. -/
theorem wp.of_ret {o : Outcome σ α} {Q : α → σ → Prop} {I : σ → Prop} {a : α} {s : σ}
    (h : o.wp Q I) (ho : o = .ret a s) : Q a s := by
  subst ho
  exact h

end Outcome

namespace Prog

variable {σ α β : Type}

instance : Monad (Prog σ) where
  pure a := ⟨fun s => .ret a s⟩
  bind x f := ⟨fun s => (x.run s).andThen f⟩

/-- A step that has no defined effect. -/
def undefined : Prog σ α := ⟨fun s => .undefined s⟩

/-- A step that has to wait for the environment. -/
def await : Prog σ α := ⟨fun s => .wait s⟩

/-- Read the state. -/
def get : Prog σ σ := ⟨fun s => .ret s s⟩

/-- Change the state. -/
def modify (f : σ → σ) : Prog σ Unit := ⟨fun s => .ret () (f s)⟩

/-- A computation without effects that may be undefined. -/
def ofOption : Option α → Prog σ α
  | some a => pure a
  | none => undefined

@[simp] theorem run_pure (a : α) (s : σ) : (pure a : Prog σ α).run s = .ret a s := rfl
@[simp] theorem run_bind (x : Prog σ α) (f : α → Prog σ β) (s : σ) :
    (x >>= f).run s = (x.run s).andThen f := rfl
@[simp] theorem run_undefined (s : σ) : (undefined : Prog σ α).run s = .undefined s := rfl
@[simp] theorem run_await (s : σ) : (await : Prog σ α).run s = .wait s := rfl
@[simp] theorem run_get (s : σ) : (get : Prog σ σ).run s = .ret s s := rfl
@[simp] theorem run_modify (f : σ → σ) (s : σ) : (modify f).run s = .ret () (f s) := rfl
@[simp] theorem ofOption_some (a : α) : (ofOption (some a) : Prog σ α) = pure a := rfl
@[simp] theorem ofOption_none : (ofOption none : Prog σ α) = undefined := rfl

theorem ofOption_eq_ret {o : Option α} {a : α} {s t : σ} :
    (ofOption o).run s = .ret a t ↔ o = some a ∧ t = s := by
  cases o with
  | none => simp
  | some b => simp [eq_comm]

theorem run_ite {p : Prop} [Decidable p] (x y : Prog σ α) (s : σ) :
    (if p then x else y).run s = if p then x.run s else y.run s := by
  split <;> rfl

/-- A program that goes on after a first part has returned did so from the
state the first part left. -/
theorem bind_eq_ret {x : Prog σ α} {f : α → Prog σ β} {s s' : σ} {b : β} :
    (x >>= f).run s = .ret b s' ↔ ∃ a t, x.run s = .ret a t ∧ (f a).run t = .ret b s' := by
  constructor
  · intro h
    cases hx : x.run s with
    | ret a t => exact ⟨a, t, rfl, by simpa [hx] using h⟩
    | wait t => simp [hx] at h
    | undefined t => simp [hx] at h
  · rintro ⟨a, t, hx, hf⟩
    simpa [hx] using hf

/-- Sequencing: establish the second part from wherever the first one returns. -/
theorem wp_bind {x : Prog σ α} {f : α → Prog σ β} {s : σ} {Q : β → σ → Prop}
    {I : σ → Prop} :
    ((x >>= f).run s).wp Q I ↔ (x.run s).wp (fun a t => ((f a).run t).wp Q I) I :=
  Outcome.wp_andThen

/-! ## What a program leaves as it was -/

/-- A relation between states that holds of doing nothing, and of one thing after another. -/
structure Frame (R : σ → σ → Prop) : Prop where
  refl : ∀ s, R s s
  trans : ∀ {s t u}, R s t → R t u → R s u

/-- Wherever the program stops, its state is related to the one it started in. -/
def Keeps (R : σ → σ → Prop) (x : Prog σ α) : Prop := ∀ s, R s (x.run s).state

namespace Frame

variable {R : σ → σ → Prop} (h : Frame R)

include h

theorem keeps_pure (a : α) : Keeps R (pure a : Prog σ α) := fun s => h.refl s

theorem keeps_undefined : Keeps R (undefined : Prog σ α) := fun s => h.refl s

theorem keeps_await : Keeps R (await : Prog σ α) := fun s => h.refl s

theorem keeps_get : Keeps R (get : Prog σ σ) := fun s => h.refl s

theorem keeps_ofOption (o : Option α) : Keeps R (ofOption o : Prog σ α) := by
  cases o with
  | none => exact h.keeps_undefined
  | some a => exact h.keeps_pure a

theorem keeps_bind {x : Prog σ α} {f : α → Prog σ β} (hx : Keeps R x) (hf : ∀ a, Keeps R (f a)) :
    Keeps R (x >>= f) := by
  intro s
  have hfirst := hx s
  rw [run_bind]
  cases hrun : x.run s with
  | ret a t =>
      rw [hrun] at hfirst
      exact h.trans hfirst (hf a t)
  | wait t =>
      rw [hrun] at hfirst
      exact hfirst
  | undefined t =>
      rw [hrun] at hfirst
      exact hfirst

end Frame

theorem Keeps.ite {R : σ → σ → Prop} {p : Prop} [Decidable p] {x y : Prog σ α} (hx : Keeps R x)
    (hy : Keeps R y) : Keeps R (if p then x else y) := by
  split
  · exact hx
  · exact hy

/-- What a program that returned has left. -/
theorem Keeps.of_ret {R : σ → σ → Prop} {x : Prog σ α} (hx : Keeps R x) {s t : σ} {a : α}
    (hrun : x.run s = .ret a t) : R s t := by
  have h := hx s
  rwa [hrun] at h

/-- The rule for a first part that only keeps a relation. -/
theorem Keeps.wp {R : σ → σ → Prop} {x : Prog σ α} (hx : Keeps R x) (s : σ) :
    (x.run s).wp (fun a t => x.run s = .ret a t ∧ R s t) (R s) := by
  have h := hx s
  cases hrun : x.run s with
  | ret a t => exact ⟨rfl, by rwa [hrun] at h⟩
  | wait t => rwa [hrun] at h
  | undefined t => rwa [hrun] at h

end Prog
