-- SUMMARY: Runs of calls on one state, and the rule for what holds after every run.
import HdClient.Base.Outcome

/-! # Runs of calls

A client calls a program again and again, each time from the state the last
call left. Only calls that return are part of a run. -/

namespace Prog

variable {σ ι α : Type}

/-- `Runs ok call s log t`: from `s`, the calls of `log` returned what it lists,
one after the other, and left `t`; each of them met `ok` when it was made. -/
inductive Runs (ok : ι → σ → Prop) (call : ι → Prog σ α) (s : σ) : List (ι × α) → σ → Prop where
  | nil : Runs ok call s [] s
  | snoc {log : List (ι × α)} {t u : σ} {i : ι} {a : α} :
      Runs ok call s log t → ok i t → (call i).run t = .ret a u →
      Runs ok call s (log ++ [(i, a)]) u

/-- Calls without a condition. -/
abbrev AnyRuns (call : ι → Prog σ α) (s : σ) : List (ι × α) → σ → Prop :=
  Runs (fun _ _ => True) call s

variable {ok : ι → σ → Prop} {call : ι → Prog σ α} {s t u : σ} {log : List (ι × α)}

/-- What holds of a start and is kept by each call that returns holds after every run. -/
theorem Runs.invariant {I : List (ι × α) → σ → Prop} (h : Runs ok call s log t) (hstart : I [] s)
    (hstep : ∀ {log t i a u}, I log t → ok i t → (call i).run t = .ret a u →
      I (log ++ [(i, a)]) u) : I log t := by
  induction h with
  | nil => exact hstart
  | snoc _ hok hret ih => exact hstep ih hok hret

theorem Runs.mono {ok' : ι → σ → Prop} (h : Runs ok call s log t) (hok : ∀ i t, ok i t → ok' i t) :
    Runs ok' call s log t := by
  induction h with
  | nil => exact .nil
  | snoc _ hcall hret ih => exact .snoc ih (hok _ _ hcall) hret

theorem Runs.of_nil (h : Runs ok call s [] t) : t = s := by
  generalize hlog : ([] : List (ι × α)) = log at h
  cases h with
  | nil => rfl
  | snoc => simp at hlog

/-- The last call of a run. -/
theorem Runs.of_snoc {i : ι} {a : α} (h : Runs ok call s (log ++ [(i, a)]) u) :
    ∃ t, Runs ok call s log t ∧ ok i t ∧ (call i).run t = .ret a u := by
  generalize hlog' : log ++ [(i, a)] = log' at h
  cases h with
  | nil => simp at hlog'
  | snoc hlog hok hret =>
      obtain ⟨rfl, heq⟩ := List.append_inj' hlog' rfl
      obtain ⟨rfl, rfl⟩ := Prod.mk.inj (List.cons.inj heq).1
      exact ⟨_, hlog, hok, hret⟩

/-- One call, from the start of a run. -/
theorem Runs.single {i : ι} {a : α} (hok : ok i s) (hret : (call i).run s = .ret a u) :
    Runs ok call s [(i, a)] u :=
  show Runs ok call s ([] ++ [(i, a)]) u from .snoc .nil hok hret

theorem Runs.append {log' : List (ι × α)} (h : Runs ok call s log t)
    (h' : Runs ok call t log' u) : Runs ok call s (log ++ log') u := by
  induction h' with
  | nil => simpa using h
  | snoc _ hok hret ih => simpa only [List.append_assoc] using Runs.snoc ih hok hret

/-- The moments of a run: after a call that returned, or while the last one waits. -/
inductive Moments (ok : ι → σ → Prop) (call : ι → Prog σ α) (s : σ) : List (ι × α) → σ → Prop where
  | returned {log : List (ι × α)} {t : σ} : Runs ok call s log t → Moments ok call s log t
  | underway {log : List (ι × α)} {t u : σ} {i : ι} :
      Runs ok call s log t → ok i t → (call i).run t = .wait u → Moments ok call s log u

end Prog
