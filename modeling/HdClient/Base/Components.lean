-- SUMMARY: Systems of components: a program that runs on one of them, and what becomes of all of them over runs.
import HdClient.Base.Runs

/-! # Components

A system has any number of components. A call runs on one of them or adds one,
in any order; the others do not take part in it. -/

namespace Outcome

variable {σ τ α : Type}

/-- The same outcome, in a state made from its own. -/
def mapState (f : σ → τ) : Outcome σ α → Outcome τ α
  | .ret a s => .ret a (f s)
  | .wait s => .wait (f s)
  | .undefined s => .undefined (f s)

@[simp] theorem state_mapState (f : σ → τ) (o : Outcome σ α) : (o.mapState f).state = f o.state := by
  cases o <;> rfl

theorem andThen_assoc {β γ : Type} (o : Outcome σ α) (f : α → Prog σ β) (g : β → Prog σ γ) :
    (o.andThen f).andThen g = o.andThen fun a => f a >>= g := by
  cases o <;> rfl

theorem mapState_eq_ret {f : σ → τ} {o : Outcome σ α} {a : α} {t : τ} :
    o.mapState f = .ret a t ↔ ∃ s, o = .ret a s ∧ f s = t := by
  cases o <;> simp [mapState, and_assoc]

end Outcome

namespace Prog

variable {σ τ ι α β : Type}

/-- A value that is only made into another one leaves the state as it is. -/
theorem state_bind_pure (x : Prog σ α) (f : α → β) (s : σ) :
    ((x >>= fun a => pure (f a)).run s).state = (x.run s).state := by
  rw [run_bind]
  cases x.run s <;> rfl

/-- A first part that left a state related to its own, before one that always does. -/
theorem Frame.bind_state {R : σ → σ → Prop} (h : Frame R) {x : Prog σ α} {f : α → Prog σ β} {s : σ}
    (hx : R s (x.run s).state) (hf : ∀ a, Keeps R (f a)) : R s ((x >>= f).run s).state := by
  rw [run_bind]
  cases hrun : x.run s with
  | ret a t =>
      rw [hrun] at hx
      exact h.trans hx (hf a t)
  | wait t => rwa [hrun] at hx
  | undefined t => rwa [hrun] at hx

/-- A program on a part of the state. -/
def onPart (get : σ → τ) (set : σ → τ → σ) (x : Prog τ α) : Prog σ α where
  run s := (x.run (get s)).mapState (set s)

/-- A program on the component `i`; undefined where there is none. -/
def component (i : ℕ) (x : Prog σ α) : Prog (List σ) α where
  run ss := match ss[i]? with
    | some s => (x.run s).mapState (ss.set i)
    | none => .undefined ss

theorem run_onPart (get : σ → τ) (set : σ → τ → σ) (x : Prog τ α) (s : σ) :
    (onPart get set x).run s = (x.run (get s)).mapState (set s) := rfl

theorem run_component {ss : List σ} {i : ℕ} {s : σ} (h : ss[i]? = some s) (x : Prog σ α) :
    (component i x).run ss = (x.run s).mapState (ss.set i) := by
  simp only [component, h]

theorem run_component_none {ss : List σ} {i : ℕ} (h : ss[i]? = none) (x : Prog σ α) :
    (component i x).run ss = .undefined ss := by
  simp only [component, h]

/-! ## What becomes of the components -/

/-- Every component is still there, related to what it was; there may be more of them. -/
def Evolves (R : σ → σ → Prop) (ss ts : List σ) : Prop :=
  ∀ (i : ℕ) s, ss[i]? = some s → ∃ t, ts[i]? = some t ∧ R s t

variable {R : σ → σ → Prop} {I : σ → Prop} {x : Prog σ α}

theorem Frame.evolves (h : Frame R) : Frame (Evolves R) where
  refl ss i s hs := ⟨s, hs, h.refl s⟩
  trans hfirst hsecond i s hs := by
    obtain ⟨t, ht, hst⟩ := hfirst i s hs
    obtain ⟨u, hu, htu⟩ := hsecond i t ht
    exact ⟨u, hu, h.trans hst htu⟩

theorem Frame.evolves_append (h : Frame R) (ss ts : List σ) : Evolves R ss (ss ++ ts) := by
  intro i s hs
  exact ⟨s, List.getElem?_append_left (List.getElem?_eq_some_iff.mp hs).1 |>.trans hs, h.refl s⟩

/-- A call on one component leaves the others as they are. -/
theorem Keeps.component (h : Frame R) (hx : Keeps R x) (i : ℕ) :
    Keeps (Evolves R) (Prog.component i x) := by
  intro ss
  cases hi : ss[i]? with
  | none =>
      rw [run_component_none hi]
      exact h.evolves.refl ss
  | some s =>
      rw [run_component hi, Outcome.state_mapState]
      intro j u hu
      by_cases hij : i = j
      · subst hij
        obtain rfl := Option.some.inj (hi.symm.trans hu)
        exact ⟨_, List.getElem?_set_self (List.getElem?_eq_some_iff.mp hi).1, hx s⟩
      · exact ⟨u, (List.getElem?_set_ne hij).trans hu, h.refl u⟩

/-- What a call keeps of its own component holds of all of them. -/
theorem Keeps.component_all (hx : Keeps (fun s t => I s → I t) x) (i : ℕ) :
    Keeps (fun ss ts => (∀ s ∈ ss, I s) → ∀ t ∈ ts, I t) (Prog.component i x) := by
  intro ss hall
  cases hi : ss[i]? with
  | none =>
      rw [run_component_none hi]
      exact hall
  | some s =>
      rw [run_component hi, Outcome.state_mapState]
      intro t ht
      rcases List.mem_or_eq_of_mem_set ht with ht | rfl
      · exact hall t ht
      · exact hx s (hall s (List.mem_of_getElem? hi))

/-! ## Runs -/

/-- What every call keeps, wherever it stops, is kept to every moment of a run. -/
theorem Moments.related {ok : ι → σ → Prop} {call : ι → Prog σ α} (h : Frame R)
    (hcall : ∀ i t, ok i t → R t ((call i).run t).state) {s t : σ} {log : List (ι × α)}
    (hmoment : Moments ok call s log t) : R s t := by
  have hruns : ∀ {log t}, Runs ok call s log t → R s t := fun hruns =>
    hruns.invariant (I := fun _ t => R s t) (h.refl s) fun {log t i a u} hst hok hret => by
      have hstep := hcall i t hok
      rw [hret] at hstep
      exact h.trans hst hstep
  cases hmoment with
  | returned hlog => exact hruns hlog
  | underway hlog hok hwait =>
      have hstep := hcall _ _ hok
      rw [hwait] at hstep
      exact h.trans (hruns hlog) hstep

end Prog
