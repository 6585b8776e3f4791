import Mathlib.Logic.Basic

namespace Exios.Transition

/-!
# Base — runs of a transition function

A system is an initial predicate together with a partial step function
`step : σ → ι → Option σ`; the label `ι` carries every choice the environment makes.

* `Reach init step ok s` — `s` is reached by a run all of whose steps satisfy `ok` (a
  condition on the state before the step and its label).  `ok := fun _ _ => True` gives all
  runs.
* `Reach.invariant` — the induction rule: what holds at the start and survives a step holds
  in every state reached.
* `exec` — replay a finite list of labels; `exec_reach` turns a replay into a run, so that a
  concrete run can be computed (`exists_reach`);
* `exec_sim` — a replay is simulated, label by label, by a system with a total step function.
-/

variable {σ ι : Type*}

/-- States reached from `init` by steps that satisfy `ok`. -/
inductive Reach (init : σ → Prop) (step : σ → ι → Option σ) (ok : σ → ι → Prop) : σ → Prop
  | start {s : σ} : init s → Reach init step ok s
  | next {s s' : σ} {a : ι} : Reach init step ok s → ok s a → step s a = some s' →
      Reach init step ok s'

/-- Every step is allowed. -/
def always : σ → ι → Prop := fun _ _ => True

variable {init : σ → Prop} {step : σ → ι → Option σ} {ok : σ → ι → Prop}

/-- **Invariant rule.** -/
theorem Reach.invariant (Inv : σ → Prop) (h0 : ∀ s, init s → Inv s)
    (hstep : ∀ s a s', Inv s → ok s a → step s a = some s' → Inv s') {s : σ}
    (h : Reach init step ok s) : Inv s := by
  induction h with
  | start hs => exact h0 _ hs
  | next _ hok hs ih => exact hstep _ _ _ ih hok hs

/-- A step that is a fallible function has a successor exactly when the function succeeds. -/
theorem toOption_eq_some {ε α : Type*} {e : Except ε α} {a : α} :
    e.toOption = some a ↔ e = .ok a := by
  cases e <;> simp [Except.toOption]

theorem toOption_map {ε α β : Type*} (f : α → β) (e : Except ε α) :
    (e.map f).toOption = e.toOption.map f := by
  cases e <;> rfl

/-- Replay a list of labels. -/
def exec (step : σ → ι → Option σ) : σ → List ι → Option σ
  | s, [] => some s
  | s, a :: as => (step s a).bind (fun s' => exec step s' as)

/-- **Forward simulation by a total system.**  What every step preserves between the two states,
    a replay of the same labels does. -/
theorem exec_sim {ρ : Type*} (R : σ → ρ → Prop) (ref : ρ → ι → ρ)
    (hR : ∀ s r a s', R s r → step s a = some s' → R s' (ref r a)) {s s' : σ} {r : ρ}
    (h0 : R s r) (as : List ι) (hexec : exec step s as = some s') : R s' (as.foldl ref r) := by
  induction as generalizing s r with
  | nil =>
    rw [exec, Option.some.injEq] at hexec
    exact hexec ▸ h0
  | cons a as ih =>
    rw [exec, Option.bind_eq_some_iff] at hexec
    obtain ⟨t, hstep, hrest⟩ := hexec
    exact ih (hR s r a t h0 hstep) hrest

/-- The step function with the condition `ok` as a guard. -/
def guarded (step : σ → ι → Option σ) (ok : σ → ι → Prop) [∀ s a, Decidable (ok s a)] :
    σ → ι → Option σ :=
  fun s a => if ok s a then step s a else none

instance (s : σ) (a : ι) : Decidable (always s a) := isTrue trivial

/-- A guard that is always met does not restrict a step. -/
theorem guarded_always : guarded step always = step := by
  funext s a
  exact if_pos trivial

variable [∀ s a, Decidable (ok s a)]

/-- A replay from a reached state is a run. -/
theorem exec_reach {s s' : σ} (h : Reach init step ok s) (as : List ι)
    (hexec : exec (guarded step ok) s as = some s') : Reach init step ok s' := by
  induction as generalizing s with
  | nil =>
    rw [exec, Option.some.injEq] at hexec
    exact hexec ▸ h
  | cons a as ih =>
    rw [exec, Option.bind_eq_some_iff] at hexec
    obtain ⟨t, hstep, hrest⟩ := hexec
    unfold guarded at hstep
    split at hstep
    · rename_i hok
      exact ih (.next h hok hstep) hrest
    · exact absurd hstep (by simp)

/-- **A computed run.**  What a replay from a start state is seen to end in is reached. -/
theorem exists_reach {s : σ} (h : init s) (as : List ι) (p : σ → Bool)
    (hexec : (exec (guarded step ok) s as).any p = true) :
    ∃ s', Reach init step ok s' ∧ p s' = true := by
  rw [Option.any_eq_true] at hexec
  obtain ⟨s', hs', hp⟩ := hexec
  exact ⟨s', exec_reach (.start h) as hs', hp⟩

end Exios.Transition
