import Exios.Base.Transition

namespace Exios.Transition

/-!
# Base — traces, and trace inclusion between two systems

A low-level system is a partial step function, as in `Transition.lean`; what an observer sees of a
step is a list of events (`out`).  A high-level system is a relation `Step x e y` that makes one
event at a time.

* `Traced init step out tr s` — a run of the low-level system to `s` was seen as `tr`
  (`exists_traced`: such a run can be computed);
* `Steps Step x tr y` — the high-level system makes the events `tr`, one after the other;
* `ForwardSimulation` — every low-level step that keeps to an invariant makes its events between
  the meanings of its two states; then every trace of the low-level system is one of the
  high-level system (`ForwardSimulation.refines`).
-/

variable {σ ι ε τ : Type*}

/-! ### The low level -/

/-- Runs with what is seen of them. -/
inductive Traced (init : σ → Prop) (step : σ → ι → Option σ) (out : σ → ι → σ → List ε) :
    List ε → σ → Prop
  | start {s : σ} : init s → Traced init step out [] s
  | next {tr : List ε} {s s' : σ} {a : ι} : Traced init step out tr s → step s a = some s' →
      Traced init step out (tr ++ out s a s') s'

variable {init : σ → Prop} {step : σ → ι → Option σ} {out : σ → ι → σ → List ε}

/-- What is seen of a run does not matter for where it leads. -/
theorem Traced.reach {tr : List ε} {s : σ} (h : Traced init step out tr s) :
    Reach init step always s := by
  induction h with
  | start hs => exact .start hs
  | next _ hs ih => exact .next ih trivial hs

/-- Replay a list of labels, and collect what is seen. -/
def replay (step : σ → ι → Option σ) (out : σ → ι → σ → List ε) :
    σ → List ι → Option (List ε × σ)
  | s, [] => some ([], s)
  | s, a :: as =>
    (step s a).bind (fun s' => (replay step out s' as).map (fun p => (out s a s' ++ p.1, p.2)))

/-- A replay from a reached state goes on with its trace. -/
theorem Traced.replay {tr tr' : List ε} {s s' : σ} (h : Traced init step out tr s) {as : List ι}
    (hrun : Transition.replay step out s as = some (tr', s')) :
    Traced init step out (tr ++ tr') s' := by
  induction as generalizing tr tr' s with
  | nil =>
    rw [Transition.replay, Option.some.injEq, Prod.mk.injEq] at hrun
    obtain ⟨rfl, rfl⟩ := hrun
    rwa [List.append_nil]
  | cons a as ih =>
    rw [Transition.replay, Option.bind_eq_some_iff] at hrun
    obtain ⟨s₁, hs₁, hrest⟩ := hrun
    obtain ⟨⟨tr₁, s₂⟩, hrun₁, heq⟩ := Option.map_eq_some_iff.mp hrest
    rw [Prod.mk.injEq] at heq
    obtain ⟨rfl, rfl⟩ := heq
    have hnext := ih (h.next hs₁) hrun₁
    rwa [List.append_assoc] at hnext

/-- **A computed trace.** -/
theorem exists_traced {s : σ} (h : init s) (as : List ι) (p : List ε → σ → Bool)
    (hrun : (Transition.replay step out s as).any (fun r => p r.1 r.2) = true) :
    ∃ tr s', Traced init step out tr s' ∧ p tr s' = true := by
  rw [Option.any_eq_true] at hrun
  obtain ⟨⟨tr, s'⟩, hr, hp⟩ := hrun
  exact ⟨tr, s', (Traced.start h).replay hr, hp⟩

/-! ### The high level -/

/-- Several events of the high-level system, one after the other. -/
inductive Steps (Step : τ → ε → τ → Prop) : τ → List ε → τ → Prop
  | nil (x : τ) : Steps Step x [] x
  | cons {x y z : τ} {e : ε} {tr : List ε} : Step x e y → Steps Step y tr z →
      Steps Step x (e :: tr) z

variable {Step : τ → ε → τ → Prop}

theorem Steps.single {x y : τ} {e : ε} (h : Step x e y) : Steps Step x [e] y := .cons h (.nil y)

/-- Traces in a row are a trace. -/
theorem Steps.append {x y z : τ} {tr tr' : List ε} (h : Steps Step x tr y)
    (h' : Steps Step y tr' z) : Steps Step x (tr ++ tr') z := by
  induction h with
  | nil => exact h'
  | cons he _ ih => exact .cons he (ih h')

/-- **Invariant rule with history.**  What every event keeps of the state and of what was seen so
    far, a sequence of events keeps. -/
theorem Steps.invariant (P : List ε → τ → Prop)
    (hP : ∀ tr x e y, P tr x → Step x e y → P (tr ++ [e]) y) {x y : τ} {tr tr' : List ε}
    (h : Steps Step x tr' y) (hx : P tr x) : P (tr ++ tr') y := by
  induction h generalizing tr with
  | nil => rwa [List.append_nil]
  | cons he _ ih =>
    have hnext := ih (hP _ _ _ _ hx he)
    rwa [List.append_assoc] at hnext

/-! ### Refinement -/

/-- A forward simulation: `abs` is what a low-level state means, and from states that satisfy `Inv`
    every low-level step makes its events between the meanings of its two states. -/
structure ForwardSimulation (init : σ → Prop) (step : σ → ι → Option σ) (out : σ → ι → σ → List ε)
    (Step : τ → ε → τ → Prop) (x₀ : τ) (abs : σ → τ) (Inv : σ → Prop) : Prop where
  invariant : ∀ s, Reach init step always s → Inv s
  start : ∀ s, init s → abs s = x₀
  next : ∀ s a s', Inv s → step s a = some s' → Steps Step (abs s) (out s a s') (abs s')

/-- **Trace inclusion.**  What is seen of a run is a run of the high-level system, which ends in what
    the low-level state means. -/
theorem ForwardSimulation.refines {x₀ : τ} {abs : σ → τ} {Inv : σ → Prop}
    (hsim : ForwardSimulation init step out Step x₀ abs Inv) {tr : List ε} {s : σ}
    (h : Traced init step out tr s) : Steps Step x₀ tr (abs s) := by
  induction h with
  | start hs =>
    rw [hsim.start _ hs]
    exact .nil x₀
  | next hs hnext ih => exact ih.append (hsim.next _ _ _ (hsim.invariant _ hs.reach) hnext)

end Exios.Transition
