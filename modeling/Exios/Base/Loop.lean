import Mathlib.Logic.Basic

namespace Exios.Loop

/-!
# Base — loops that may not end

A `while` loop is a body `body : σ → Except ε (σ ⊕ ρ)`: it fails, goes on with a new state
(`inl`) or leaves the loop with a result (`inr`).  `run body fuel s` iterates it at most
`fuel` times and is `none` when the loop has not ended by then.

* `run_none_of_invariant` — the divergence rule: an invariant under which the body always
  goes on keeps the loop running for ever.
* `run_invariant` — the invariant rule, for the result of a loop that has ended;
* `run_sim` — the simulation rule: bodies that match step by step give matching runs, for
  every amount of fuel.
-/

variable {σ τ ε ρ π : Type*}

/-- Iterate `body` at most `fuel` times. -/
def run (body : σ → Except ε (σ ⊕ ρ)) : Nat → σ → Option (Except ε ρ)
  | 0, _ => none
  | fuel + 1, s =>
    match body s with
    | .error e => some (.error e)
    | .ok (.inr r) => some (.ok r)
    | .ok (.inl s') => run body fuel s'

variable {body : σ → Except ε (σ ⊕ ρ)} {body' : τ → Except ε (τ ⊕ π)}

/-- A loop whose body goes on is the loop from the next state, with one round less. -/
theorem run_step {s s' : σ} (h : body s = .ok (.inl s')) (fuel : Nat) :
    run body (fuel + 1) s = run body fuel s' := by
  simp only [run, h]

/-- A loop whose body leaves it is done. -/
theorem run_exit {s : σ} {r : ρ} (h : body s = .ok (.inr r)) (fuel : Nat) :
    run body (fuel + 1) s = some (.ok r) := by
  simp only [run, h]

/-- More fuel does not change a result. -/
theorem run_mono {fuel fuel' : Nat} {s : σ} {r : Except ε ρ} (h : run body fuel s = some r)
    (hle : fuel ≤ fuel') : run body fuel' s = some r := by
  induction fuel generalizing fuel' s with
  | zero => simp [run] at h
  | succ fuel ih =>
    obtain ⟨m, rfl⟩ : ∃ m, fuel' = m + 1 := ⟨fuel' - 1, by omega⟩
    rw [run] at h ⊢
    split at h
    · exact h
    · exact h
    · exact ih h (by omega)

/-- **Divergence rule.** -/
theorem run_none_of_invariant (Inv : σ → Prop)
    (hbody : ∀ s, Inv s → ∃ s', body s = .ok (.inl s') ∧ Inv s') {s : σ} (hs : Inv s)
    (fuel : Nat) : run body fuel s = none := by
  induction fuel generalizing s with
  | zero => rfl
  | succ fuel ih =>
    obtain ⟨s', hb, hinv⟩ := hbody s hs
    rw [run_step hb]
    exact ih hinv

/-- **Invariant rule.**  What holds at the start and survives the rounds gives what it says about
    the result. -/
theorem run_invariant (Inv : σ → Prop) (Q : ρ → Prop)
    (hstep : ∀ s s', Inv s → body s = .ok (.inl s') → Inv s')
    (hexit : ∀ s r, Inv s → body s = .ok (.inr r) → Q r) {fuel : Nat} {s : σ} {r : ρ} (hs : Inv s)
    (h : run body fuel s = some (.ok r)) : Q r := by
  induction fuel generalizing s with
  | zero => exact absurd h (by simp [run])
  | succ fuel ih =>
    rw [run] at h
    split at h
    · exact absurd h (by simp)
    · rename_i q hq
      simp only [Option.some.injEq, Except.ok.injEq] at h
      exact h ▸ hexit s q hs hq
    · rename_i s' hs'
      exact ih (hstep s s' hs hs') h

/-- Two bodies match on a pair of states: both fail alike, both leave with related results,
    or both go on in related states. -/
def Match (R : σ → τ → Prop) (Q : ρ → π → Prop) :
    Except ε (σ ⊕ ρ) → Except ε (τ ⊕ π) → Prop
  | .error e, .error e' => e = e'
  | .ok (.inr r), .ok (.inr q) => Q r q
  | .ok (.inl s), .ok (.inl t) => R s t
  | _, _ => False

/-- Two results of `run` agree: both still running, both failed alike, or both done with
    related results. -/
def Agree (Q : ρ → π → Prop) : Option (Except ε ρ) → Option (Except ε π) → Prop
  | none, none => True
  | some (.error e), some (.error e') => e = e'
  | some (.ok r), some (.ok q) => Q r q
  | _, _ => False

/-- Agreement survives post-processing of the results. -/
theorem Agree.map {ρ' π' : Type*} {Q : ρ → π → Prop} {Q' : ρ' → π' → Prop} {f : ρ → ρ'}
    {g : π → π'} (hfg : ∀ r q, Q r q → Q' (f r) (g q)) {x : Option (Except ε ρ)}
    {y : Option (Except ε π)} (h : Agree Q x y) :
    Agree Q' (x.map (·.map f)) (y.map (·.map g)) := by
  match x, y, h with
  | none, none, _ => trivial
  | some (.error _), some (.error _), h => exact h
  | some (.ok r), some (.ok q), h => exact hfg r q h

/-- A side that agrees with a finished one is finished. -/
theorem Agree.exists_ok {Q : ρ → π → Prop} {x : Option (Except ε ρ)} {q : π}
    (h : Agree Q x (some (.ok q))) : ∃ r, x = some (.ok r) ∧ Q r q := by
  match x, h with
  | some (.ok r), h => exact ⟨r, rfl, h⟩

/-- A side that agrees with a running one is running. -/
theorem Agree.eq_none {Q : ρ → π → Prop} {x : Option (Except ε ρ)}
    (h : Agree Q x (none : Option (Except ε π))) : x = none := by
  match x, h with
  | none, _ => rfl

/-- **Simulation rule.** -/
theorem run_sim {R : σ → τ → Prop} {Q : ρ → π → Prop}
    (hbody : ∀ s t, R s t → Match R Q (body s) (body' t)) {s : σ} {t : τ} (h : R s t)
    (fuel : Nat) : Agree Q (run body fuel s) (run body' fuel t) := by
  induction fuel generalizing s t with
  | zero => trivial
  | succ fuel ih =>
    have hm := hbody s t h
    rw [run, run]
    match hs : body s, ht : body' t with
    -- the bodies end alike, so only the three equal outcomes are possible
    | .error e, .error e' => rw [hs, ht] at hm; exact hm
    | .ok (.inr r), .ok (.inr q) => rw [hs, ht] at hm; exact hm
    | .ok (.inl s'), .ok (.inl t') => rw [hs, ht] at hm; exact ih hm
    | .error _, .ok _ => rw [hs, ht] at hm; exact hm.elim
    | .ok (.inr _), .error _ => rw [hs, ht] at hm; exact hm.elim
    | .ok (.inl _), .error _ => rw [hs, ht] at hm; exact hm.elim
    | .ok (.inr _), .ok (.inl _) => rw [hs, ht] at hm; exact hm.elim
    | .ok (.inl _), .ok (.inr _) => rw [hs, ht] at hm; exact hm.elim

end Exios.Loop
