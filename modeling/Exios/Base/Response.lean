import Exios.Base.Transition
import Mathlib.Algebra.Ring.Nat

namespace Exios.Transition

/-!
# Base — bounded response

One party of a transition system works towards a goal while the others do what they like.

* `Responds` — every step of the party brings it nearer to the goal, and no other step takes it
  away; a label may be charged with steps that the party then makes once more;
* `Responds.within` — so the goal is reached once the party has made more steps than it had before
  it, plus those that were charged, however they are interleaved with the others'.
-/

variable {σ ι : Type*}

/-- `rank` is what is left to do before `goal`.  `own` says which labels are the party's steps,
    `charge` what a label adds, `ok` which labels are admitted. -/
structure Responds (step : σ → ι → Option σ) (ok : ι → Prop) (own : ι → Bool) (charge : ι → Nat)
    (Inv goal : σ → Prop) (rank : σ → Nat) : Prop where
  keeps : ∀ s a s', Inv s → ok a → step s a = some s' → Inv s'
  stays : ∀ s a s', Inv s → ok a → step s a = some s' → goal s → goal s'
  descends : ∀ s a s', Inv s → ok a → step s a = some s' → ¬ goal s → own a = true →
    goal s' ∨ rank s' < rank s + charge a
  others : ∀ s a s', Inv s → ok a → step s a = some s' → ¬ goal s → own a = false →
    goal s' ∨ rank s' ≤ rank s + charge a

namespace Responds

variable {step : σ → ι → Option σ} {ok : ι → Prop} {own : ι → Bool} {charge : ι → Nat}
  {Inv goal : σ → Prop} {rank : σ → Nat} {s s' : σ}

/-- What is reached stays reached. -/
theorem exec_stays (hr : Responds step ok own charge Inv goal rank) (hinv : Inv s) {as : List ι}
    (hok : ∀ a ∈ as, ok a) (hexec : exec step s as = some s') (hgoal : goal s) : goal s' := by
  induction as generalizing s with
  | nil =>
    rw [exec, Option.some.injEq] at hexec
    exact hexec ▸ hgoal
  | cons a as ih =>
    rw [exec, Option.bind_eq_some_iff] at hexec
    obtain ⟨t, hstep, hrest⟩ := hexec
    have ha := hok a List.mem_cons_self
    exact ih (hr.keeps s a t hinv ha hstep) (fun b hb => hok b (List.mem_cons_of_mem _ hb)) hrest
      (hr.stays s a t hinv ha hstep hgoal)

/-- **Bounded response.** -/
theorem within (hr : Responds step ok own charge Inv goal rank) (hinv : Inv s) {as : List ι}
    (hok : ∀ a ∈ as, ok a) (hexec : exec step s as = some s')
    (hsteps : rank s + (as.map charge).sum < as.countP own) : goal s' := by
  induction as generalizing s with
  | nil => exact absurd hsteps (by simp)
  | cons a as ih =>
    by_cases hgoal : goal s
    · exact hr.exec_stays hinv hok hexec hgoal
    · rw [exec, Option.bind_eq_some_iff] at hexec
      obtain ⟨t, hstep, hrest⟩ := hexec
      have ha := hok a List.mem_cons_self
      have hinv' := hr.keeps s a t hinv ha hstep
      have hok' : ∀ b ∈ as, ok b := fun b hb => hok b (List.mem_cons_of_mem _ hb)
      rw [List.map_cons, List.sum_cons, List.countP_cons] at hsteps
      cases hown : own a with
      | true =>
        -- a step of its own comes nearer
        rw [if_pos hown] at hsteps
        rcases hr.descends s a t hinv ha hstep hgoal hown with hreached | hlt
        · exact hr.exec_stays hinv' hok' hrest hreached
        · exact ih hinv' hok' hrest (by omega)
      | false =>
        -- a step of the others does not lead away
        rw [if_neg (by simp [hown])] at hsteps
        rcases hr.others s a t hinv ha hstep hgoal hown with hreached | hle
        · exact hr.exec_stays hinv' hok' hrest hreached
        · exact ih hinv' hok' hrest (by omega)

end Responds

end Exios.Transition
