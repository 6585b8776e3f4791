import Exios.Base.Transition
import Mathlib.Data.List.Nodup
import Mathlib.Logic.Function.Basic

namespace Exios.Transition

/-!
# Base — steps on one component

A state is a family `κ → β`, and every label is a step on the component that its key names:
it reads that component only and writes that component only.

* `component f key` — the step function;
* `component_comm` — steps on different components commute, also where one of them fails;
* `exec_perm` — a replay of labels that commute pairwise does not depend on their order;
* `exec_component_perm` — so a replay of labels with distinct keys does not either;
* `exec_map` — a replay seen through a function to another system's states.
-/

variable {σ ρ ι κ β : Type*}

/-- **Replays commute with the labels.** -/
theorem exec_perm {step : σ → ι → Option σ} {as bs : List ι} (hperm : as.Perm bs)
    (hcomm : ∀ a ∈ as, ∀ b ∈ as, ∀ s,
      (step s a).bind (fun t => step t b) = (step s b).bind (fun t => step t a)) (s : σ) :
    exec step s as = exec step s bs := by
  -- along the derivation of the permutation, from every state
  induction hperm generalizing s with
  | nil => rfl
  | cons a _ ih =>
    have hrest := ih (fun x hx y hy =>
      hcomm x (List.mem_cons_of_mem _ hx) y (List.mem_cons_of_mem _ hy))
    simp only [exec, hrest]
  | swap a b as =>
    have hab := hcomm b (by simp) a (by simp) s
    simp only [exec]
    rw [← Option.bind_assoc, hab, Option.bind_assoc]
  | trans h₁ _ ih₁ ih₂ =>
    rw [ih₁ hcomm s]
    exact ih₂ (fun x hx y hy => hcomm x (h₁.mem_iff.mpr hx) y (h₁.mem_iff.mpr hy)) s

/-- A step on the component that the key of the label names. -/
def component [DecidableEq κ] (f : ι → β → Option β) (key : ι → κ) (s : κ → β) (a : ι) :
    Option (κ → β) :=
  (f a (s (key a))).map (Function.update s (key a))

section Component

variable [DecidableEq κ] {f : ι → β → Option β} {key : ι → κ}

/-- Two steps on different components, as one update of both. -/
theorem component_bind {a b : ι} (hne : key a ≠ key b) (s : κ → β) :
    (component f key s a).bind (fun t => component f key t b)
      = (f a (s (key a))).bind (fun x => (f b (s (key b))).map (fun y =>
          Function.update (Function.update s (key a) x) (key b) y)) := by
  unfold component
  cases f a (s (key a)) with
  | none => rfl
  | some x =>
    -- the second step finds its component as it was
    simp only [Option.map_some, Option.bind_some, Function.update_of_ne hne.symm]

/-- **Steps on different components commute.** -/
theorem component_comm {a b : ι} (hne : key a ≠ key b) (s : κ → β) :
    (component f key s a).bind (fun t => component f key t b)
      = (component f key s b).bind (fun t => component f key t a) := by
  rw [component_bind hne, component_bind hne.symm]
  cases f a (s (key a)) with
  | none => cases f b (s (key b)) <;> rfl
  | some x =>
    cases f b (s (key b)) with
    | none => rfl
    | some y =>
      simp only [Option.bind_some, Option.map_some, Option.some.injEq]
      exact Function.update_comm hne x y s

/-- **The order of labels with distinct keys does not matter.** -/
theorem exec_component_perm {as bs : List ι} (hperm : as.Perm bs) (hkeys : (as.map key).Nodup)
    (s : κ → β) : exec (component f key) s as = exec (component f key) s bs := by
  refine exec_perm hperm ?_ s
  intro a ha b hb t
  by_cases hab : a = b
  · rw [hab]
  · exact component_comm (fun hkey => hab (List.inj_on_of_nodup_map hkeys ha hb hkey)) t

end Component

/-- **A replay seen through a function.**  `Inv` is what the steps keep and the view of one step
    relies on. -/
theorem exec_map {step : σ → ι → Option σ} {ref : ρ → ι → Option ρ} (f : σ → ρ) (Inv : σ → Prop)
    (hInv : ∀ s a s', Inv s → step s a = some s' → Inv s')
    (hstep : ∀ s a, Inv s → (step s a).map f = ref (f s) a) (as : List ι) {s : σ} (h0 : Inv s) :
    (exec step s as).map f = exec ref (f s) as := by
  induction as generalizing s with
  | nil => rfl
  | cons a as ih =>
    rw [exec, exec, ← hstep s a h0]
    cases ht : step s a with
    | none => rfl
    | some t => exact ih (hInv s a t h0 ht)

end Exios.Transition
