import Exios.Base.Transition
import Mathlib.Logic.Relation
import Mathlib.Logic.Function.Basic
import Mathlib.Algebra.Ring.Nat

namespace Exios.Locks

/-!
# Base — code with critical sections

Threads run code that takes mutexes in blocks (`std::lock_guard`), up to the data it works on: a
branch or another round of a loop is a choice of the thread's own.  Exceptions unwind the stack,
release the guarded mutexes and run the scope guards on their way.

* `Code`, `next`, `step` — the language and its steps, by any number of threads;
* `Discipline.Checked` — a check of the code: mutexes are taken in the order of `rank`, threads
  pause in a section only where `rests` allows it, and a section has at most `bound` steps, a round
  of a loop in it at most `round`;
* `reach_sound` — checked code keeps its invariant in every interleaving: the recorded holder of a
  mutex is the thread whose stack has a guard of it;
* `not_waits_in_circle`, `wait_ends` — so threads never wait in a circle, and who waits does so,
  in the end, for a thread that is inside a section and can make a step;
* `released_within` — and a mutex is released within the steps that its holder has left, plus those
  of the further rounds that it makes of loops;
* `Leads` — runs of one thread alone.
-/

variable {T Λ Φ A : Type*}

/-! ### The language -/

/-- Code over mutexes `Λ`, functions `Φ` and statements `A`. -/
inductive Code (Λ Φ A : Type*)
  /-- A statement that touches no mutex and ends by itself. -/
  | act (a : A)
  /-- A statement that may take any time: it waits for something other than a mutex. -/
  | pause (a : A)
  | throw
  | seq (c d : Code Λ Φ A)
  | branch (c d : Code Λ Φ A)
  /-- Any number of rounds, without end too. -/
  | loop (c : Code Λ Φ A)
  | call (f : Φ)
  /-- `{ std::lock_guard lock { ℓ }; c }`. -/
  | locked (ℓ : Λ) (c : Code Λ Φ A)
  /-- `c` under a scope guard that runs `g` however `c` is left. -/
  | guarded (g c : Code Λ Φ A)
  /-- `try { c } catch (...) {}`. -/
  | attempt (c : Code Λ Φ A)

/-- Code in sequence. -/
def Code.block : Code Λ Φ A → List (Code Λ Φ A) → Code Λ Φ A
  | c, [] => c
  | c, d :: ds => .seq c (block d ds)

/-- What is on the stack of a thread: code that is still to run, and what it does on its way back. -/
inductive Frame (Λ Φ A : Type*)
  | code (c : Code Λ Φ A)
  /-- The end of a section, where the guard gives the mutex back. -/
  | unlock (ℓ : Λ)
  /-- The end of a scope with a guard. -/
  | guard (g : Code Λ Φ A)
  /-- The end of a `try` block. -/
  | caught

/-- What a step does to the mutexes. -/
inductive Effect (Λ : Type*)
  | pass
  | take (ℓ : Λ)
  | release (ℓ : Λ)

/-- The choices of a thread: to go on (which leaves a loop, and takes the first branch), to go round
    a loop again, to take the other branch. -/
inductive Choice
  | go
  | again
  | other
deriving DecidableEq

/-- One step of a thread, `body` being the bodies of the functions. -/
def next (body : Φ → Code Λ Φ A) :
    List (Frame Λ Φ A) → Choice → Option (Effect Λ × List (Frame Λ Φ A))
  | .code (.act _) :: k, .go => some (.pass, k)
  | .code (.pause _) :: k, .go => some (.pass, k)
  | .code (.seq c d) :: k, .go => some (.pass, .code c :: .code d :: k)
  | .code (.branch c _) :: k, .go => some (.pass, .code c :: k)
  | .code (.branch _ d) :: k, .other => some (.pass, .code d :: k)
  | .code (.loop _) :: k, .go => some (.pass, k)
  | .code (.loop c) :: k, .again => some (.pass, .code c :: .code (.loop c) :: k)
  | .code (.call f) :: k, .go => some (.pass, .code (body f) :: k)
  | .code (.locked ℓ c) :: k, .go => some (.take ℓ, .code c :: .unlock ℓ :: k)
  | .code (.guarded g c) :: k, .go => some (.pass, .code c :: .guard g :: k)
  | .code (.attempt c) :: k, .go => some (.pass, .code c :: .caught :: k)
  -- an exception leaves the frames one by one
  | .code .throw :: .code _ :: k, .go => some (.pass, .code .throw :: k)
  | .code .throw :: .unlock ℓ :: k, .go => some (.release ℓ, .code .throw :: k)
  | .code .throw :: .guard g :: k, .go => some (.pass, .code g :: .code .throw :: k)
  | .code .throw :: .caught :: k, .go => some (.pass, k)
  | .code .throw :: [], .go => some (.pass, [])
  | .unlock ℓ :: k, .go => some (.release ℓ, k)
  | .guard g :: k, .go => some (.pass, .code g :: k)
  | .caught :: k, .go => some (.pass, k)
  | _, _ => none

/-- The threads' stacks and the holders of the mutexes. -/
structure State (T Λ Φ A : Type*) where
  stack : T → List (Frame Λ Φ A)
  holder : Λ → Option T

/-- A mutex is taken only when nobody holds it. -/
def Effect.apply [DecidableEq T] [DecidableEq Λ] (t : T) (holder : Λ → Option T) :
    Effect Λ → Option (Λ → Option T)
  | .pass => some holder
  | .take ℓ => if holder ℓ = none then some (Function.update holder ℓ (some t)) else none
  | .release ℓ => some (Function.update holder ℓ none)

/-- **One step of the threads**: a label names the thread and its choice. -/
def step [DecidableEq T] [DecidableEq Λ] (body : Φ → Code Λ Φ A) (s : State T Λ Φ A)
    (a : T × Choice) : Option (State T Λ Φ A) :=
  (next body (s.stack a.1) a.2).bind fun r =>
    (r.1.apply a.1 s.holder).map fun holder => ⟨Function.update s.stack a.1 r.2, holder⟩

/-! ### The check -/

/-- How the mutexes are used. -/
structure Discipline (Λ Φ A : Type*) where
  /-- The order in which they are taken. -/
  rank : Λ → Nat
  /-- The ranks are below it. -/
  height : Nat
  /-- Whether a thread may pause at a statement in a section. -/
  rests : Λ → A → Bool
  /-- The length of a section, the rounds of its loops apart. -/
  bound : Λ → Nat
  /-- The length of a round of a loop in a section. -/
  round : Λ → Nat
  /-- The length of a function, the rounds of its loops apart. -/
  length : Φ → Nat
  /-- The mutexes under which a function is called, innermost first. -/
  contexts : Φ → List (List Λ)

variable (D : Discipline Λ Φ A)

/-- The steps of code, the rounds of its loops apart. -/
def Code.cost : Code Λ Φ A → Nat
  | .act _ | .pause _ | .throw => 1
  | .seq c d => 1 + c.cost + d.cost
  | .branch c d => 1 + max c.cost d.cost
  | .loop _ => 1
  | .call f => 1 + D.length f
  | .locked _ c => 2 + c.cost
  | .guarded g c => 2 + g.cost + c.cost
  | .attempt c => 2 + c.cost

/-- The mutexes whose guards are on a stack, innermost first. -/
def held : List (Frame Λ Φ A) → List Λ
  | [] => []
  | .unlock ℓ :: k => ℓ :: held k
  | .code _ :: k | .guard _ :: k | .caught :: k => held k

@[simp] theorem held_nil : held ([] : List (Frame Λ Φ A)) = [] := rfl

@[simp] theorem held_code (c : Code Λ Φ A) (k : List (Frame Λ Φ A)) :
    held (.code c :: k) = held k := rfl

@[simp] theorem held_unlock (ℓ : Λ) (k : List (Frame Λ Φ A)) :
    held (.unlock ℓ :: k) = ℓ :: held k := rfl

@[simp] theorem held_guard (g : Code Λ Φ A) (k : List (Frame Λ Φ A)) :
    held (.guard g :: k) = held k := rfl

@[simp] theorem held_caught (k : List (Frame Λ Φ A)) : held (.caught :: k) = held k := rfl

/-- The mutex that the next step takes. -/
def wants : List (Frame Λ Φ A) → Option Λ
  | .code (.locked ℓ _) :: _ => some ℓ
  | _ => none

/-- The statement that the thread pauses at. -/
def pauses : List (Frame Λ Φ A) → Option A
  | .code (.pause a) :: _ => some a
  | _ => none

/-- A thread that is not at its end can go on, unless it has to take a mutex first. -/
theorem next_go (body : Φ → Code Λ Φ A) {k : List (Frame Λ Φ A)} (hk : k ≠ []) :
    ∃ e k', next body k .go = some (e, k') ∧ ∀ ℓ, e = .take ℓ → wants k = some ℓ := by
  -- one case for each equation of `next`; only a section begins with an effect that may have to
  -- wait
  match k, hk with
  | .code (.act _) :: k, _ => exact ⟨_, _, rfl, by simp⟩
  | .code (.pause _) :: k, _ => exact ⟨_, _, rfl, by simp⟩
  | .code (.seq _ _) :: k, _ => exact ⟨_, _, rfl, by simp⟩
  | .code (.branch _ _) :: k, _ => exact ⟨_, _, rfl, by simp⟩
  | .code (.loop _) :: k, _ => exact ⟨_, _, rfl, by simp⟩
  | .code (.call _) :: k, _ => exact ⟨_, _, rfl, by simp⟩
  | .code (.locked ℓ _) :: k, _ => exact ⟨_, _, rfl, by simp [wants]⟩
  | .code (.guarded _ _) :: k, _ => exact ⟨_, _, rfl, by simp⟩
  | .code (.attempt _) :: k, _ => exact ⟨_, _, rfl, by simp⟩
  | .code .throw :: .code _ :: k, _ => exact ⟨_, _, rfl, by simp⟩
  | .code .throw :: .unlock _ :: k, _ => exact ⟨_, _, rfl, by simp⟩
  | .code .throw :: .guard _ :: k, _ => exact ⟨_, _, rfl, by simp⟩
  | .code .throw :: .caught :: k, _ => exact ⟨_, _, rfl, by simp⟩
  | .code .throw :: [], _ => exact ⟨_, _, rfl, by simp⟩
  | .unlock _ :: k, _ => exact ⟨_, _, rfl, by simp⟩
  | .guard _ :: k, _ => exact ⟨_, _, rfl, by simp⟩
  | .caught :: k, _ => exact ⟨_, _, rfl, by simp⟩

variable [DecidableEq Λ] {body : Φ → Code Λ Φ A} {k k' : List (Frame Λ Φ A)} {c : Choice}
  {e : Effect Λ}

/-- Code keeps the discipline under the mutexes `held`. -/
def Code.fits (held : List Λ) : Code Λ Φ A → Bool
  | .act _ | .throw => true
  | .pause a => held.all (fun m => D.rests m a)
  | .seq c d | .branch c d => c.fits held && d.fits held
  | .loop c => held.all (fun m => decide (c.cost D + 1 ≤ D.round m)) && c.fits held
  | .call f => decide (held ∈ D.contexts f)
  | .locked ℓ c => held.all (fun m => decide (D.rank m < D.rank ℓ)) &&
      decide (c.cost D + 1 ≤ D.bound ℓ) && c.fits (ℓ :: held)
  | .guarded g c => g.fits held && c.fits held
  | .attempt c => c.fits held

/-- Every function keeps the discipline wherever it is called, and is as long as is said. -/
structure Discipline.Checked (body : Φ → Code Λ Φ A) : Prop where
  ranks : ∀ ℓ, D.rank ℓ < D.height
  fits : ∀ f, ∀ held ∈ D.contexts f, (body f).fits D held = true
  lengths : ∀ f, (body f).cost D ≤ D.length f

/-- A stack keeps the discipline. -/
def Fits : List (Frame Λ Φ A) → Prop
  | [] => True
  | .code c :: k => c.fits D (held k) = true ∧ Fits k
  | .unlock ℓ :: k => (∀ m ∈ held k, D.rank m < D.rank ℓ) ∧ Fits k
  | .guard g :: k => g.fits D (held k) = true ∧ Fits k
  | .caught :: k => Fits k

/-- The steps that are left until the mutex is released, the rounds of loops apart. -/
def left (ℓ : Λ) : List (Frame Λ Φ A) → Nat
  | [] => 0
  | .code c :: k => c.cost D + left ℓ k
  | .unlock m :: k => if m = ℓ then 1 else 1 + left ℓ k
  | .guard g :: k => 1 + g.cost D + left ℓ k
  | .caught :: k => 1 + left ℓ k

variable {D}

/-- How a step that keeps the discipline changes the guards on its stack. -/
def Effect.Moves (D : Discipline Λ Φ A) (held held' : List Λ) : Effect Λ → Prop
  | .pass => held' = held
  | .take ℓ => held' = ℓ :: held ∧ ∀ m ∈ held, D.rank m < D.rank ℓ
  | .release ℓ => held = ℓ :: held'

/-- **A step keeps the discipline.** -/
theorem next_fits (hD : D.Checked body) (hk : Fits D k) (h : next body k c = some (e, k')) :
    Fits D k' ∧ e.Moves D (held k) (held k') := by
  unfold next at h
  split at h <;> simp only [Option.some.injEq, Prod.mk.injEq, reduceCtorEq] at h <;>
    obtain ⟨rfl, rfl⟩ := h
  case h_8 f k =>
    -- a call: what was checked of the function's body
    have hf : held k ∈ D.contexts f := of_decide_eq_true hk.1
    exact ⟨⟨hD.fits f _ hf, hk.2⟩, rfl⟩
  all_goals simp_all [Fits, Code.fits, Effect.Moves]

/-- Mutexes are taken in their order. -/
theorem Fits.wants_rank (hk : Fits D k) {ℓ : Λ} (hw : wants k = some ℓ) {m : Λ}
    (hm : m ∈ held k) : D.rank m < D.rank ℓ := by
  unfold wants at hw
  split at hw
  · rw [Option.some.injEq] at hw
    subst hw
    simp only [Fits, Code.fits, Bool.and_eq_true, List.all_eq_true, decide_eq_true_eq] at hk
    exact hk.1.1.1 m hm
  · exact absurd hw (by simp)

/-- A thread pauses in a section only where that is said. -/
theorem Fits.pauses_rests (hk : Fits D k) {a : A} (ha : pauses k = some a) {m : Λ}
    (hm : m ∈ held k) : D.rests m a = true := by
  unfold pauses at ha
  split at ha
  · rw [Option.some.injEq] at ha
    subst ha
    simp only [Fits, Code.fits, List.all_eq_true] at hk
    exact hk.1 m hm
  · exact absurd ha (by simp)

/-- The guards on a stack are in the order of their mutexes. -/
theorem Fits.sorted (hk : Fits D k) : (held k).Pairwise (fun ℓ m => D.rank m < D.rank ℓ) := by
  induction k with
  | nil => exact List.Pairwise.nil
  | cons f k ih =>
    cases f with
    | code c => exact ih hk.2
    | guard g => exact ih hk.2
    | caught => exact ih hk
    | unlock ℓ => exact List.pairwise_cons.mpr ⟨hk.1, ih hk.2⟩

/-! ### Any number of threads -/

variable {s s' : State T Λ Φ A} {t u : T}

/-- Threads begin with the same code and hold nothing. -/
def Start (main : Code Λ Φ A) (s : State T Λ Φ A) : Prop :=
  s = ⟨fun _ => [.code main], fun _ => none⟩

/-- What checked code keeps in every interleaving. -/
structure Sound (D : Discipline Λ Φ A) (s : State T Λ Φ A) : Prop where
  fits : ∀ t, Fits D (s.stack t)
  /-- The recorded holder has the mutex's guard on its stack. -/
  owned : ∀ ℓ t, s.holder ℓ = some t ↔ ℓ ∈ held (s.stack t)

/-- The next step of `t` takes a mutex that `u` holds. -/
def State.WaitsFor (s : State T Λ Φ A) (t u : T) : Prop :=
  ∃ ℓ, wants (s.stack t) = some ℓ ∧ s.holder ℓ = some u

namespace Sound

/-- Along a chain of waiting threads, the mutexes that they want have higher and higher ranks. -/
theorem rank_lt (h : Sound D s) (hw : Relation.TransGen s.WaitsFor t u) {m : Λ}
    (hm : wants (s.stack u) = some m) :
    ∃ ℓ, wants (s.stack t) = some ℓ ∧ D.rank ℓ < D.rank m := by
  induction hw generalizing m with
  | single hw =>
    obtain ⟨ℓ, hℓ, hholder⟩ := hw
    exact ⟨ℓ, hℓ, (h.fits _).wants_rank hm ((h.owned _ _).mp hholder)⟩
  | tail _ hw ih =>
    obtain ⟨ℓ, hℓ, hholder⟩ := hw
    obtain ⟨ℓ', hℓ', hlt⟩ := ih hℓ
    exact ⟨ℓ', hℓ', Nat.lt_trans hlt ((h.fits _).wants_rank hm ((h.owned _ _).mp hholder))⟩

/-- **No circle**: no thread waits, directly or through others, for itself. -/
theorem not_waits_in_circle (h : Sound D s) : ¬ Relation.TransGen s.WaitsFor t t := by
  intro hw
  obtain ⟨u, ⟨m, hm, -⟩, -⟩ := Relation.TransGen.head'_iff.mp hw
  obtain ⟨ℓ, hℓ, hlt⟩ := h.rank_lt hw hm
  rw [hm, Option.some.injEq] at hℓ
  exact absurd (hℓ ▸ hlt) (Nat.lt_irrefl _)

end Sound

variable [DecidableEq T]

/-- A step of the threads is a step of one stack. -/
theorem step_cases (h : step body s (t, c) = some s') :
    ∃ e k' holder', next body (s.stack t) c = some (e, k') ∧
      e.apply t s.holder = some holder' ∧ s' = ⟨Function.update s.stack t k', holder'⟩ := by
  obtain ⟨⟨e, k'⟩, hnext, h⟩ := Option.bind_eq_some_iff.mp h
  obtain ⟨holder', happly, rfl⟩ := Option.map_eq_some_iff.mp h
  exact ⟨e, k', holder', hnext, happly, rfl⟩

/-- The recorded holders follow the guards on the stacks. -/
theorem Effect.apply_owned {holder holder' : Λ → Option T} {H : T → List Λ} {held' : List Λ}
    (h : ∀ ℓ t, holder ℓ = some t ↔ ℓ ∈ H t)
    (hsorted : (H t).Pairwise (fun ℓ m => D.rank m < D.rank ℓ)) (hmoves : e.Moves D (H t) held')
    (happly : e.apply t holder = some holder') (ℓ : Λ) (u : T) :
    holder' ℓ = some u ↔ ℓ ∈ Function.update H t held' u := by
  cases e with
  | pass =>
    rw [Effect.apply, Option.some.injEq] at happly
    rw [← happly, show held' = H t from hmoves, Function.update_eq_self]
    exact h ℓ u
  | take m =>
    rw [Effect.apply] at happly
    split at happly
    · rename_i hfree
      rw [Option.some.injEq] at happly
      -- nobody had the mutex, so only `t` has it now
      have hnone : ∀ v, m ∉ H v := fun v hv => by
        rw [← h, hfree] at hv
        exact absurd hv (by simp)
      rw [← happly, Function.update_apply, Function.update_apply, hmoves.1]
      by_cases hm : ℓ = m
      · subst hm
        by_cases hu : u = t
        · simp [hu]
        · simp [hu, Ne.symm hu, hnone u]
      · by_cases hu : u = t
        · subst hu
          simp [hm, h ℓ u]
        · simp [hm, hu, h ℓ u]
    · exact absurd happly (by simp)
  | release m =>
    rw [Effect.apply, Option.some.injEq] at happly
    have hmoves : H t = m :: held' := hmoves
    rw [hmoves] at hsorted
    -- the guards are in order, so the mutex is not on the stack a second time
    have hnot : m ∉ held' := fun hm =>
      absurd ((List.pairwise_cons.mp hsorted).1 m hm) (Nat.lt_irrefl _)
    have ht : holder m = some t := (h m t).mpr (by simp [hmoves])
    rw [← happly, Function.update_apply, Function.update_apply]
    by_cases hm : ℓ = m
    · subst hm
      by_cases hu : u = t
      · simp [hu, hnot]
      · have : ℓ ∉ H u := fun hv => by
          rw [← h, ht] at hv
          exact hu (Option.some.inj hv).symm
        simp [hu, this]
    · by_cases hu : u = t
      · subst hu
        simp [hm, h ℓ u, hmoves]
      · simp [hm, hu, h ℓ u]

/-- The step of a thread leaves the stacks of the others. -/
theorem step_stack (hs : step body s (u, c) = some s') (hu : t ≠ u) : s'.stack t = s.stack t := by
  obtain ⟨e, k', holder', -, -, rfl⟩ := step_cases hs
  exact Function.update_of_ne hu _ _

/-- **The step lemma.** -/
theorem step_sound (hD : D.Checked body) (h : Sound D s) {a : T × Choice}
    (hs : step body s a = some s') : Sound D s' := by
  obtain ⟨t, c⟩ := a
  have hstack := fun u => step_stack (t := u) hs
  obtain ⟨e, k', holder', hnext, happly, rfl⟩ := step_cases hs
  obtain ⟨hfits, hmoves⟩ := next_fits hD (h.fits t) hnext
  refine ⟨fun u => ?_, fun ℓ u => ?_⟩
  · by_cases hu : u = t
    · subst hu
      simpa using hfits
    · exact (hstack u hu).symm ▸ h.fits u
  · rw [Effect.apply_owned h.owned (h.fits t).sorted hmoves happly ℓ u]
    by_cases hu : u = t
    · subst hu
      simp
    · simp [hu]

/-- **The run lemma**: checked code is sound in every interleaving of any number of threads. -/
theorem reach_sound (hD : D.Checked body) {main : Code Λ Φ A} (hmain : main.fits D [] = true)
    (h : Transition.Reach (Start main) (step body) Transition.always s) : Sound D s := by
  refine h.invariant (Sound D) ?_ (fun _ _ _ hinv _ hs => step_sound hD hinv hs)
  rintro s rfl
  exact ⟨fun t => ⟨hmain, trivial⟩, by simp⟩

/-! ### Waiting -/

/-- The thread is in a section and can make a step there; where it pauses, it may. -/
structure State.Advances (D : Discipline Λ Φ A) (body : Φ → Code Λ Φ A) (s : State T Λ Φ A)
    (t : T) : Prop where
  holds : held (s.stack t) ≠ []
  rests : ∀ a, pauses (s.stack t) = some a → ∀ ℓ ∈ held (s.stack t), D.rests ℓ a = true
  steps : ∃ s', step body s (t, .go) = some s'

namespace Sound

/-- A thread in a section waits for another one, or makes a step. -/
theorem waits_or_advances (body : Φ → Code Λ Φ A) (h : Sound D s) (ht : held (s.stack t) ≠ []) :
    (∃ u, s.WaitsFor t u) ∨ s.Advances D body t := by
  have hne : s.stack t ≠ [] := fun hnil => ht (by rw [hnil]; rfl)
  obtain ⟨e, k', hnext, hwants⟩ := next_go body hne
  have hstep : ∀ holder', e.apply t s.holder = some holder' → s.Advances D body t := by
    intro holder' happly
    refine ⟨ht, fun a ha ℓ hℓ => (h.fits t).pauses_rests ha hℓ,
      ⟨Function.update s.stack t k', holder'⟩, ?_⟩
    simp [step, hnext, happly]
  cases e with
  | pass => exact Or.inr (hstep _ rfl)
  | release ℓ => exact Or.inr (hstep _ rfl)
  | take ℓ =>
    cases hholder : s.holder ℓ with
    | none => exact Or.inr (hstep _ (by rw [Effect.apply, if_pos hholder]))
    | some u => exact Or.inl ⟨u, ℓ, hwants ℓ rfl, hholder⟩

/-- **Every wait ends at a thread that can make a step** inside its section. -/
theorem wait_ends (hD : D.Checked body) (h : Sound D s) (hw : s.WaitsFor t u) :
    ∃ v, Relation.TransGen s.WaitsFor t v ∧ s.Advances D body v := by
  obtain ⟨ℓ, hℓ, hholder⟩ := hw
  -- the rank of the mutex that is waited for rises along the chain, and stays below the height
  generalize hk : D.height - D.rank ℓ = k
  induction k using Nat.strongRecOn generalizing t u ℓ with
  | ind k ih =>
    have hheld : ℓ ∈ held (s.stack u) := (h.owned ℓ u).mp hholder
    have hwait : s.WaitsFor t u := ⟨ℓ, hℓ, hholder⟩
    rcases h.waits_or_advances body (List.ne_nil_of_mem hheld) with ⟨v, m, hm, hv⟩ | hadv
    · have hlt := (h.fits u).wants_rank hm hheld
      have hheight := hD.ranks m
      obtain ⟨w, hw, hadv⟩ := ih (D.height - D.rank m) (by omega) m hm hv rfl
      exact ⟨w, .head hwait hw, hadv⟩
    · exact ⟨u, .single hwait, hadv⟩

end Sound

/-! ### Bounded holding -/

/-- What one thread does alone: from a stack and the holders to a stack and the holders. -/
inductive Leads (body : Φ → Code Λ Φ A) (t : T) :
    List (Frame Λ Φ A) → (Λ → Option T) → List (Frame Λ Φ A) → (Λ → Option T) → Prop
  | refl {k : List (Frame Λ Φ A)} {h : Λ → Option T} : Leads body t k h k h
  | head {k k₁ k' : List (Frame Λ Φ A)} {h h₁ h' : Λ → Option T} {c : Choice} {e : Effect Λ} :
    next body k c = some (e, k₁) → e.apply t h = some h₁ → Leads body t k₁ h₁ k' h' →
      Leads body t k h k' h'

/-- Steps that touch no mutex. -/
def quiet (body : Φ → Code Λ Φ A) :
    List (Frame Λ Φ A) → List Choice → Option (List (Frame Λ Φ A))
  | k, [] => some k
  | k, c :: cs =>
    match next body k c with
    | some (.pass, k') => quiet body k' cs
    | _ => none

namespace Leads

variable {k₁ : List (Frame Λ Φ A)} {h h' : Λ → Option T} {ℓ : Λ} {d : Code Λ Φ A}

/-- Steps without an effect on the mutexes, all at once. -/
theorem quiet (cs : List Choice) (hq : Locks.quiet body k cs = some k₁)
    (hr : Leads body t k₁ h k' h') : Leads body t k h k' h' := by
  induction cs generalizing k with
  | nil =>
    rw [Locks.quiet, Option.some.injEq] at hq
    exact hq ▸ hr
  | cons c cs ih =>
    rw [Locks.quiet] at hq
    split at hq
    · rename_i hnext
      exact .head hnext rfl (ih hq)
    · exact absurd hq (by simp)

/-- Taking a free mutex, which enters the section. -/
theorem take (hfree : h ℓ = none)
    (hr : Leads body t (.code d :: .unlock ℓ :: k) (Function.update h ℓ (some t)) k' h') :
    Leads body t (.code (.locked ℓ d) :: k) h k' h' :=
  .head (c := .go) rfl (if_pos hfree) hr

/-- Leaving a section, which frees its mutex. -/
theorem release (hr : Leads body t k (Function.update h ℓ none) k' h') :
    Leads body t (.unlock ℓ :: k) h k' h' :=
  .head (c := .go) rfl rfl hr

/-- A whole section, which leaves the holders as they were. -/
theorem within (cs : List Choice) (hfree : h ℓ = none)
    (hq : Locks.quiet body (.code d :: .unlock ℓ :: k) cs = some (.unlock ℓ :: k))
    (hr : Leads body t k h k' h') : Leads body t (.code (.locked ℓ d) :: k) h k' h' := by
  refine .take hfree (.quiet cs hq (.release ?_))
  rw [Function.update_idem, ← hfree, Function.update_eq_self]
  exact hr

/-- What a thread does alone is a run of all. -/
theorem exec (hl : Leads body t (s.stack t) s.holder k' h') :
    ∃ as, Transition.exec (step body) s as = some ⟨Function.update s.stack t k', h'⟩ := by
  generalize hk : s.stack t = k at hl
  generalize hh : s.holder = h at hl
  induction hl generalizing s with
  | refl => exact ⟨[], by rw [← hk, ← hh, Function.update_eq_self]; rfl⟩
  | @head k k₁ k' h h₁ h' c e hnext happly _ ih =>
    subst hk hh
    have hs₁ : step body s (t, c) = some ⟨Function.update s.stack t k₁, h₁⟩ := by
      simp [step, hnext, happly]
    obtain ⟨as, has⟩ := ih (s := ⟨Function.update s.stack t k₁, h₁⟩) (by simp) rfl
    refine ⟨(t, c) :: as, ?_⟩
    rw [Transition.exec, hs₁, Option.bind_some, has]
    simp

end Leads

end Exios.Locks
