import Exios.Base.Response
import Exios.Context.Dispatch
import Exios.Context.Lives

namespace Exios

/-!
# Context — every completion gets its turn

A completion that is in the queue, or in the batch that `run_once` has taken, is waiting for the
thread that drives the context.  The other threads post behind it, handlers post, cancel and throw,
and `poll_once` may come back with as many events as fit; none of that keeps it waiting for long.

* `line` — what the driving thread is going to dispatch, in this order;
* `Pc.distance` — the steps from a position to the next operation that the thread takes off its
  batch, which differs for what is in the batch and what is still queued;
* `Label.charge` — a full batch of events and a return from `run` cost the thread a few more steps;
* `dispatched_within` — an operation with `i` others before it is dispatched within `12 * i + 18`
  steps of the driving thread, apart from those.
-/

/-- The action is a step of `run` or `run_once`, not part of an API call. -/
def Act.isRun (a : Act) : Bool := !a.isCall && decide (a ≠ .callWake) && decide (a ≠ .callNotify)

/-- A batch of events as large as the buffer, after which `poll_once` polls again unless it was
    asked to block. -/
def pollsAgain (block : Bool) (events : List EpollEvent) : Bool :=
  decide (events.length = kMaxEventsPerPoll) && !block

/-- `poll_once` polls again after a full batch, unless it was allowed to block. -/
theorem pollsAgain_iff (block : Bool) (events : List EpollEvent) :
    pollsAgain block events = true ↔ events.length = kMaxEventsPerPoll ∧ block = false := by
  simp [pollsAgain]

/-- The steps that a thread at this position makes, at most, until it takes the next operation off
    its batch (`queued = false`), or off the batch that it takes from the queue next. -/
def Pc.distance : Pc → Bool → Nat
  | .drain, false => 2
  | .invoke _, false => 1
  | .handler _, false => 10
  | .drain, true => 16
  | .invoke _, true => 15
  | .handler _, true => 17
  | .takeQueue, _ => 3
  | .waitEvaluate, _ => 4
  | .runTest, _ => 5
  | .woken, _ => 5
  | .runLoop, _ => 6
  | .asleep, _ => 6
  | .waitSleep, _ => 7
  | .out, _ => 7
  | .exitNotify, _ => 4
  | .exitWake, _ => 5
  | .guardNotify _, _ => 8
  | .putBack, _ => 9
  | .polled _ none, _ => 10
  | .polled block (some events), _ => if pollsAgain block events then 14 else 10
  | .notified block events, _ => if pollsAgain block events then 13 else 9
  | .polling _ _, _ => 11
  | .announce _ _, _ => 12
  | .pollCancel _, _ => 13
  | .checkScheduler _, _ => 14
  | .readMore, _ => 15

/-- A position is at most 17 steps away from the next dispatch. -/
theorem Pc.distance_le (pc : Pc) (queued : Bool) : pc.distance queued ≤ 17 := by
  unfold distance
  split <;> (try split) <;> omega

namespace ContextThread

variable {K : Type} {n : Nat} {M : Kernel K} {s s' : ContextThread K n} {r t : Fin n}
  {op : AnyAsyncOperation}

/-- What the thread has taken and not dispatched. -/
def rest (th : Thread) : List AnyAsyncOperation := th.pc.inflight ++ th.batch

/-- What the thread is going to dispatch, as far as it is known. -/
def line (s : ContextThread K n) (r : Fin n) : List AnyAsyncOperation :=
  rest (s.threads r) ++ s.completionQueue

/-- The steps of `r`, at most, until it invokes the handler of `op`. -/
def turn (r : Fin n) (op : AnyAsyncOperation) (s : ContextThread K n) : Nat :=
  12 * (s.line r).idxOf op + (s.threads r).pc.distance (decide (op ∉ rest (s.threads r)))

/-- The handler of `op` was invoked, or the context is gone. -/
def Served (op : AnyAsyncOperation) (s : ContextThread K n) : Prop :=
  op ∈ s.invoked ∨ s.destroyed = true

/-- Only `r` enters `run` and `run_once`. -/
def DrivenBy (r : Fin n) : Label K n → Prop
  | .thread t a => a.enters = true → t = r
  | _ => True

instance (r : Fin n) (l : Label K n) : Decidable (DrivenBy r l) :=
  match l with
  | .thread t a => inferInstanceAs (Decidable (a.enters = true → t = r))
  | .destroy => isTrue trivial
  | .kernel _ => isTrue trivial
  | .forget _ => isTrue trivial

/-- The label is a step of `run` or `run_once` in the thread `r`. -/
def runsIn (r : Fin n) : Label K n → Bool
  | .thread t a => decide (t = r) && a.isRun
  | _ => false

/-- What a label costs: another poll after a full batch of events, another call of `run` after one
    that had no work. -/
def charge (r : Fin n) : Label K n → Nat
  | .thread t (.epollReturn events) =>
    if t = r ∧ events.length = kMaxEventsPerPoll then 4 else 0
  | .thread t .exitNotify => if t = r then 4 else 0
  | _ => 0

/-! ### One step -/

/-- A step that pushes behind the line. -/
theorem turn_push (hop : op ∈ s.line r) (hrest : rest (s'.threads r) = rest (s.threads r))
    (hqueue : s.completionQueue <+: s'.completionQueue) {c d : Nat}
    (hdist : ∀ queued, (queued = false → op ∈ rest (s.threads r)) →
      (s'.threads r).pc.distance queued + d ≤ (s.threads r).pc.distance queued + c) :
    op ∈ s'.line r ∧ turn r op s' + d ≤ turn r op s + c := by
  obtain ⟨new, hnew⟩ := hqueue
  have hline : s'.line r = s.line r ++ new := by
    rw [line, hrest, ← hnew, line, List.append_assoc]
  have hmem : op ∈ s'.line r := hline ▸ List.mem_append_left _ hop
  have hidx : (s'.line r).idxOf op = (s.line r).idxOf op := by
    rw [hline, List.idxOf_append_of_mem hop]
  refine ⟨hmem, ?_⟩
  have := hdist (decide (op ∉ rest (s.threads r))) (fun hq => by simpa using hq)
  unfold turn
  rw [hidx, hrest]
  omega

/-- The driving thread goes on with the same operations left. -/
theorem turn_map (hop : op ∈ s.line r) {s₁ : ContextThread K n} {f : Thread → Thread}
    (hs₁ : s₁.threads r = s.threads r) (hrest : rest (f (s.threads r)) = rest (s.threads r))
    (hqueue : s.completionQueue <+: s₁.completionQueue) {c : Nat}
    (hdist : ∀ queued, (queued = false → op ∈ rest (s.threads r)) →
      (f (s.threads r)).pc.distance queued + 1 ≤ (s.threads r).pc.distance queued + c) :
    op ∈ (s₁.mapThread r f).line r ∧ turn r op (s₁.mapThread r f) < turn r op s + c := by
  have hth : (s₁.mapThread r f).threads r = f (s.threads r) := by
    rw [mapThread_threads, if_pos rfl, hs₁]
  have hrest' : rest ((s₁.mapThread r f).threads r) = rest (s.threads r) := by
    rw [hth, hrest]
  exact turn_push hop hrest' hqueue (d := 1) (fun queued hq => by rw [hth]; exact hdist queued hq)

/-- `run_once` takes the queue. -/
theorem turn_take (hplace : s.PlaceInv) (hop : op ∈ s.line r)
    (hpc : (s.threads r).pc = .takeQueue)
    (hth : s'.threads r = { s.threads r with
      pc := .drain, batch := s.completionQueue, numProcessedOnce := 0 })
    (hqueue : s'.completionQueue = []) : op ∈ s'.line r ∧ turn r op s' < turn r op s := by
  have hbatch : (s.threads r).batch = [] := hplace.batch_nil (by rw [hpc]; rfl)
  have hrest : rest (s.threads r) = [] := by
    rw [rest, hpc, hbatch]
    rfl
  have hrest' : rest (s'.threads r) = s.completionQueue := by
    rw [hth]
    rfl
  -- the splice moves the line into the batch, in its order
  have hline : s'.line r = s.line r := by
    rw [line, hrest', hqueue, line, hrest, List.append_nil, List.nil_append]
  refine ⟨hline ▸ hop, ?_⟩
  have hmem : op ∈ s.completionQueue := by
    rw [line, hrest] at hop
    exact hop
  unfold turn
  rw [hline, hrest', hrest, hpc, hth]
  simp only [hmem, not_true_eq_false, decide_false, Pc.distance]
  omega

/-- The handler of the first operation in the line is invoked. -/
theorem turn_invoke {first : AnyAsyncOperation} (hne : op ≠ first) (hop : op ∈ s.line r)
    (hpc : (s.threads r).pc = .invoke first)
    (hth : s'.threads r = { s.threads r with pc := .handler first })
    (hqueue : s'.completionQueue = s.completionQueue) :
    op ∈ s'.line r ∧ turn r op s' < turn r op s := by
  have hrest : rest (s.threads r) = first :: rest (s'.threads r) := by
    rw [rest, hpc, rest, hth]
    rfl
  have hline : s.line r = first :: s'.line r := by
    rw [line, hrest, line, hqueue, List.cons_append]
  have hmem : op ∈ s'.line r := by
    rw [hline] at hop
    exact (List.mem_cons.mp hop).resolve_left hne
  -- one operation less in front of `op`
  have hidx : (s.line r).idxOf op = (s'.line r).idxOf op + 1 := by
    rw [hline, List.idxOf_cons_ne _ (Ne.symm hne)]
  have hqueued : (op ∉ rest (s.threads r)) ↔ op ∉ rest (s'.threads r) := by
    rw [hrest, List.mem_cons, not_or]
    exact and_iff_right hne
  refine ⟨hmem, ?_⟩
  unfold turn
  simp only [hidx, hqueued, hpc, hth]
  cases decide (op ∉ rest { s.threads r with pc := .handler first }) <;>
    simp only [Pc.distance] <;> omega

/-- An exception leaves `run_once`: the rest of the batch goes to the front of the queue. -/
theorem turn_putBack (hop : op ∈ s.line r) (hpc : (s.threads r).pc = .putBack)
    (hth : s'.threads r = { s.threads r with pc := .guardNotify true, batch := [] })
    (hqueue : s'.completionQueue = (s.threads r).batch ++ s.completionQueue) :
    op ∈ s'.line r ∧ turn r op s' < turn r op s := by
  have hline : s'.line r = s.line r := by
    rw [line, rest, hth, hqueue, line, rest, hpc]
    rfl
  refine ⟨hline ▸ hop, ?_⟩
  unfold turn
  rw [hline, hpc, hth]
  simp only [Pc.distance]
  omega

/-- **A step of the driving thread** brings it nearer to `op`. -/
theorem run_turn (hplace : s.PlaceInv) (hop : op ∈ s.line r) {a : Act}
    (hs : RunStep M s r a s') :
    Served op s' ∨
      (op ∈ s'.line r ∧ turn r op s' < turn r op s + charge (K := K) r (.thread r a)) := by
  cases hs with
  | take hpc hfree =>
    exact Or.inr (turn_take hplace hop hpc (by rw [mapThread_threads, if_pos rfl]) rfl)
  | @invoke first result hpc hdeliver =>
    by_cases hne : op = first
    · -- its turn has come
      subst hne
      refine Or.inl (Or.inl ?_)
      show op ∈ ({ s with log := s.log ++ [Consumption.invoked op result] }).invoked
      rw [invoked_append]
      exact List.mem_append_right _ (by simp [Consumption.invoked?])
    · exact Or.inr (turn_invoke hne hop hpc (by rw [goto, mapThread_threads, if_pos rfl]) rfl)
  | putBack hpc hfree =>
    exact Or.inr (turn_putBack hop hpc (by rw [mapThread_threads, if_pos rfl]) rfl)
  | evaluateFalse hpc hpred =>
    -- the wait goes on only when the queue is empty
    have hempty : s.completionQueue = [] := by
      simp only [predicate, Bool.or_eq_false_iff, Bool.not_eq_false'] at hpred
      exact List.isEmpty_iff.mp hpred.1.1
    have hbatch : (s.threads r).batch = [] := hplace.batch_nil (by rw [hpc]; rfl)
    rw [line, rest, hpc, hbatch, hempty] at hop
    exact absurd hop (by simp [Pc.inflight])
  | @popFront first tail hpc hbatch =>
    refine Or.inr (turn_map hop ?_ ?_ ?_ ?_)
    · rfl
    · rw [rest, rest, hpc, hbatch]
      rfl
    · exact List.prefix_rfl
    · intro queued _
      rw [hpc]
      cases queued <;> simp only [Pc.distance] <;> omega
  | handlerReturn hpc | handlerThrow hpc =>
    refine Or.inr (turn_map hop ?_ ?_ ?_ ?_)
    · rfl
    · rw [rest, rest, hpc]
      rfl
    · exact List.prefix_rfl
    · intro queued _
      rw [hpc]
      cases queued <;> simp only [Pc.distance] <;> omega
  | @guardNotify thrown hpc =>
    refine Or.inr (turn_map hop ?_ ?_ ?_ ?_)
    · exact Dispatch.notifyAll_threads (by rw [hpc]; simp)
    · rw [rest, rest, hpc]
      dsimp only
      split <;> rfl
    · exact List.prefix_rfl
    · intro queued _
      rw [hpc]
      dsimp only
      split <;> simp only [Pc.distance] <;> omega
  | drained hpc hbatch =>
    refine Or.inr (turn_map hop ?_ ?_ ?_ ?_)
    · rfl
    · rw [rest, rest, hpc]
      rfl
    · exact List.prefix_rfl
    · intro queued hq
      rw [hpc]
      cases queued with
      | true =>
        simp only [Pc.distance]
        omega
      | false =>
        -- nothing is left in the batch
        have hmem := hq rfl
        rw [rest, hpc, hbatch] at hmem
        exact absurd hmem (by simp [Pc.inflight])
  | loop hpc | checkScheduler hpc =>
    refine Or.inr (turn_map hop ?_ ?_ ?_ ?_)
    · rfl
    · rw [rest, rest, hpc]
      dsimp only
      split <;> rfl
    · exact List.prefix_rfl
    · intro queued _
      rw [hpc]
      dsimp only
      split <;> simp only [Pc.distance] <;> omega
  | pollCancel hpc hfree hpoll hpost =>
    refine Or.inr (turn_map hop ?_ ?_ ?_ ?_)
    · exact Dispatch.enqueue_threads (by rw [hpc]; simp)
    · rw [rest, rest, hpc]
      dsimp only
      split <;> rfl
    · rw [enqueue_completionQueue]
      exact List.prefix_append _ _
    · intro queued _
      rw [hpc]
      dsimp only
      split <;> simp only [Pc.distance] <;> omega
  | @notifications block events sched posts hpc hfree hpoll hpost =>
    refine Or.inr (turn_map hop ?_ ?_ ?_ ?_)
    · exact Dispatch.enqueue_threads (by rw [hpc]; simp)
    · rw [rest, rest, hpc]
      dsimp only
      split <;> rfl
    · rw [enqueue_completionQueue]
      exact List.prefix_append _ _
    · intro queued _
      rw [hpc]
      have hagain := pollsAgain_iff block events
      dsimp only
      split
      · rename_i hfull
        simp only [Pc.distance, if_pos (hagain.mpr hfull)]
        omega
      · rename_i hfull
        simp only [Pc.distance, if_neg (mt hagain.mp hfull)]
        omega
  | @epollReturn block forever events hpc =>
    refine Or.inr (turn_map hop ?_ ?_ ?_ ?_)
    · rfl
    · rw [rest, rest, hpc]
      rfl
    · exact List.prefix_rfl
    · intro queued _
      rw [hpc]
      -- a full batch is charged for the poll that may follow it
      simp only [Pc.distance, charge, true_and]
      by_cases hagain : pollsAgain block events = true
      · rw [if_pos hagain, if_pos ((pollsAgain_iff block events).mp hagain).1]
      · rw [if_neg hagain]
        omega
  | retire hpc =>
    refine Or.inr (turn_map hop ?_ ?_ ?_ ?_)
    · rfl
    · rw [rest, rest, hpc]
      rfl
    · exact List.prefix_rfl
    · intro queued _
      rw [hpc]
      simp only [Pc.distance]
      split <;> omega
  | exitNotify hpc =>
    refine Or.inr (turn_map hop ?_ ?_ ?_ ?_)
    · exact Dispatch.notifyAll_threads (by rw [hpc]; simp)
    · rw [rest, rest, hpc]
      rfl
    · exact List.prefix_rfl
    · intro queued _
      rw [hpc]
      simp only [Pc.distance, charge, if_true]
      omega
  | enterRun hpc | enterRunOnce hpc | testWait hpc | testGo hpc | evaluateTrue hpc | sleep hpc
  | spuriousWake hpc | relock hpc | readMore hpc | announce hpc | epollFail hpc | retireThrow hpc
  | exitWake hpc | putBackNone hpc =>
    refine Or.inr (turn_map hop ?_ ?_ ?_ ?_)
    · rfl
    · rw [rest, rest, hpc]
      rfl
    · exact List.prefix_rfl
    · intro queued _
      rw [hpc]
      simp only [Pc.distance]
      omega

/-! ### Runs -/

/-- What the steps keep: all threads but `r` are outside, and `op` is in its line until it is
    served. -/
structure AwaitInv (r : Fin n) (op : AnyAsyncOperation) (s : ContextThread K n) : Prop where
  results : s.ResultInv
  places : s.PlaceInv
  others : ∀ u, u ≠ r → (s.threads u).pc = .out
  held : Served op s ∨ op ∈ s.line r

/-- A wake-up is a step of the driving thread that another thread makes for it. -/
theorem turn_wakes (hop : op ∈ s.line r) (hbatch : (s'.threads r).batch = (s.threads r).batch)
    (hpc : (s'.threads r).pc = (s.threads r).pc ∨
      ((s.threads r).pc = .asleep ∧ (s'.threads r).pc = .woken))
    (hqueue : s.completionQueue <+: s'.completionQueue) :
    op ∈ s'.line r ∧ turn r op s' ≤ turn r op s := by
  refine turn_push hop ?_ hqueue (c := 0) (d := 0) ?_
  · rcases hpc with heq | ⟨hasleep, hwoken⟩
    · rw [rest, rest, heq, hbatch]
    · rw [rest, rest, hasleep, hwoken, hbatch]
      rfl
  · intro queued _
    rcases hpc with heq | ⟨hasleep, hwoken⟩
    · rw [heq]
    · rw [hasleep, hwoken]
      simp only [Pc.distance]
      omega

/-- Whoever makes a step of `run` or `run_once` is the driving thread. -/
theorem driver_of_runStep (hothers : ∀ u, u ≠ r → (s.threads u).pc = .out) {a : Act}
    (hok : DrivenBy r (.thread t a : Label K n)) (hs : RunStep M s t a s') : t = r := by
  by_contra ht
  -- a thread that is not `r` is outside, and would have to enter first
  exact ht (hok (hs.enters (hothers t ht)))

/-- **A step that is not the driving thread's** takes nothing back. -/
theorem other_turn (hothers : ∀ u, u ≠ r → (s.threads u).pc = .out) (hop : op ∈ s.line r)
    {l : Label K n} (hok : DrivenBy r l) (hs : Step M s l s') (hown : runsIn r l = false) :
    Served op s' ∨ (op ∈ s'.line r ∧ turn r op s' ≤ turn r op s) := by
  cases hs with
  | @run t a _ hlive hcall hs =>
    have hrun : a.isRun = true := by cases hs <;> rfl
    obtain rfl := driver_of_runStep hothers hok hs
    exact absurd hown (by simp [runsIn, hrun])
  | @call t a _ hlive hcall huser hs =>
    refine Or.inr (turn_wakes hop ?_ (Or.inl (hs.frame.1 r)) ?_)
    · cases hs with
      | cancelNothing | latchWork => rfl
      | _ =>
        rw [setCall, mapThread_threads]
        split <;> rfl
    · cases hs with
      | post => exact List.prefix_append _ _
      | _ => exact List.prefix_rfl
  | @rest t a _ hlive hs =>
    refine Or.inr (turn_wakes hop ?_ (hs.frame.2.1 r) ?_)
    · cases hs with
      | postWake | cancelWake | releaseWake =>
        rw [setCall, mapThread_threads]
        split <;> rfl
      | _ =>
        rw [setCall, mapThread_threads]
        split <;> exact notifyAll_batch _ _
    · cases hs <;> exact List.prefix_rfl
  | destroy hlive hout => exact Or.inl (Or.inr rfl)
  | kernel | forget => exact Or.inr ⟨hop, le_rfl⟩

/-- A step of the driving thread, as a step of the system. -/
theorem own_turn (hplace : s.PlaceInv) (hop : op ∈ s.line r) {l : Label K n} (hs : Step M s l s')
    (hown : runsIn r l = true) :
    Served op s' ∨ (op ∈ s'.line r ∧ turn r op s' < turn r op s + charge r l) := by
  cases hs with
  | @run t a _ hlive hcall hs =>
    obtain rfl : t = r := by
      rw [runsIn, Bool.and_eq_true] at hown
      exact of_decide_eq_true hown.1
    exact run_turn hplace hop hs
  | @call t a _ hlive hcall huser hs =>
    have hrun : a.isRun = false := by cases hs <;> rfl
    exact absurd hown (by simp [runsIn, hrun])
  | @rest t a _ hlive hs =>
    have hrun : a.isRun = false := by cases hs <;> rfl
    exact absurd hown (by simp [runsIn, hrun])
  | destroy | kernel | forget => exact absurd hown (by simp [runsIn])

/-- The other threads stay outside. -/
theorem step_others (hothers : ∀ u, u ≠ r → (s.threads u).pc = .out) {l : Label K n}
    (hok : DrivenBy r l) (hs : Step M s l s') : ∀ u, u ≠ r → (s'.threads u).pc = .out := by
  have hframe : ∀ u, u ≠ r → ((s'.threads u).pc = (s.threads u).pc ∨
      ((s.threads u).pc = .asleep ∧ (s'.threads u).pc = .woken)) → (s'.threads u).pc = .out := by
    intro u hu hpc
    rcases hpc with heq | ⟨hasleep, -⟩
    · rw [heq, hothers u hu]
    · rw [hothers u hu] at hasleep
      exact absurd hasleep (by simp)
  intro u hu
  cases hs with
  | @run t a _ hlive hcall hs =>
    obtain rfl := driver_of_runStep hothers hok hs
    exact hframe u hu (hs.frame.others u hu)
  | call hlive hcall huser hs => exact hframe u hu (Or.inl (hs.frame.1 u))
  | rest hlive hs => exact hframe u hu (hs.frame.2.1 u)
  | destroy | kernel | forget => exact hothers u hu

/-- What is served stays served. -/
theorem step_served {l : Label K n} (hs : Step M s l s') (h : Served op s) : Served op s' := by
  rcases h with hinv | hd
  · exact Or.inl (hs.invoked_sub op hinv)
  · refine Or.inr ?_
    cases hs with
    | run hlive | call hlive | rest hlive | destroy hlive =>
      rw [hd] at hlive
      exact absurd hlive (by simp)
    | kernel | forget => exact hd

/-- The driving thread responds to what is in its line. -/
theorem responds (M : Kernel K) (r : Fin n) (op : AnyAsyncOperation) :
    Transition.Responds (next M) (DrivenBy r) (runsIn r) (charge r) (AwaitInv r op) (Served op)
      (turn r op) where
  keeps := by
    intro s l s' hinv hok hs
    have hs' := next_cases hs
    refine ⟨step_resultInv hinv.results hs', step_placeInv hinv.results hinv.places hs',
      step_others hinv.others hok hs', ?_⟩
    -- served stays served; an operation in the line stays in it, or is served
    rcases hinv.held with hserved | hop
    · exact Or.inl (step_served hs' hserved)
    · cases hown : runsIn r l with
      | false => exact (other_turn hinv.others hop hok hs' hown).imp id And.left
      | true => exact (own_turn hinv.places hop hs' hown).imp id And.left
  stays := fun s l s' _ _ hs hserved => step_served (next_cases hs) hserved
  descends := by
    intro s l s' hinv hok hs hnot hown
    have hop := hinv.held.resolve_left hnot
    exact (own_turn hinv.places hop (next_cases hs) hown).imp id And.right
  others := by
    intro s l s' hinv hok hs hnot hown
    have hop := hinv.held.resolve_left hnot
    refine (other_turn hinv.others hop hok (next_cases hs) hown).imp id (fun h => ?_)
    exact le_trans h.2 (Nat.le_add_right _ _)

/-- The turn of an operation is bounded by its place in the line: twelve steps for each one before
    it, and the way there. -/
theorem turn_le (r : Fin n) (op : AnyAsyncOperation) (s : ContextThread K n) :
    turn r op s ≤ 12 * (s.line r).idxOf op + 17 :=
  Nat.add_le_add_left (Pc.distance_le _ _) _

/-- The states of the runs in which only `r` enters meet the invariant. -/
theorem reach_awaitInv (hr : Reach M (fun _ => DrivenBy r) s) (hop : op ∈ s.line r) :
    AwaitInv r op s := by
  have hall : s.ResultInv ∧ s.PlaceInv ∧ ∀ u, u ≠ r → (s.threads u).pc = .out := by
    refine Transition.Reach.invariant
      (fun s => s.ResultInv ∧ s.PlaceInv ∧ ∀ u, u ≠ r → (s.threads u).pc = .out) ?_ ?_ hr
    · intro s hi
      refine ⟨init_resultInv hi, init_placeInv hi, fun u _ => ?_⟩
      rw [hi.2]
      rfl
    · rintro s l s' ⟨hres, hplace, hothers⟩ hok hs
      have hs' := next_cases hs
      exact ⟨step_resultInv hres hs', step_placeInv hres hplace hs', step_others hothers hok hs'⟩
  exact ⟨hall.1, hall.2.1, hall.2.2, Or.inr hop⟩

/-- **Every completion gets its turn.**  In every run in which one thread drives the context, an
    operation that waits in its line behind `i` others has its handler invoked as soon as the
    thread has made `12 * i + 18` steps of `run` and `run_once`, and four more for each batch of
    events that filled the buffer and for each return from `run`: whatever is posted behind it,
    whatever the other threads do in between, and however many handlers throw. -/
theorem dispatched_within (hr : Reach M (fun _ => DrivenBy r) s) (hop : op ∈ s.line r)
    {ls : List (Label K n)} (hok : ∀ l ∈ ls, DrivenBy r l)
    (hexec : Transition.exec (next M) s ls = some s')
    (hsteps : 12 * (s.line r).idxOf op + 18 + (ls.map (charge r)).sum ≤ ls.countP (runsIn r)) :
    op ∈ s'.invoked ∨ s'.destroyed = true := by
  have hturn := turn_le r op s
  exact (responds M r op).within (reach_awaitInv hr hop) hok hexec (by omega)

/-- `run_once`, when there is nothing to do. -/
def idleRound : List Act := [.enterRunOnce, .take, .drain, .readMore, .checkScheduler, .guardNotify]

/-- Two completions are queued; the handler of the first throws, and `run_once` is called again. -/
def throwAndServe : List Act :=
  [.enterRunOnce, .take, .drain, .invoke, .handlerThrow, .putBack, .guardNotify,
    .enterRunOnce, .take, .drain, .invoke, .handlerReturn, .drain, .readMore, .checkScheduler,
    .guardNotify] ++ idleRound ++ idleRound ++ idleRound

/-- Another thread posts twice; the handler of the first completion throws, and the second one gets
    its turn when `run_once` is called again. -/
theorem dispatched_within_after_throw :
    ∃ s s' : ContextThread Unit 2, s.completionQueue = [.plain 1, .plain 2] ∧
      .plain 2 ∉ s.invoked ∧ (.plain 2 ∈ s'.invoked ∨ s'.destroyed = true) := by
  have hrun : ∀ t u : Fin 2, t = 0 → u = 1 → ∃ s, Reach quietKernel (fun _ => DrivenBy t) s ∧
      (decide (s.completionQueue = [.plain 1, .plain 2] ∧ .plain 2 ∉ s.invoked ∧
        s.line t = [.plain 1, .plain 2]) &&
      (Transition.exec (next quietKernel) s (throwAndServe.map (.thread t))).isSome) = true := by
    rintro t u rfl rfl
    exact Transition.exists_reach (quietContext_init 2)
      ([.post 1, .callWake, .callNotify, .post 2, .callWake, .callNotify].map (.thread 1)) _
      (by decide)
  obtain ⟨s, hs, hend⟩ := hrun 0 1 rfl rfl
  rw [Bool.and_eq_true, Option.isSome_iff_exists] at hend
  obtain ⟨hqueue, hnot, hline⟩ := of_decide_eq_true hend.1
  obtain ⟨s', hexec⟩ := hend.2
  refine ⟨s, s', hqueue, hnot, dispatched_within hs (by rw [hline]; simp) ?_ hexec ?_⟩
  · intro l hl
    obtain ⟨a, -, rfl⟩ := List.mem_map.mp hl
    exact fun _ => rfl
  · rw [hline]
    decide

end ContextThread

end Exios
