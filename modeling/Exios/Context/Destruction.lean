import Exios.Context.Accounting

namespace Exios

/-!
# Context — which members the destructors touch

`~ContextThread` discards the queued completions; then the members are destroyed in reverse order
of declaration, `io_scheduler_` last, and `~IoScheduler` discards the operations that it still
has.  Discarding an operation destroys the `Work` objects of its closure, and each of them calls
`release_work` of the context that is being destroyed.

The destructors run in `Unwind`, which records every access to a member and every member whose
destructor has run, and ends early when a contract check fails.

* `UsesLive` — no member is accessed after its destructor has run;
* `destructor_performs` — all that a destruction does, for every state of a context whose `Work`
  objects have latched their count;
* `destruction_usesLive_iff` — it uses live members only if, and only if, the scheduler has no
  operation left;
* `Works.destruction_of_reach`, `Works.destructor_destroy` — the runs of `Works` end in such
  states, and their last step lowers the count as the destructor does.
-/

/-! ### Members and their lifetimes -/

/-- The members of `ContextThread`, and of the `IoScheduler` in it. -/
inductive Member
  | ioScheduler
  | completionQueue
  | remainingCount
  | dataMutex
  | cvar
  | schedulerCtx
  | epollFd
  | wakeEvent
  | operations
  | beginCancelled
  | schedulerDataMutex
  | pollQueueLength
deriving DecidableEq, Repr

/-- The members of `ContextThread`, in order of declaration. -/
def ContextThread.members : List Member :=
  [.ioScheduler, .completionQueue, .remainingCount, .dataMutex, .cvar]

/-- The members of `IoScheduler`, in order of declaration. -/
def IoScheduler.members : List Member :=
  [.schedulerCtx, .epollFd, .wakeEvent, .operations, .beginCancelled, .schedulerDataMutex,
    .pollQueueLength]

/-- What happens to a member during a destruction. -/
inductive LifetimeEvent
  | access (m : Member)
  /-- The destructor of the member has run. -/
  | destroyed (m : Member)
deriving DecidableEq, Repr

/-- The second event may come after the first. -/
def LifetimeEvent.allows : LifetimeEvent → LifetimeEvent → Bool
  | .destroyed m, .access m' => decide (m ≠ m')
  | _, _ => true

/-- No member is accessed after its destructor has run. -/
def UsesLive (trace : List LifetimeEvent) : Prop := trace.Pairwise (fun e f => e.allows f = true)

instance (trace : List LifetimeEvent) : Decidable (UsesLive trace) :=
  inferInstanceAs (Decidable (trace.Pairwise _))

/-- The state of a destruction. -/
structure Unwinding where
  /-- What happened so far, oldest first. -/
  trace : List LifetimeEvent
  remainingCount : Nat
deriving DecidableEq, Repr

/-- Code that runs during a destruction. -/
abbrev Unwind := EStateM Contract Unwinding Unit

/-- One more event. -/
def record (e : LifetimeEvent) : Unwind := modify (fun u => { u with trace := u.trace ++ [e] })

/-! ### The destructors -/

/-- `ContextThread::release_work`. -/
def releaseWork : Unwind := do
  record (.access .remainingCount)
  let prev := (← get).remainingCount
  modify (fun u => { u with remainingCount := prev - 1 })
  if prev = 0 then throw .releaseWithoutWork
  -- `io_scheduler_.wake()`
  record (.access .ioScheduler)
  record (.access .wakeEvent)
  record (.access .cvar)

/-- `discard` of an operation whose closure has `k` active `Work` objects. -/
def discard : Nat → Unwind
  | 0 => pure ()
  | k + 1 => do
    releaseWork
    discard k

/-- `drain_list` of a member, with `discard`.  The sentinel that `~ContextThread` leaves out is
    never queued. -/
def drainList (list : Member) (works : AnyAsyncOperation → Nat) : List AnyAsyncOperation → Unwind
  | [] => record (.access list)
  | op :: ops => do
    record (.access list)
    discard (works op)
    drainList list works ops

/-- The members are destroyed, the last declared one first. -/
def destroyMembers (destructor : Member → Unwind) : List Member → Unwind
  | [] => pure ()
  | m :: ms => do
    destroyMembers destructor ms
    destructor m
    record (.destroyed m)

/-- `~IoScheduler`, with the destruction of its members. -/
def IoScheduler.destructor (works : AnyAsyncOperation → Nat) (ops : List AnyAsyncOperation) :
    Unwind := do
  record (.access .epollFd)
  drainList .operations works ops
  destroyMembers (fun _ => pure ()) IoScheduler.members

/-- `~ContextThread`, with the destruction of its members; `works op` is the number of active `Work`
    objects in the closure of `op`. -/
def ContextThread.destructor {K : Type} {n : Nat} (s : ContextThread K n)
    (works : AnyAsyncOperation → Nat) : Unwind := do
  record (.access .dataMutex)
  drainList .completionQueue works s.completionQueue
  record (.access .dataMutex)
  destroyMembers (fun m =>
    if m = .ioScheduler then IoScheduler.destructor works (s.sched.io.operations.map .io)
    else pure ()) ContextThread.members

/-- What the destruction of a context does, up to its end or to the contract check that fails. -/
def ContextThread.destructionTrace {K : Type} {n : Nat} (s : ContextThread K n)
    (works : AnyAsyncOperation → Nat) : List LifetimeEvent :=
  match s.destructor works ⟨[], s.remainingCount⟩ with
  | .ok _ u => u.trace
  | .error _ u => u.trace

/-! ### What the code performs -/

/-- The code releases `k` units of the count, and its events are `trace`. -/
def Performs (x : Unwind) (k : Nat) (trace : List LifetimeEvent) : Prop :=
  ∀ u : Unwinding, k ≤ u.remainingCount →
    x u = .ok () ⟨u.trace ++ trace, u.remainingCount - k⟩

/-- **Sequencing.** -/
theorem Performs.bind {x y : Unwind} {k l : Nat} {a b : List LifetimeEvent}
    (hx : Performs x k a) (hy : Performs y l b) :
    Performs (do x; y) (k + l) (a ++ b) := by
  intro u hu
  have hrest : l ≤ u.remainingCount - k := by omega
  show EStateM.bind x (fun _ => y) u = _
  rw [EStateM.bind, hx u (by omega)]
  show y _ = _
  rw [hy _ hrest, List.append_assoc, Nat.sub_sub]

theorem performs_record (e : LifetimeEvent) : Performs (record e) 0 [e] := fun _ _ => rfl

theorem performs_pure : Performs (pure ()) 0 [] := by
  intro u _
  rw [List.append_nil]
  rfl

/-- The members that `release_work` accesses. -/
def releaseTrace : List LifetimeEvent :=
  [.access .remainingCount, .access .ioScheduler, .access .wakeEvent, .access .cvar]

/-- `release_work` accesses its members and lowers the count. -/
theorem performs_releaseWork : Performs releaseWork 1 releaseTrace := by
  rintro ⟨trace, count⟩ hu
  cases count with
  | zero => exact absurd hu (by simp)
  | succ count =>
    have hrun : releaseWork ⟨trace, count + 1⟩ = .ok () ⟨trace ++ [.access .remainingCount]
        ++ [.access .ioScheduler] ++ [.access .wakeEvent] ++ [.access .cvar], count⟩ := rfl
    rw [hrun, List.append_assoc, List.append_assoc, List.append_assoc]
    rfl

/-- Discarding an operation. -/
def discardTrace : Nat → List LifetimeEvent
  | 0 => []
  | k + 1 => releaseTrace ++ discardTrace k

/-- Discarding an operation destroys its `Work`s, one release each. -/
theorem performs_discard (k : Nat) : Performs (discard k) k (discardTrace k) := by
  induction k with
  | zero => exact performs_pure
  | succ k ih =>
    have hstep := performs_releaseWork.bind ih
    rwa [Nat.add_comm 1 k] at hstep

/-- Draining a list. -/
def drainTrace (list : Member) (works : AnyAsyncOperation → Nat) :
    List AnyAsyncOperation → List LifetimeEvent
  | [] => [.access list]
  | op :: ops => .access list :: (discardTrace (works op) ++ drainTrace list works ops)

/-- **`drain_list`** discards every operation of the list. -/
theorem performs_drainList (list : Member) (works : AnyAsyncOperation → Nat)
    (ops : List AnyAsyncOperation) :
    Performs (drainList list works ops) (ops.map works).sum (drainTrace list works ops) := by
  induction ops with
  | nil => exact performs_record _
  | cons op ops ih =>
    have hstep := (performs_record (.access list)).bind ((performs_discard (works op)).bind ih)
    rwa [Nat.zero_add] at hstep

/-- Members whose destructors do nothing that is recorded. -/
theorem performs_destroyMembers {destructor : Member → Unwind} {ms : List Member}
    (h : ∀ m ∈ ms, destructor m = pure ()) :
    Performs (destroyMembers destructor ms) 0 (ms.reverse.map .destroyed) := by
  induction ms with
  | nil => exact performs_pure
  | cons m ms ih =>
    have hm : Performs (destructor m) 0 [] := by
      rw [h m List.mem_cons_self]
      exact performs_pure
    have hrest := ih (fun x hx => h x (List.mem_cons_of_mem m hx))
    have hstep := hrest.bind (hm.bind (performs_record (.destroyed m)))
    rwa [List.reverse_cons, List.map_append]

/-- **`~IoScheduler`.** -/
theorem performs_schedulerDestructor (works : AnyAsyncOperation → Nat)
    (ops : List AnyAsyncOperation) :
    Performs (IoScheduler.destructor works ops) (ops.map works).sum
      (.access .epollFd :: drainTrace .operations works ops
        ++ IoScheduler.members.reverse.map .destroyed) := by
  have hmembers : Performs (destroyMembers (fun _ => pure ()) IoScheduler.members) 0
      (IoScheduler.members.reverse.map .destroyed) := performs_destroyMembers (fun _ _ => rfl)
  have hrun := (performs_record (.access .epollFd)).bind
    ((performs_drainList .operations works ops).bind hmembers)
  rwa [Nat.zero_add] at hrun

namespace ContextThread

variable {K : Type} {n : Nat}

/-- What the body of `~ContextThread` does. -/
def bodyTrace (s : ContextThread K n) (works : AnyAsyncOperation → Nat) : List LifetimeEvent :=
  .access .dataMutex :: (drainTrace .completionQueue works s.completionQueue
    ++ [.access .dataMutex])

/-- What the body of `~IoScheduler` does. -/
def schedulerTrace (s : ContextThread K n) (works : AnyAsyncOperation → Nat) :
    List LifetimeEvent :=
  .access .epollFd :: drainTrace .operations works (s.sched.io.operations.map .io)

/-- The members that are destroyed before `~IoScheduler` runs. -/
def destroyedFirst : List Member := [.cvar, .dataMutex, .remainingCount, .completionQueue]

/-- The members that are destroyed after its body. -/
def destroyedLast : List Member := IoScheduler.members.reverse ++ [.ioScheduler]

/-- The `Work` objects that the destruction releases. -/
def worksLeft (s : ContextThread K n) (works : AnyAsyncOperation → Nat) : Nat :=
  ((s.completionQueue ++ s.sched.io.operations.map AnyAsyncOperation.io).map works).sum

/-- **A destruction**, phase by phase. -/
theorem destructor_performs (s : ContextThread K n) (works : AnyAsyncOperation → Nat) :
    Performs (s.destructor works) (s.worksLeft works)
      (s.bodyTrace works ++ (destroyedFirst.map .destroyed
        ++ (s.schedulerTrace works ++ destroyedLast.map .destroyed))) := by
  have hfirst : Performs (destroyMembers (fun m =>
      if m = .ioScheduler then IoScheduler.destructor works (s.sched.io.operations.map .io)
      else pure ()) members.tail) 0 (destroyedFirst.map .destroyed) := by
    -- of the members behind the body only the scheduler's destructor does more than end its own
    -- life
    apply performs_destroyMembers
    intro m hm
    apply if_neg
    rintro rfl
    exact absurd hm (by decide)
  have hmembers := hfirst.bind
    ((performs_schedulerDestructor works (s.sched.io.operations.map .io)).bind
      (performs_record (.destroyed .ioScheduler)))
  have hrun : Performs (s.destructor works) _ _ := (performs_record (.access .dataMutex)).bind
    ((performs_drainList .completionQueue works s.completionQueue).bind
      ((performs_record (.access .dataMutex)).bind hmembers))
  rw [worksLeft, List.map_append, List.sum_append]
  simpa [bodyTrace, schedulerTrace, destroyedLast] using hrun

/-- The trace of a destruction in which every release finds its unit. -/
theorem destructionTrace_eq (s : ContextThread K n) {works : AnyAsyncOperation → Nat}
    (h : s.worksLeft works ≤ s.remainingCount) :
    s.destructionTrace works = s.bodyTrace works ++ (destroyedFirst.map .destroyed
      ++ (s.schedulerTrace works ++ destroyedLast.map .destroyed)) := by
  rw [destructionTrace, s.destructor_performs works ⟨[], s.remainingCount⟩ h]
  rfl

end ContextThread

/-! ### Live members -/

/-- **Two phases** use live members if each of them does, and the second accesses nothing that the
    first has destroyed. -/
theorem usesLive_append {a b : List LifetimeEvent} :
    UsesLive (a ++ b) ↔ UsesLive a ∧ UsesLive b ∧ ∀ m, .destroyed m ∈ a → .access m ∉ b := by
  rw [UsesLive, List.pairwise_append, UsesLive, UsesLive]
  refine and_congr_right (fun _ => and_congr_right (fun _ => ?_))
  constructor
  · intro h m hm hacc
    exact absurd (h _ hm _ hacc) (by simp [LifetimeEvent.allows])
  · intro h e he f hf
    cases e with
    | access m => rfl
    | destroyed m =>
      cases f with
      | destroyed m' => rfl
      | access m' =>
        -- an access to the member that is gone is excluded by the hypothesis
        have hne : m ≠ m' := by
          rintro rfl
          exact h m he hf
        simpa [LifetimeEvent.allows] using hne

/-- A phase that destroys nothing. -/
theorem usesLive_of_accesses {a : List LifetimeEvent} (h : ∀ m, .destroyed m ∉ a) : UsesLive a := by
  apply List.pairwise_of_forall_mem_list
  intro e he f _
  cases e with
  | access m => rfl
  | destroyed m => exact absurd he (h m)

/-- A phase that accesses nothing. -/
theorem usesLive_of_destroyed (ms : List Member) : UsesLive (ms.map .destroyed) := by
  apply List.pairwise_of_forall_mem_list
  intro e _ f hf
  obtain ⟨m, _, rfl⟩ := List.mem_map.mp hf
  cases e <;> rfl

/-- Discarding an operation without a `Work` does nothing, and else it repeats `release_work`. -/
theorem mem_discardTrace {k : Nat} {e : LifetimeEvent} :
    e ∈ discardTrace k ↔ 0 < k ∧ e ∈ releaseTrace := by
  induction k with
  | zero => simp [discardTrace]
  | succ k ih =>
    rw [discardTrace, List.mem_append]
    constructor
    · rintro (he | he)
      · exact ⟨Nat.succ_pos k, he⟩
      · exact ⟨Nat.succ_pos k, (ih.mp he).2⟩
    · exact fun h => Or.inl h.2

/-- The events of a drained list: accesses to the list, and those of `release_work` if there is a
    `Work` to release. -/
theorem mem_drainTrace {list : Member} {works : AnyAsyncOperation → Nat}
    {ops : List AnyAsyncOperation} {e : LifetimeEvent} :
    e ∈ drainTrace list works ops ↔
      e = .access list ∨ ((∃ op ∈ ops, 0 < works op) ∧ e ∈ releaseTrace) := by
  induction ops with
  | nil => simp [drainTrace]
  | cons op ops ih =>
    rw [drainTrace, List.mem_cons, List.mem_append, mem_discardTrace]
    simp only [List.mem_cons, exists_eq_or_imp]
    constructor
    · rintro (he | ⟨hk, he⟩ | he)
      · -- the accesses of `drain_list` itself, of this operation's release, of the later ones'
        exact Or.inl he
      · exact Or.inr ⟨Or.inl hk, he⟩
      · exact (ih.mp he).imp id (And.imp Or.inr id)
    · rintro (he | ⟨hk | hk, he⟩)
      · exact Or.inl he
      · exact Or.inr (Or.inl ⟨hk, he⟩)
      · exact Or.inr (Or.inr (ih.mpr (Or.inr ⟨hk, he⟩)))

/-- **Four phases**, of accesses and destructions in turn. -/
theorem usesLive_phases {a b : List LifetimeEvent} (first last : List Member)
    (ha : ∀ m, .destroyed m ∉ a) (hb : ∀ m, .destroyed m ∉ b) :
    UsesLive (a ++ (first.map .destroyed ++ (b ++ last.map .destroyed))) ↔
      ∀ m ∈ first, .access m ∉ b := by
  rw [usesLive_append, usesLive_append, usesLive_append]
  constructor
  · rintro ⟨_, ⟨_, _, hfirst⟩, _⟩ m hm hacc
    exact hfirst m (List.mem_map_of_mem hm) (List.mem_append_left _ hacc)
  · intro h
    refine ⟨usesLive_of_accesses ha, ⟨usesLive_of_destroyed first, ⟨usesLive_of_accesses hb,
      usesLive_of_destroyed last, fun m hm => absurd hm (hb m)⟩, ?_⟩, fun m hm => absurd hm (ha m)⟩
    intro m hm hacc
    have hm' : m ∈ first := by simpa using hm
    rcases List.mem_append.mp hacc with hacc | hacc
    · exact h m hm' hacc
    · simp at hacc

/-- Draining a list destroys no member. -/
theorem destroyed_not_mem_drainTrace {list m : Member} {works : AnyAsyncOperation → Nat}
    {ops : List AnyAsyncOperation} : .destroyed m ∉ drainTrace list works ops := by
  rw [mem_drainTrace]
  simp [releaseTrace]

namespace ContextThread

variable {K : Type} {n : Nat} {s : ContextThread K n} {works : AnyAsyncOperation → Nat}

/-- What matters is only which members `~IoScheduler` accesses after the others are gone. -/
theorem usesLive_iff_scheduler (hlatched : s.worksLeft works ≤ s.remainingCount) :
    UsesLive (s.destructionTrace works) ↔
      ∀ m ∈ destroyedFirst, .access m ∉ s.schedulerTrace works := by
  have hbody : ∀ m, .destroyed m ∉ s.bodyTrace works := by
    simp [bodyTrace, destroyed_not_mem_drainTrace]
  have hscheduler : ∀ m, .destroyed m ∉ s.schedulerTrace works := by
    simp [schedulerTrace, destroyed_not_mem_drainTrace]
  rw [s.destructionTrace_eq hlatched, usesLive_phases _ _ hbody hscheduler]

/-- The `Work` of a pending operation notifies `cvar_`, the first member that is destroyed. -/
theorem not_usesLive_of_pending (hlatched : s.worksLeft works ≤ s.remainingCount)
    {op : AsyncIoOperation} (hop : op ∈ s.sched.io.operations) (hwork : 0 < works (.io op)) :
    ¬ UsesLive (s.destructionTrace works) := by
  rw [usesLive_iff_scheduler hlatched]
  intro h
  have hcvar : .access .cvar ∈ s.schedulerTrace works := by
    rw [schedulerTrace, List.mem_cons, mem_drainTrace]
    exact Or.inr (Or.inr ⟨⟨_, List.mem_map_of_mem hop, hwork⟩, by simp [releaseTrace]⟩)
  exact h .cvar (by decide) hcvar

/-- Without a pending operation `~IoScheduler` accesses two of its own members. -/
theorem usesLive_of_no_operations (hlatched : s.worksLeft works ≤ s.remainingCount)
    (hnil : s.sched.io.operations = []) : UsesLive (s.destructionTrace works) := by
  rw [usesLive_iff_scheduler hlatched]
  intro m hm hacc
  rw [schedulerTrace, hnil, List.map_nil, List.mem_cons, mem_drainTrace] at hacc
  have hmember : m = .epollFd ∨ m = .operations := by simpa using hacc
  rcases hmember with rfl | rfl
  · exact absurd hm (by decide)
  · exact absurd hm (by decide)

/-- The destruction of a context, in any state in which the operations own their `Work` and every
    `Work` has latched its unit, uses live members only if and only if the scheduler has no
    operation left, active or cancelled. -/
theorem destruction_usesLive_iff (s : ContextThread K n) {works : AnyAsyncOperation → Nat}
    (howns : ∀ op ∈ s.completionQueue ++ s.sched.io.operations.map .io, 0 < works op)
    (hlatched : s.worksLeft works ≤ s.remainingCount) :
    UsesLive (s.destructionTrace works) ↔ s.sched.io.operations = [] := by
  constructor
  · intro hlive
    by_contra hne
    obtain ⟨op, hop⟩ := List.exists_mem_of_ne_nil _ hne
    have hwork : 0 < works (.io op) :=
      howns _ (List.mem_append_right _ (List.mem_map_of_mem hop))
    exact not_usesLive_of_pending hlatched hop hwork hlive
  · exact usesLive_of_no_operations hlatched

/-- A context with a queued completion and nothing in its scheduler. -/
theorem destruction_usesLive_of_queued :
    UsesLive (destructionTrace { quietContext 1 with
      completionQueue := [.plain 7], remainingCount := 1 } (fun _ => 1)) := by
  rw [destruction_usesLive_iff _ (by simp) (by decide)]
  rfl

end ContextThread

/-! ### The states of runs -/

namespace Works

variable {K : Type} {n : Nat} {M : Kernel K} {s : Works K n}

/-- The active `Work` objects in the closure of an operation. -/
def worksIn (s : Works K n) (op : AnyAsyncOperation) : Nat :=
  s.works.countAt (WorkPlace.inside [op])

/-- The closures of different operations share no `Work`. -/
theorem sum_worksIn (s : Works K n) {ops : List AnyAsyncOperation} (h : ops.Nodup) :
    (ops.map s.worksIn).sum = s.works.countAt (WorkPlace.inside ops) := by
  induction ops with
  | nil =>
    have hnone : WorkPlace.inside (n := n) [] = fun _ => false := by
      funext p
      cases p <;> simp [WorkPlace.inside]
    rw [hnone, Tokens.countAt_false]
    rfl
  | cons op ops ih =>
    obtain ⟨hop, hops⟩ := List.nodup_cons.mp h
    -- the slots of one operation and of the others are disjoint
    have hsplit : s.works.countAt (WorkPlace.inside (op :: ops))
        = s.works.countAt (WorkPlace.inside [op]) + s.works.countAt (WorkPlace.inside ops) := by
      apply Tokens.countAt_or
      · intro p
        cases p <;> simp [WorkPlace.inside]
      · intro p hp
        cases p with
        | operation x i =>
          have hx : x = op := by simpa [WorkPlace.inside] using hp
          simpa [WorkPlace.inside, hx] using hop
        | object | temporary | frame => rfl
    rw [List.map_cons, List.sum_cons, ih hops, hsplit]
    rfl

/-- Every operation is left in one place, once. -/
theorem WorkInv.leftOver_nodup (h : s.WorkInv) : s.leftOver.Nodup := by
  have hplaced := h.place.placed
  have hdisj : (ContextThread.place s.ctx .queue).Disjoint (ContextThread.place s.ctx .scheduler) :=
    fun op hop => hplaced.not_mem (by simp) hop
  exact List.nodup_append'.mpr ⟨hplaced.nodup .queue, hplaced.nodup .scheduler, hdisj⟩

/-- An operation that is left was not released. -/
theorem WorkInv.leftOver_not_released (h : s.WorkInv) {op : AnyAsyncOperation}
    (hop : op ∈ s.leftOver) : op ∉ s.ctx.released := by
  have hplaced := h.place.placed
  rcases List.mem_append.mp hop with hop | hop
  · exact hplaced.not_mem (q := .consumed) (by simp) (p := .queue) hop
  · exact hplaced.not_mem (q := .consumed) (by simp) (p := .scheduler) hop

/-- What the destruction releases is counted. -/
theorem WorkInv.worksLeft_eq (h : s.WorkInv) :
    s.ctx.worksLeft s.worksIn = s.works.countAt (WorkPlace.inside s.leftOver) :=
  s.sum_worksIn h.leftOver_nodup

/-- The `Work`s that are left when the context is destroyed are counted, so that their releases do
    not fail the check. -/
theorem WorkInv.worksLeft_le (h : s.WorkInv) :
    s.ctx.worksLeft s.worksIn ≤ s.ctx.remainingCount := by
  have hsplit := s.works.count_discard (WorkPlace.inside s.leftOver)
  rw [h.worksLeft_eq, h.count]
  omega

/-- **Destructions in runs**: if the operations that are left were made with `wrap_work`, they own
    their `Work`, and the releases find their units. -/
theorem destruction_of_reach (h : Reach M s) (hmade : ∀ op ∈ s.leftOver, op ∈ s.made) :
    (∀ op ∈ s.leftOver, 0 < s.worksIn op) ∧
      s.ctx.worksLeft s.worksIn ≤ s.ctx.remainingCount := by
  have hinv := reach_workInv h
  refine ⟨?_, hinv.worksLeft_le⟩
  intro op hop
  have hactive : .operation op 0 ∈ s.works.active :=
    hinv.stored op (hmade op hop) (hinv.leftOver_not_released hop)
  apply Finset.card_pos.mpr
  exact ⟨_, Finset.mem_filter.mpr ⟨hactive, by simp [WorkPlace.inside]⟩⟩

/-- **The destructor and the step `destroy`** of a run agree on the count. -/
theorem destructor_destroy (h : s.WorkInv) :
    ∃ u, s.ctx.destructor s.worksIn ⟨[], s.ctx.remainingCount⟩ = .ok () u ∧
      releaseAll (s.works.countAt (WorkPlace.inside s.leftOver)) s.ctx.destroy.remainingCount
        = .ok u.remainingCount := by
  have hrun := s.ctx.destructor_performs s.worksIn ⟨[], s.ctx.remainingCount⟩ h.worksLeft_le
  have hcount : releaseAll (s.works.countAt (WorkPlace.inside s.leftOver)) s.ctx.remainingCount
      = .ok (s.ctx.remainingCount - s.ctx.worksLeft s.worksIn) := by
    rw [← h.worksLeft_eq]
    exact releaseAll_eq h.worksLeft_le
  exact ⟨_, hrun, hcount⟩

/-- A thread starts a read. -/
def startRead (t : Fin n) : List (WorkAct Unit n) :=
  [.wrapWork t, .makeAsyncOperation t (.io ⟨1, 5, .ioRead⟩),
    .ctx (.thread t (.schedule ⟨1, 5, .ioRead⟩)), .ctx (.thread t .callNotify)]

/-- The destruction of a context with a pending read accesses destroyed members. -/
theorem destruction_of_pending_read :
    ∃ s : Works Unit 1, Reach quietKernel s ∧
      (s.next quietKernel (.ctx .destroy)).isSome = true ∧
      s.leftOver = [.io ⟨1, 5, .ioRead⟩] ∧ (∀ op ∈ s.leftOver, 0 < s.worksIn op) ∧
      s.ctx.worksLeft s.worksIn ≤ s.ctx.remainingCount ∧
      ¬ UsesLive (s.ctx.destructionTrace s.worksIn) := by
  have hrun : ∃ s : Works Unit 1, Reach quietKernel s ∧
      decide ((s.next quietKernel (.ctx .destroy)).isSome = true ∧
        s.leftOver = [.io ⟨1, 5, .ioRead⟩] ∧ s.made = [.io ⟨1, 5, .ioRead⟩] ∧
        ⟨1, 5, .ioRead⟩ ∈ s.ctx.sched.io.operations) = true :=
    Transition.exists_reach (quietWorks_init 1) (startRead 0) _ (by decide)
  obtain ⟨s, hs, hp⟩ := hrun
  obtain ⟨hdestroy, hleft, hmade, hpending⟩ := of_decide_eq_true hp
  obtain ⟨howns, hlatched⟩ := destruction_of_reach hs (by rw [hleft, hmade]; exact fun _ h => h)
  have hwork : 0 < s.worksIn (.io ⟨1, 5, .ioRead⟩) := howns _ (by rw [hleft]; simp)
  exact ⟨s, hs, hdestroy, hleft, howns, hlatched,
    ContextThread.not_usesLive_of_pending hlatched hpending hwork⟩

end Works

end Exios
