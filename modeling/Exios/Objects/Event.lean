import Exios.Scheduler.Attempts
import Mathlib.Algebra.BigOperators.Group.List.Basic

namespace Exios

/-!
# Event — an eventfd shared by triggers and waits

`Event` starts two kinds of operations on one descriptor: `trigger` and `trigger_with_value`
write to the eventfd, `wait_for_event` reads from it.  Any number of both may be pending; each
may be deferred, completed or cancelled.

* `EventFd` — the eventfd, as `eventfd(2)` documents it, with the calls that moved its counter;
* `eventKernel` — a kernel in which one descriptor is the eventfd, and all others are those of
  any other kernel;
* `event_conserved` — what completed triggers wrote is what completed waits read, plus the
  counter; an operation without an `Ok` result has not moved the counter.
-/

/-- `EINVAL`. -/
def EINVAL : Nat := 22

/-- An eventfd. -/
structure EventFd where
  counter : Nat
  /-- Created with `EFD_SEMAPHORE`. -/
  semaphore : Bool
  /-- The operations whose calls moved the counter, and by how much, oldest first. -/
  ledger : List (AsyncIoOperation × Int)
deriving DecidableEq

namespace EventFd

/-- The largest value of the counter, `0xfffffffffffffffe`. -/
def maxCounter : Nat := 2 ^ 64 - 2

/-- `eventfd(0, flags)`. -/
def init (semaphore : Bool) : EventFd := ⟨0, semaphore, []⟩

/-- A call of `op` moved the counter. -/
def move (e : EventFd) (op : AsyncIoOperation) (counter : Nat) : EventFd :=
  { e with counter := counter, ledger := e.ledger ++ [(op, (counter : Int) - e.counter)] }

/-- `read`. -/
def read (e : EventFd) (op : AsyncIoOperation) : SysOutcome × EventFd :=
  if e.counter = 0 then (⟨.error EAGAIN, 0⟩, e)
  else if e.semaphore then (⟨.ok 8, 1⟩, e.move op (e.counter - 1))
  else (⟨.ok 8, e.counter⟩, e.move op 0)

/-- `write` of the value `v`. -/
def write (e : EventFd) (op : AsyncIoOperation) (v : UInt64) : SysOutcome × EventFd :=
  if v.toNat = 2 ^ 64 - 1 then (⟨.error EINVAL, 0⟩, e)
  else if maxCounter < e.counter + v.toNat then (⟨.error EAGAIN, 0⟩, e)
  else (⟨.ok 8, 0⟩, e.move op (e.counter + v.toNat))

end EventFd

/-! ### The members of `Event` -/

namespace Event

/-- The operation of `trigger` and `trigger_with_value`. -/
def triggerOperation (fd : Int) (addr : Nat) : AsyncIoOperation := ⟨addr, fd, .eventWrite⟩

/-- The operation of `wait_for_event`. -/
def waitOperation (fd : Int) (addr : Nat) : AsyncIoOperation := ⟨addr, fd, .timerExpiryOrEvent⟩

/-- The value that `EventWrite::io` writes: `value_to_write_`, or 1 when there is none. -/
def valueWritten (valueToWrite : AsyncIoOperation → Option UInt64) (op : AsyncIoOperation) : UInt64 :=
  (valueToWrite op).getD 1

end Event

/-- The eventfd under the number `fd`; the other descriptors are those of `M`.  `valueToWrite`
    gives `value_to_write_` of each trigger: none for `trigger`, the value for
    `trigger_with_value`. -/
def eventKernel {K : Type} (fd : Int) (valueToWrite : AsyncIoOperation → Option UInt64)
    (M : Kernel K) : Kernel (EventFd × K) where
  syscall := fun op k =>
    if op.fd = fd then
      match op.kind with
      | .timerExpiryOrEvent => ((k.1.read op).1, (k.1.read op).2, k.2)
      | .eventWrite =>
        ((k.1.write op (Event.valueWritten valueToWrite op)).1,
          (k.1.write op (Event.valueWritten valueToWrite op)).2, k.2)
      | _ => (⟨.error EINVAL, 0⟩, k)
    else ((M.syscall op k.2).1, k.1, (M.syscall op k.2).2)
  isOpen := fun k n => decide (n = fd) || M.isOpen k.2 n

/-! ### Sums over operations -/

/-- Changing the value of one element that counted for nothing. -/
theorem sum_map_of_update {α : Type*} [DecidableEq α] {xs : List α} (hnd : xs.Nodup) {x : α}
    (hx : x ∈ xs) {f g : α → Nat} (hother : ∀ y, y ≠ x → g y = f y) (hzero : f x = 0) :
    (xs.map g).sum = (xs.map f).sum + g x := by
  have hrest : (xs.erase x).map g = (xs.erase x).map f :=
    List.map_congr_left (fun y hy => hother y (hnd.mem_erase_iff.mp hy).1)
  rw [← List.sum_map_erase g hx, ← List.sum_map_erase f hx, hrest, hzero]
  omega

namespace Event

variable {fd : Int} {valueToWrite : AsyncIoOperation → Option UInt64}

/-- What a trigger has contributed, by its recorded result. -/
def contribution (fd : Int) (valueToWrite : AsyncIoOperation → Option UInt64)
    (state : AsyncIoOperation → OpState) (op : AsyncIoOperation) : Nat :=
  if op.fd = fd ∧ op.kind = .eventWrite then
    match (state op).result with
    | some (.ok _) => (valueWritten valueToWrite op).toNat
    | _ => 0
  else 0

/-- What a wait has consumed, by its recorded result. -/
def consumption (fd : Int) (state : AsyncIoOperation → OpState) (op : AsyncIoOperation) : Nat :=
  if op.fd = fd ∧ op.kind = .timerExpiryOrEvent then
    match (state op).result with
    | some (.ok (.counter v)) => v
    | _ => 0
  else 0

/-- The invariant: the recorded results balance the counter, and whatever moved the counter has
    an `Ok` result. -/
structure Balanced (fd : Int) (valueToWrite : AsyncIoOperation → Option UInt64)
    (ops : List AsyncIoOperation) (state : AsyncIoOperation → OpState) (e : EventFd) : Prop where
  law : (ops.map (contribution fd valueToWrite state)).sum
    = (ops.map (consumption fd state)).sum + e.counter
  ledger : ∀ p ∈ e.ledger, ∃ v, (state p.1).result = some (.ok v)
  total : (e.counter : Int) = (e.ledger.map Prod.snd).sum

/-- An operation without an `Ok` result counts for nothing. -/
theorem not_counted {state : AsyncIoOperation → OpState} {op : AsyncIoOperation}
    (h : ∀ v, (state op).result ≠ some (.ok v)) :
    contribution fd valueToWrite state op = 0 ∧ consumption fd state op = 0 := by
  unfold contribution consumption
  constructor
  · -- only a success counts, for the writes as for the reads
    split
    · split
      · rename_i v hv
        exact absurd hv (h v)
      · rfl
    · rfl
  · split
    · split
      · rename_i v hv
        exact absurd hv (h _)
      · rfl
    · rfl

variable {ops : List AsyncIoOperation} {state state' : AsyncIoOperation → OpState} {e : EventFd}

/-- Operations that had no result and got no `Ok` result do not matter. -/
theorem Balanced.keep (h : Balanced fd valueToWrite ops state e)
    (hstate : ∀ op, state' op = state op ∨
      (∀ v, (state op).result ≠ some (.ok v)) ∧ ∀ v, (state' op).result ≠ some (.ok v)) :
    Balanced fd valueToWrite ops state' e := by
  have hsame : ∀ op, contribution fd valueToWrite state' op = contribution fd valueToWrite state op ∧
      consumption fd state' op = consumption fd state op := by
    intro op
    -- an operation counts by its result alone
    rcases hstate op with heq | ⟨hold, hnew⟩
    · unfold contribution consumption
      rw [heq]
      exact ⟨rfl, rfl⟩
    · have hzero : contribution fd valueToWrite state op = 0 ∧ consumption fd state op = 0 :=
        not_counted hold
      have hzero' : contribution fd valueToWrite state' op = 0 ∧ consumption fd state' op = 0 :=
        not_counted hnew
      exact ⟨hzero'.1.trans hzero.1.symm, hzero'.2.trans hzero.2.symm⟩
  refine ⟨?_, ?_, h.total⟩
  · have hcontr : contribution fd valueToWrite state' = contribution fd valueToWrite state :=
      funext (fun op => (hsame op).1)
    have hcons : consumption fd state' = consumption fd state := funext (fun op => (hsame op).2)
    rw [hcontr, hcons]
    exact h.law
  · intro p hp
    obtain ⟨v, hv⟩ := h.ledger p hp
    rcases hstate p.1 with heq | ⟨hold, -⟩
    · exact ⟨v, by rw [heq]; exact hv⟩
    · exact absurd hv (hold v)

/-- An operation on another descriptor got a result. -/
theorem Balanced.elsewhere (h : Balanced fd valueToWrite ops state e) {op : AsyncIoOperation}
    (hfd : op.fd ≠ fd) (hunset : ∀ v, (state op).result ≠ some (.ok v)) {new : OpState} :
    Balanced fd valueToWrite ops (Function.update state op new) e := by
  have hcontr : contribution fd valueToWrite (Function.update state op new)
      = contribution fd valueToWrite state := by
    funext x
    by_cases hx : x = op
    · simp [contribution, hx, hfd]
    · simp [contribution, Function.update_of_ne hx]
  have hcons : consumption fd (Function.update state op new) = consumption fd state := by
    funext x
    by_cases hx : x = op
    · simp [consumption, hx, hfd]
    · simp [consumption, Function.update_of_ne hx]
  refine ⟨by rw [hcontr, hcons]; exact h.law, fun p hp => ?_, h.total⟩
  obtain ⟨v, hv⟩ := h.ledger p hp
  -- the ledger has successful operations, and `op` is none yet
  have hne : p.1 ≠ op := fun heq => hunset v (heq ▸ hv)
  exact ⟨v, by rw [Function.update_of_ne hne]; exact hv⟩

/-- A new operation has no result yet. -/
theorem Balanced.append (h : Balanced fd valueToWrite ops state e) {op : AsyncIoOperation}
    (hfresh : state op = .fresh) : Balanced fd valueToWrite (ops ++ [op]) state e := by
  have hzero : contribution fd valueToWrite state op = 0 ∧ consumption fd state op = 0 :=
    not_counted (by rw [hfresh]; simp [OpState.fresh])
  refine ⟨?_, h.ledger, h.total⟩
  rw [List.map_append, List.map_append, List.sum_append, List.sum_append, h.law]
  simp [hzero.1, hzero.2]

/-- An operation completes with an `Ok` result, and its call moved the counter by what the
    result records. -/
theorem Balanced.move (h : Balanced fd valueToWrite ops state e) (hnd : ops.Nodup)
    {op : AsyncIoOperation} (hop : op ∈ ops) (hfresh : state op = .fresh) {v : IoValue}
    {counter : Nat}
    (hmoved : counter + consumption fd (Function.update state op ⟨false, some (.ok v)⟩) op
      = e.counter
        + contribution fd valueToWrite (Function.update state op ⟨false, some (.ok v)⟩) op) :
    Balanced fd valueToWrite ops (Function.update state op ⟨false, some (.ok v)⟩)
      (e.move op counter) := by
  have hzero : contribution fd valueToWrite state op = 0 ∧ consumption fd state op = 0 :=
    not_counted (by rw [hfresh]; simp [OpState.fresh])
  -- the sums change by what the operation's new result counts for
  have hcontr := sum_map_of_update hnd hop
    (f := contribution fd valueToWrite state)
    (g := contribution fd valueToWrite (Function.update state op ⟨false, some (.ok v)⟩))
    (fun y hy => by unfold contribution; rw [Function.update_of_ne hy]) hzero.1
  have hcons := sum_map_of_update hnd hop
    (f := consumption fd state)
    (g := consumption fd (Function.update state op ⟨false, some (.ok v)⟩))
    (fun y hy => by unfold consumption; rw [Function.update_of_ne hy]) hzero.2
  refine ⟨?_, ?_, ?_⟩
  · have hlaw := h.law
    show _ = _ + counter
    rw [hcontr, hcons, hlaw]
    omega
  · intro p hp
    rcases List.mem_append.mp hp with hp | hp
    · obtain ⟨w, hw⟩ := h.ledger p hp
      have hne : p.1 ≠ op := by
        intro heq
        rw [heq, hfresh] at hw
        exact absurd hw (by simp [OpState.fresh])
      exact ⟨w, by rw [Function.update_of_ne hne]; exact hw⟩
    · rw [List.mem_singleton] at hp
      subst hp
      exact ⟨v, by rw [Function.update_self]⟩
  · show (counter : Int) = ((e.ledger ++ [(op, (counter : Int) - e.counter)]).map Prod.snd).sum
    rw [List.map_append, List.sum_append, ← h.total]
    simp

/-! ### One call -/

variable {K : Type} {M : Kernel K}

/-- `op` is one of `Event`'s, if it is on the descriptor at all. -/
def Member (fd : Int) (op : AsyncIoOperation) : Prop :=
  op.fd = fd → op = triggerOperation fd op.addr ∨ op = waitOperation fd op.addr

instance (fd : Int) (op : AsyncIoOperation) : Decidable (Member fd op) :=
  inferInstanceAs (Decidable (_ → _))

/-- What a call does to the eventfd: nothing, unless it completes its operation with an `Ok`
    result; then the counter moves by what the result counts for. -/
structure CallSpec (fd : Int) (valueToWrite : AsyncIoOperation → Option UInt64)
    (op : AsyncIoOperation) (e e' : EventFd) (result : Except Contract (Bool × Option IoResult)) :
    Prop where
  keeps : (∀ v, result ≠ .ok (true, some (.ok v))) → e' = e
  moves : ∀ v, result = .ok (true, some (.ok v)) → op.fd = fd →
    ∃ counter, e' = e.move op counter ∧ ∀ state : AsyncIoOperation → OpState,
      (state op).result = some (.ok v) →
      counter + consumption fd state op = e.counter + contribution fd valueToWrite state op
  elsewhere : op.fd ≠ fd → e' = e

/-- Every call on the eventfd meets its specification. -/
theorem call_spec {op : AsyncIoOperation} (hop : Member fd op) (k : EventFd × K) :
    CallSpec fd valueToWrite op k.1 ((eventKernel fd valueToWrite M).syscall op k).2.1
      (io op.kind ((eventKernel fd valueToWrite M).syscall op k).1 none) := by
  by_cases hfd : op.fd = fd
  · rcases hop hfd with hop | hop
    · -- a trigger
      have hkind : op.kind = .eventWrite := by rw [hop]; rfl
      simp only [eventKernel, if_pos hfd, hkind, EventFd.write]
      split
      · exact ⟨fun _ => rfl, fun v h => by simp [io, EventWrite.io, checkedIo, EINVAL, isPending,
          EAGAIN, EINPROGRESS] at h, fun h => absurd hfd h⟩
      · split
        · exact ⟨fun _ => rfl, fun v h => by simp [io, EventWrite.io, checkedIo, isPending] at h,
            fun h => absurd hfd h⟩
        · refine ⟨fun h => absurd rfl (h (.size 8)), fun v h _ => ?_, fun h => absurd hfd h⟩
          refine ⟨_, rfl, fun state hstate => ?_⟩
          simp [contribution, consumption, hfd, hkind, hstate]
    · -- a wait
      have hkind : op.kind = .timerExpiryOrEvent := by rw [hop]; rfl
      simp only [eventKernel, if_pos hfd, hkind, EventFd.read]
      split
      · exact ⟨fun _ => rfl,
          fun v h => by simp [io, TimerExpiryOrEvent.io, checkedIo, isPending] at h,
          fun h => absurd hfd h⟩
      · rename_i hpos
        split
        · refine ⟨fun h => absurd rfl (h (.counter 1)), fun v h _ => ?_, fun h => absurd hfd h⟩
          simp only [io, TimerExpiryOrEvent.io, checkedIo, Option.isSome_none, Bool.false_eq_true,
            if_false, Except.ok.injEq, Prod.mk.injEq, true_and, Option.some.injEq] at h
          refine ⟨_, rfl, fun state hstate => ?_⟩
          simp only [contribution, consumption, hfd, hkind, hstate, ← h]
          simp only [true_and, reduceCtorEq, if_false, and_self, if_true]
          omega
        · refine ⟨fun h => absurd rfl (h (.counter k.1.counter)), fun v h _ => ?_,
            fun h => absurd hfd h⟩
          simp only [io, TimerExpiryOrEvent.io, checkedIo, Option.isSome_none, Bool.false_eq_true,
            if_false, Except.ok.injEq, Prod.mk.injEq, true_and, Option.some.injEq] at h
          refine ⟨_, rfl, fun state hstate => ?_⟩
          simp [contribution, consumption, hfd, hkind, hstate, ← h]
  · -- the call is the other kernel's
    simp only [eventKernel, if_neg hfd]
    exact ⟨fun _ => rfl, fun _ _ h => absurd h hfd, fun _ => rfl⟩

/-- A round of the loop keeps the balance. -/
theorem Balanced.item {mask : Events} {item : AsyncIoOperation}
    {st st' : IoScheduler.Notify (EventFd × K)} (hnd : ops.Nodup) (hmem : item ∈ ops)
    (hop : Member fd item) (hfresh : st.sched.state item = .fresh)
    (h : Balanced fd valueToWrite ops st.sched.state st.kernel.1)
    (hstep : IoScheduler.ItemStep (eventKernel fd valueToWrite M) mask item st st') :
    Balanced fd valueToWrite ops st'.sched.state st'.kernel.1 := by
  have hcall : CallSpec fd valueToWrite item _ _ _ := call_spec (M := M) hop st.kernel
  have hunset : ∀ v, (st.sched.state item).result ≠ some (.ok v) := by
    rw [hfresh]
    simp [OpState.fresh]
  cases hstep with
  | skipped => exact h
  | pending hsel hio =>
    have hsame := hcall.keeps (fun v hv => by simp [hio] at hv)
    show Balanced _ _ _ st.sched.state ((eventKernel fd valueToWrite M).syscall item st.kernel).2.1
    rw [hsame]
    -- a call without a value leaves the counter
    exact h
  | @stored r tw hsel hio =>
    show Balanced _ _ _ (Function.update st.sched.state item ⟨false, some r⟩)
      ((eventKernel fd valueToWrite M).syscall item st.kernel).2.1
    cases r with
    | error e =>
      -- an error counts nothing
      have hsame := hcall.keeps (fun v hv => by simp [hio] at hv)
      rw [hsame]
      refine h.keep (fun op => ?_)
      by_cases hne : op = item
      · subst hne
        exact Or.inr ⟨hunset, by rw [Function.update_self]; simp⟩
      · exact Or.inl (Function.update_of_ne hne _ _)
    | ok v =>
      -- a value on the event's descriptor moves the counter by just that much
      by_cases hfd : item.fd = fd
      · obtain ⟨counter, hmove, hcount⟩ := hcall.moves v hio hfd
        rw [hmove]
        exact h.move hnd hmem hfresh (hcount _ (by rw [Function.update_self]))
      · rw [hcall.elsewhere hfd]
        exact h.elsewhere hfd hunset

/-! ### Runs -/

/-- The steps of a run on one open `Event`: on its descriptor, triggers and waits are scheduled;
    nobody else writes to the eventfd.  Cancellations, polls and whatever happens on other
    descriptors are unrestricted. -/
def OneEvent (fd : Int) (s : Sched (EventFd × K)) : SchedAct (EventFd × K) → Prop
  | .schedule op => Member fd op
  | .kernel k => k.1 = s.kernel.1
  | _ => True

/-- The run starts with a constructed `Event`. -/
def Start (semaphore : Bool) (s : Sched (EventFd × K)) : Prop :=
  ∃ wakeFd k, s = ⟨IoScheduler.init wakeFd, (EventFd.init semaphore, k), [], [], [], []⟩

/-- States reached by runs on one open `Event`. -/
def Reach (fd : Int) (valueToWrite : AsyncIoOperation → Option UInt64) (M : Kernel K)
    (semaphore : Bool) : Sched (EventFd × K) → Prop :=
  Transition.Reach (Start semaphore) (Sched.step (eventKernel fd valueToWrite M)) (OneEvent fd)

/-- The invariant of a run. -/
structure Inv (fd : Int) (valueToWrite : AsyncIoOperation → Option UInt64)
    (s : Sched (EventFd × K)) : Prop where
  sched : s.Inv
  members : ∀ op ∈ s.scheduled, Member fd op
  balanced : Balanced fd valueToWrite s.scheduled s.io.state s.kernel.1

theorem start_inv {semaphore : Bool} {s : Sched (EventFd × K)} (h : Start semaphore s) :
    Inv fd valueToWrite s := by
  obtain ⟨wakeFd, k, rfl⟩ := h
  exact ⟨Sched.init_inv ⟨wakeFd, _, rfl⟩, by simp, ⟨rfl, by simp [EventFd.init], rfl⟩⟩

/-- Scheduling changes neither the results nor the counter. -/
theorem schedule_balanced {s s' : Sched (EventFd × K)} (h : Inv fd valueToWrite s)
    {op : AsyncIoOperation} (hnew : op ∉ s.scheduled)
    (hs : s.schedule (eventKernel fd valueToWrite M) op = .ok s') :
    Balanced fd valueToWrite s'.scheduled s'.io.state s'.kernel.1 := by
  obtain ⟨io, hio, rfl⟩ := Sched.schedule_cases hs
  have hstate : io.state = s.io.state := (IoScheduler.schedule_perm h.sched.rep hio).2
  show Balanced _ _ (s.scheduled ++ [op]) io.state s.kernel.1
  rw [hstate]
  exact h.balanced.append (h.sched.unscheduled op hnew)

/-- A cancellation gives operations a result that counts nothing. -/
theorem cancel_balanced {s s' : Sched (EventFd × K)} (h : Inv fd valueToWrite s) {fuel : Nat}
    {n : Int} {found : Bool}
    (hs : s.cancel (eventKernel fd valueToWrite M) fuel n = some (.ok (s', found))) :
    Balanced fd valueToWrite s'.scheduled s'.io.state s'.kernel.1 := by
  have hinv' := Sched.cancel_inv h.sched hs
  obtain ⟨io, hio, rfl⟩ := Sched.cancel_cases hs
  have hspec := (IoScheduler.cancelSection_spec h.sched.rep hio).2
  refine h.balanced.keep (fun op => ?_)
  by_cases hon : op ∈ s.io.activeOn n
  · -- it had no result, and its result is now that of the cancellation
    have hold := h.sched.rep.active op (List.mem_filter.mp hon).1
    have hnew := (hinv'.struck_iff op).mp (List.mem_append_right _ hon)
    refine Or.inr ⟨by rw [hold]; simp [OpState.fresh], fun v hv => ?_⟩
    rw [hv, Option.some.injEq] at hnew
    exact ok_ne_cancelledResult v hnew
  · exact Or.inl (hspec.others op hon)

/-- What the second section of `poll_once` reads and writes is what its operations report. -/
theorem pollNotifications_balanced {s s' : Sched (EventFd × K)} (h : Inv fd valueToWrite s)
    {tw : Nat} {events : List EpollEvent} {n : IoScheduler.Notify (EventFd × K)}
    (hs : s.pollNotifications (eventKernel fd valueToWrite M) tw events = .ok (s', n)) :
    Balanced fd valueToWrite s'.scheduled s'.io.state s'.kernel.1 := by
  obtain ⟨st, done, hst, -, rfl, rfl⟩ := Sched.pollNotifications_cases h.sched hs
  refine (IoScheduler.processNotifications_items
    (fun t : IoScheduler.Notify (EventFd × K) => (∀ x ∈ t.sched.operations, x ∈ s.scheduled) ∧
      Balanced fd valueToWrite s.scheduled t.sched.state t.kernel.1)
    -- an item that got no result leaves the sums alone, a completed one moves both
    ?_ ?_ events (h.sched.rep.start s.kernel)
    ⟨fun x hx => h.sched.mem_operations hx, h.balanced⟩ hst).2
  · rintro mask item t t' hfresh hmem ⟨hsub, hbal⟩ hstep
    refine ⟨?_, hbal.item h.sched.nodup (hsub item hmem) (h.members item (hsub item hmem)) hfresh
      hstep⟩
    cases hstep with
    | skipped | pending => exact hsub
    | stored => exact fun x hx => hsub x (List.mem_of_mem_erase hx)
  · -- the registrations do not touch the counter
    rintro t reg w total hP
    exact hP

/-- **The step lemma** for the counter. -/
theorem step_inv {s s' : Sched (EventFd × K)} (h : Inv fd valueToWrite s)
    {a : SchedAct (EventFd × K)} (hok : OneEvent fd s a)
    (hs : Sched.step (eventKernel fd valueToWrite M) s a = some s') : Inv fd valueToWrite s' := by
  have hinv' := Sched.step_inv h.sched hs
  cases a with
  | schedule op =>
    obtain ⟨hnew, hs⟩ := Sched.step_schedule.mp hs
    refine ⟨hinv', ?_, schedule_balanced h hnew hs⟩
    obtain ⟨io, -, rfl⟩ := Sched.schedule_cases hs
    intro x hx
    -- the new operation is one of the event's, by the condition on the step
    rcases List.mem_append.mp hx with hx | hx
    · exact h.members x hx
    · exact List.mem_singleton.mp hx ▸ hok
  | cancel n fuel =>
    obtain ⟨found, hs⟩ := Sched.step_cancel.mp hs
    refine ⟨hinv', ?_, cancel_balanced h hs⟩
    obtain ⟨io, -, rfl⟩ := Sched.cancel_cases hs
    exact h.members
  | pollCancellations tw =>
    obtain ⟨p, hs⟩ := Sched.step_pollCancellations.mp hs
    obtain ⟨w, rfl⟩ := Sched.pollCancellations_cases h.sched hs
    exact ⟨hinv', h.members, h.balanced⟩
  | pollNotifications events tw =>
    obtain ⟨n, hs⟩ := Sched.step_pollNotifications.mp hs
    refine ⟨hinv', ?_, pollNotifications_balanced h hs⟩
    rw [(Sched.pollNotifications_extends h.sched hs).2.2]
    exact h.members
  | wake tw =>
    rw [Sched.step, Option.some.injEq] at hs
    subst hs
    exact ⟨hinv', h.members, h.balanced⟩
  | kernel k =>
    rw [Sched.step, Option.some.injEq] at hs
    subst hs
    -- other kernel steps leave the event's file alone
    refine ⟨hinv', h.members, ?_⟩
    show Balanced _ _ _ _ k.1
    rw [show k.1 = s.kernel.1 from hok]
    exact h.balanced
  | forget n =>
    rw [Sched.step, Option.some.injEq] at hs
    subst hs
    exact ⟨hinv', h.members, h.balanced⟩

/-- **No value is lost or delivered twice.**  In every run on one open `Event`, in either mode,
    the values of the triggers that completed are those of the waits that completed, plus the
    counter.  What has moved the counter has completed with success: a cancelled wait consumed
    nothing, a cancelled or failed trigger contributed nothing. -/
theorem event_conserved {semaphore : Bool} {s : Sched (EventFd × K)}
    (h : Reach fd valueToWrite M semaphore s) :
    (s.scheduled.map (contribution fd valueToWrite s.io.state)).sum
        = (s.scheduled.map (consumption fd s.io.state)).sum + s.kernel.1.counter ∧
      (s.kernel.1.counter : Int) = (s.kernel.1.ledger.map Prod.snd).sum ∧
      ∀ op : AsyncIoOperation, (∀ v, (s.io.state op).result ≠ some (.ok v)) →
        op ∉ s.kernel.1.ledger.map Prod.fst := by
  have hinv : Inv fd valueToWrite s :=
    Transition.Reach.invariant (Inv fd valueToWrite) (fun _ => start_inv)
      (fun _ _ _ hi hok hs => step_inv hi hok hs) h
  -- the ledger names only operations that succeeded
  refine ⟨hinv.balanced.law, hinv.balanced.total, fun op hop hmem => ?_⟩
  obtain ⟨p, hp, rfl⟩ := List.mem_map.mp hmem
  obtain ⟨v, hv⟩ := hinv.balanced.ledger p hp
  exact hop v hv

instance (fd : Int) (s : Sched (EventFd × Unit)) (a : SchedAct (EventFd × Unit)) :
    Decidable (OneEvent fd s a) :=
  match a with
  | .schedule op => inferInstanceAs (Decidable (Member fd op))
  | .kernel k => inferInstanceAs (Decidable (k.1 = s.kernel.1))
  | .cancel _ _ => isTrue trivial
  | .pollCancellations _ => isTrue trivial
  | .pollNotifications _ _ => isTrue trivial
  | .wake _ => isTrue trivial
  | .forget _ => isTrue trivial

/-- In semaphore mode, the value 3 is triggered, two waits get 1 each and the third is
    cancelled: 1 is left. -/
theorem event_conserved_semaphore :
    ∃ s : Sched (EventFd × Unit), s.scheduled.length = 4 ∧ s.kernel.1.counter = 1 ∧
      (s.scheduled.map (contribution 5 (fun _ => some 3) s.io.state)).sum
        = (s.scheduled.map (consumption 5 s.io.state)).sum + 1 ∧
      waitOperation 5 4 ∉ s.kernel.1.ledger.map Prod.fst := by
  have hrun : ∃ s, Reach 5 (fun _ => some 3) quietKernel true s ∧
      decide (s.scheduled.length = 4 ∧ s.kernel.1.counter = 1 ∧
        (s.io.state (waitOperation 5 4)).result = some cancelledResult) = true :=
    Transition.exists_reach ⟨0, (), rfl⟩
      [.schedule (triggerOperation 5 1), .schedule (waitOperation 5 2),
        .schedule (waitOperation 5 3), .pollNotifications [⟨5, EPOLLOUT⟩, ⟨5, EPOLLIN⟩] 0,
        .schedule (waitOperation 5 4), .cancel 5 2] _ (by decide)
  obtain ⟨s, hs, hend⟩ := hrun
  obtain ⟨hlen, hcounter, hcancelled⟩ := of_decide_eq_true hend
  have hlaw := event_conserved hs
  refine ⟨s, hlen, hcounter, by rw [← hcounter]; exact hlaw.1, hlaw.2.2 _ (fun v hv => ?_)⟩
  rw [hcancelled, Option.some.injEq] at hv
  exact ok_ne_cancelledResult v hv.symm

end Event

end Exios
