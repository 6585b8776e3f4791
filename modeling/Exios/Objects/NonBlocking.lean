import Exios.Objects.Generations
import Exios.Scheduler.Readiness

namespace Exios

/-!
# I/O objects — calls that cannot block

`perform_io` runs under the scheduler's mutex.  A call cannot block when it passes
`MSG_DONTWAIT` or its descriptor is in non-blocking mode.  Every constructor asks for
non-blocking mode; `::accept` does not.

* `CannotBlock` — the property of a `perform_io` call;
* `AvoidsAccepted` — the condition on a step: no notification phase tries an operation that may
  wait on a descriptor from `::accept`, or on a closed number that `::accept` may be handed in the
  same phase;
* `calls_cannot_block` — in runs of such steps no call can block;
* `accepted_read_may_block` — a read on an accepted socket may.
-/

/-- Every constructor of an I/O object asks for non-blocking mode. -/
theorem ObjectCtor.flags_nonblocking (ctor : ObjectCtor) :
    decide (ctor.flags &&& O_NONBLOCK ≠ 0) = true := by
  cases ctor <;> decide

namespace Files

/-- Descriptors that did not come from `::accept` are in non-blocking mode. -/
def ModeInv (k : Files) : Prop :=
  ∀ n f, k.file n = some f → f.accepted = true ∨ f.nonblocking = true

theorem acquire_modeInv {k : Files} (h : k.ModeInv) (n : Int) (ctor : ObjectCtor) :
    (k.acquire n ctor.flags false).ModeInv := by
  intro m f hf
  simp only [acquire, Function.update_apply] at hf
  split at hf
  · rw [← Option.some.inj hf]
    exact Or.inr ctor.flags_nonblocking
  · exact h m f hf

/-- What is open after some system calls was open before them, or was accepted under one of the
    numbers that were free. -/
theorem moves_file {k k' : Files} (h : IoScheduler.Moves filesKernel k k') :
    (∀ m ∈ k'.numbers, m ∈ k.numbers) ∧
      ∀ n f, k'.file n = some f → k.file n = some f ∨
        f.accepted = true ∧ ∃ m ∈ k.numbers, (m : Int) = n ∧ k.isOpen n = false := by
  induction h with
  | refl => exact ⟨fun _ hm => hm, fun _ _ hf => Or.inl hf⟩
  | @tail k₁ k₂ hmoves hstep ih =>
    obtain ⟨op, rfl⟩ := hstep
    obtain ⟨hnum, hfile⟩ := ih
    rcases syscall_file op k₁ with ⟨hf₂, hn₂⟩ | ⟨m, rest, hm, hfree, hn₂, hf₂⟩
    · refine ⟨fun x hx => hnum x (hn₂ ▸ hx), fun n f hf => hfile n f (hf₂ ▸ hf)⟩
    · refine ⟨fun x hx => hnum x ?_, ?_⟩
      · rw [hm]
        exact List.mem_cons_of_mem m (hn₂ ▸ hx)
      · intro n f hf
        have hf' : Function.update k₁.file (m : Int) (some ⟨k₁.next, false, true⟩) n = some f :=
          hf₂ ▸ hf
        by_cases hne : n = m
        · -- a number that is free now was free at the start
          subst hne
          rw [Function.update_self, Option.some.injEq] at hf'
          refine Or.inr ⟨by rw [← hf'], m, hnum m (by rw [hm]; exact List.mem_cons_self), rfl, ?_⟩
          rw [isOpen, Option.isSome_eq_false_iff, Option.isNone_iff_eq_none] at hfree ⊢
          rw [Option.eq_none_iff_forall_ne_some]
          intro f₀ hf₀
          rw [moves_keeps hmoves hf₀] at hfree
          exact absurd hfree (by simp)
        · rw [Function.update_of_ne hne] at hf'
          exact hfile n f hf'

/-- System calls keep the modes; what they open was accepted. -/
theorem moves_modeInv {k k' : Files} (h : IoScheduler.Moves filesKernel k k') (hk : k.ModeInv) :
    k'.ModeInv := by
  intro n f hf
  rcases (moves_file h).2 n f hf with hf | ⟨hacc, -⟩
  · exact hk n f hf
  · exact Or.inl hacc

end Files

namespace Objects

/-- The call passes `MSG_DONTWAIT`, or the descriptor it is made on is in non-blocking mode. -/
def CannotBlock (a : IoScheduler.Attempt Files) : Prop :=
  a.op.kind.dontWait = true ∨ ∀ f, a.kernel.file a.op.fd = some f → f.nonblocking = true

/-- The number denotes a descriptor from `::accept`. -/
def onAccepted (s : Objects) (fd : Int) : Bool := (s.sched.kernel.file fd).any (fun f => f.accepted)

/-- An event for the operation's direction is on its descriptor. -/
def Notified (events : List EpollEvent) (op : AsyncIoOperation) : Prop :=
  ∃ ev ∈ events, ev.fd = op.fd ∧ IoScheduler.Selects ev.events op

instance (events : List EpollEvent) (op : AsyncIoOperation) : Decidable (Notified events op) :=
  inferInstanceAs (Decidable (∃ ev ∈ events, _ ∧ _))

/-- No operation that may wait is tried on a descriptor from `::accept`: what is notified is not on
    one, nor on a closed number that `::accept` may be handed before its event is processed. -/
def AvoidsAccepted (s : Objects) : ObjectAct → Prop
  | .pollNotifications events _ _ numbers =>
    ∀ op ∈ s.sched.io.activeSegment, op.kind.dontWait = false → Notified events op →
      s.onAccepted op.fd = false ∧
        (s.sched.kernel.isOpen op.fd = false → ∀ n ∈ numbers, op.fd ≠ n)
  | _ => True

/-- Constructed descriptors are in non-blocking mode, and no call could block. -/
structure ModesInv (s : Objects) : Prop where
  sched : s.sched.Inv
  mode : s.sched.kernel.ModeInv
  attempts : ∀ a ∈ s.sched.attempts, CannotBlock a

theorem init_modesInv {s : Objects} (h : Init s) : s.ModesInv := by
  have hinv := init_inv h
  obtain ⟨kind, wakeFd, rfl⟩ := h
  exact ⟨hinv, by simp [Files.ModeInv, Files.empty], by simp⟩

/-- The calls of a notification phase are on operations that were notified. -/
theorem step_notified {s s' : Objects} (hinv : s.sched.Inv) {events : List EpollEvent} {tw : Nat}
    {answers : List SysOutcome} {numbers : List Nat}
    (hs : s.step (.pollNotifications events tw answers numbers) = some s') :
    ∀ a ∈ s'.sched.attempts, a ∈ s.sched.attempts ∨ Notified events a.op := by
  simp only [step, Option.map_eq_some_iff] at hs
  obtain ⟨sched, hs, rfl⟩ := hs
  obtain ⟨n, hs⟩ := Sched.step_pollNotifications.mp hs
  have hinv₁ : Sched.Inv { s.sched with
      kernel := { s.sched.kernel with answers := answers, numbers := numbers } } :=
    hinv.withEvents _ _ _
  obtain ⟨st, done, hst, -, rfl, rfl⟩ := Sched.pollNotifications_cases hinv₁ hs
  intro a ha
  rcases List.mem_append.mp ha with ha | ha
  · exact Or.inl ha
  · -- attempted in this batch, so an event names its descriptor
    have hstart : (IoScheduler.Notify.start s.sched.io
        ({ s.sched.kernel with answers := answers, numbers := numbers } : Files)).sched.Inv
          s.sched.scheduled 0 := hinv.rep
    rcases IoScheduler.processNotifications_selected hstart hst a ha with ha | hsel
    · exact absurd ha (by simp [IoScheduler.Notify.start])
    · exact Or.inr hsel

/-- A call cannot block when its operation may not wait, or was not on an accepted descriptor and
    cannot have got to one since. -/
theorem cannotBlock_of_moves {k : Files} {a : IoScheduler.Attempt Files} (hmode : k.ModeInv)
    (hmoves : IoScheduler.Moves filesKernel k a.kernel)
    (hok : a.op.kind.dontWait = false → (k.file a.op.fd).any (fun f => f.accepted) = false ∧
      (k.isOpen a.op.fd = false → ∀ n ∈ k.numbers, a.op.fd ≠ n)) : CannotBlock a := by
  cases hdw : a.op.kind.dontWait with
  | true => exact Or.inl hdw
  | false =>
    obtain ⟨hacc, hnum⟩ := hok hdw
    refine Or.inr (fun f hf => ?_)
    rcases (Files.moves_file hmoves).2 a.op.fd f hf with hf | ⟨-, m, hm, hfd, hfree⟩
    · rw [hf, Option.any_some] at hacc
      exact (hmode _ f hf).resolve_left (by simp [hacc])
    · exact absurd hfd.symm (hnum hfree m hm)

/-- **The step lemma** for modes. -/
theorem step_modesInv {s s' : Objects} {act : ObjectAct} (h : s.ModesInv)
    (hok : s.AvoidsAccepted act) (hs : s.step act = some s') : s'.ModesInv := by
  have he := step_effect h.sched hs
  have hinv := he.inv h.sched
  cases he with
  -- a constructed descriptor is in non-blocking mode
  | @opens a fd ctor _ hopen hsched hborn =>
    rw [hsched] at hinv
    refine ⟨by rw [hsched]; exact hinv, ?_, by rw [hsched]; exact h.attempts⟩
    rw [hsched]
    exact Files.acquire_modeInv h.mode fd ctor
  -- what is still open was open before
  | closes hrel hborn =>
    refine ⟨hinv, fun n f hf => h.mode n f (hrel.file_sub n f hf), ?_⟩
    rw [hrel.attempts]
    exact h.attempts
  | keeps hkernel hatt hact hinv' hborn =>
    exact ⟨hinv, by rw [hkernel]; exact h.mode, by rw [hatt]; exact h.attempts⟩
  | schedules hfd hnew hsched hborn =>
    obtain ⟨io, -, hs'⟩ := Sched.schedule_cases hsched
    have hkernel : s'.sched.kernel = s.sched.kernel := by rw [hs']
    have hatt : s'.sched.attempts = s.sched.attempts := by rw [hs']
    exact ⟨hinv, by rw [hkernel]; exact h.mode, by rw [hatt]; exact h.attempts⟩
  -- every new call is on a notified operation, and `::accept` opens only under the label's numbers
  | @polls events tw answers numbers _ hper hinv' hborn =>
    refine ⟨hinv, Files.moves_modeInv hper.kernel h.mode, fun a ha => ?_⟩
    by_cases hold : a ∈ s.sched.attempts
    · exact h.attempts a hold
    · obtain ⟨hop, hmoves⟩ := (hper.attempts a ha).resolve_left hold
      have hnotified := (step_notified h.sched hs a ha).resolve_left hold
      have hmode : Files.ModeInv { s.sched.kernel with answers := answers, numbers := numbers } :=
        h.mode
      exact cannotBlock_of_moves hmode hmoves (fun hdw => hok a.op hop hdw hnotified)

/-- **Calls under the lock cannot block** in runs that try no operation that may wait on a descriptor
    of `::accept`. -/
theorem calls_cannot_block {s : Objects} (h : Reach AvoidsAccepted s) :
    ∀ a ∈ s.sched.attempts, CannotBlock a := by
  have hinv : s.ModesInv :=
    Transition.Reach.invariant ModesInv (fun _ => init_modesInv)
      (fun _ _ _ hi hok hs => step_modesInv hi hok hs) h
  exact hinv.attempts

instance (s : Objects) (act : ObjectAct) : Decidable (s.AvoidsAccepted act) :=
  match act with
  | .pollNotifications events _ _ numbers =>
    inferInstanceAs (Decidable (∀ op ∈ s.sched.io.activeSegment, op.kind.dontWait = false →
      Notified events op → s.onAccepted op.fd = false ∧
        (s.sched.kernel.isOpen op.fd = false → ∀ n ∈ numbers, op.fd ≠ n)))
  | .schedule _ _ _ => isTrue trivial
  | .construct _ _ _ => isTrue trivial
  | .value _ => isTrue trivial
  | .assignAccepted _ _ _ => isTrue trivial
  | .cancel _ _ => isTrue trivial
  | .pollCancellations _ => isTrue trivial
  | .wake _ => isTrue trivial

/-- An acceptor and sockets, nothing exists yet. -/
def acceptorStart : Objects :=
  ⟨⟨fun _ => none, fun _ => false, []⟩, fun a => if a = 0 then .unixSocketAcceptor else .unixSocket,
    ⟨IoScheduler.init 0, .empty, [], [], [], []⟩, fun _ => none, []⟩

theorem acceptorStart_init : Init acceptorStart := ⟨_, _, rfl⟩

/-- A connection is accepted under 6 and assigned to a socket. -/
def acceptOne : List ObjectAct :=
  [.construct 0 .unixSocketAcceptor 3, .construct 1 .unixSocket 4, .schedule 0 1 .unixAccept,
    .pollNotifications [⟨3, EPOLLIN⟩] 0 [⟨.ok 0, 0⟩] [6],
    .assignAccepted 1 2 ⟨1, 3, .unixAccept⟩]

/-- A message is received on the accepted socket. -/
theorem accepted_receive_cannot_block :
    ∃ s : Objects, s.sched.attempts.length = 2 ∧ ∀ a ∈ s.sched.attempts, CannotBlock a := by
  have hrun : ∃ s, Reach AvoidsAccepted s ∧ decide (s.sched.attempts.length = 2) = true :=
    Transition.exists_reach acceptorStart_init
      (acceptOne ++ [.schedule 1 2 .receiveMessage,
        .pollNotifications [⟨6, EPOLLIN⟩] 0 [⟨.ok 5, 0⟩] []]) _ (by decide)
  obtain ⟨s, hs, hlen⟩ := hrun
  exact ⟨s, of_decide_eq_true hlen, calls_cannot_block hs⟩

/-- Two reads are queued on the accepted socket and data for one arrives: the second read is
    made on a descriptor in blocking mode. -/
theorem accepted_read_may_block :
    ¬ ∀ s : Objects, Reach Transition.always s → ∀ a ∈ s.sched.attempts, CannotBlock a := by
  intro hall
  have hrun : ∃ s, Reach Transition.always s ∧
      (s.sched.attempts.getLast?.any (fun a => a.op.addr = 3 && !a.op.kind.dontWait &&
        (a.kernel.file a.op.fd).any (fun f => !f.nonblocking))) = true :=
    Transition.exists_reach acceptorStart_init
      (acceptOne ++ [.schedule 1 2 .ioRead, .schedule 1 3 .ioRead,
        .pollNotifications [⟨6, EPOLLIN⟩] 0 [⟨.ok 5, 0⟩] []]) _ (by decide)
  obtain ⟨s, hs, hlast⟩ := hrun
  -- the last read is on the accepted descriptor, which blocks and is not told to wait
  simp only [Option.any_eq_true, Bool.and_eq_true, Bool.not_eq_eq_eq_not, Bool.not_true] at hlast
  obtain ⟨a, ha, ⟨-, hdw⟩, f, hf, hmode⟩ := hlast
  rcases hall s hs a (List.mem_of_getLast? ha) with hwait | hnb
  · exact absurd (hdw.symm.trans hwait) (by simp)
  · exact absurd (hmode.symm.trans (hnb f hf)) (by simp)

end Objects

end Exios
