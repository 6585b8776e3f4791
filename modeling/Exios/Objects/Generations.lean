import Exios.Objects.Steps

namespace Exios

/-!
# I/O objects — operations and generations

An operation keeps the number of its descriptor, not the descriptor.  `close`, move assignment
and destruction of an object do not visit the scheduler, so the number of an operation that is
still active can be closed and come to denote another descriptor.

* `Directed` — a `perform_io` call is made on the descriptor that its operation was scheduled
  on;
* `ClosesUnused` — the condition on a step: the number it closes has no active operation;
* `io_never_misdirected` — runs of such steps direct every call;
* `recycled_number_misdirects` — other runs need not.
-/

namespace Files

/-- System calls leave open descriptors alone. -/
theorem syscall_keeps (op : AsyncIoOperation) {k : Files} {n : Int} {f : OpenFile}
    (h : k.file n = some f) : (syscall op k).2.file n = some f := by
  rcases syscall_file op k with ⟨hfile, -⟩ | ⟨m, rest, -, hfree, -, hfile⟩
  · rw [hfile]
    exact h
  · have hne : n ≠ m := by
      rintro rfl
      rw [isOpen, h] at hfree
      exact absurd hfree (by simp)
    rw [hfile, Function.update_of_ne hne]
    exact h

/-- System calls leave open files open. -/
theorem moves_keeps {k k' : Files} (h : IoScheduler.Moves filesKernel k k') {n : Int} {f : OpenFile}
    (hf : k.file n = some f) : k'.file n = some f := by
  induction h with
  | refl => exact hf
  | tail _ hstep ih =>
    obtain ⟨op, rfl⟩ := hstep
    exact syscall_keeps op ih

/-- A generation that was read before some system calls is still the same after them. -/
theorem moves_generation {k k' : Files} (h : IoScheduler.Moves filesKernel k k') {n : Int} {g : Nat}
    (hg : k.generation n = some g) : k'.generation n = some g := by
  unfold generation at hg ⊢
  rw [Option.map_eq_some_iff] at hg ⊢
  obtain ⟨f, hf, hgen⟩ := hg
  exact ⟨f, moves_keeps h hf, hgen⟩

end Files

namespace Objects

/-- The call was made on the descriptor that the operation was scheduled on. -/
def Directed (s : Objects) (a : IoScheduler.Attempt Files) : Prop :=
  ∃ g, s.born a.op = some g ∧ a.kernel.generation a.op.fd = some g

/-- Active operations are on the descriptor they were scheduled on, and all calls were
    directed. -/
structure DirectedInv (s : Objects) : Prop where
  sched : s.sched.Inv
  active : ∀ op ∈ s.sched.io.activeSegment,
    ∃ g, s.born op = some g ∧ s.sched.kernel.generation op.fd = some g
  attempts : ∀ a ∈ s.sched.attempts, s.Directed a

/-- The number that the step closes has no active operation. -/
def ClosesUnused (s : Objects) (act : ObjectAct) : Prop :=
  ∀ op ∈ s.sched.io.activeSegment, s.closes act ≠ some op.fd

instance (s : Objects) (act : ObjectAct) : Decidable (s.ClosesUnused act) :=
  inferInstanceAs (Decidable (∀ op ∈ s.sched.io.activeSegment, s.closes act ≠ some op.fd))

theorem init_directedInv {s : Objects} (h : Init s) : s.DirectedInv := by
  have hinv := init_inv h
  obtain ⟨kind, wakeFd, rfl⟩ := h
  exact ⟨hinv, by simp [IoScheduler.init, IoScheduler.activeSegment], by simp⟩

/-- A step that keeps the numbers of active operations open, under the same descriptors. -/
theorem DirectedInv.of_files {s s' : Objects} (h : s.DirectedInv) (hinv : s'.sched.Inv)
    (hborn : s'.born = s.born) (hatt : s'.sched.attempts = s.sched.attempts)
    (hact : ∀ op ∈ s'.sched.io.activeSegment, op ∈ s.sched.io.activeSegment)
    (hfile : ∀ op ∈ s.sched.io.activeSegment,
      s'.sched.kernel.generation op.fd = s.sched.kernel.generation op.fd) : s'.DirectedInv where
  sched := hinv
  active := fun op hop => by
    rw [hborn, hfile op (hact op hop)]
    exact h.active op (hact op hop)
  attempts := fun a ha => by
    rw [hatt] at ha
    unfold Directed
    rw [hborn]
    exact h.attempts a ha

/-- A constructor takes a number that is free, and no active operation is on a free one. -/
theorem opens_directedInv {s s' : Objects} (h : s.DirectedInv) {fd : Nat} {flags : Flags}
    (hopen : s.sched.kernel.isOpen fd = false)
    (hsched : s'.sched = { s.sched with kernel := s.sched.kernel.acquire fd flags false })
    (hinv : s'.sched.Inv) (hborn : s'.born = s.born) : s'.DirectedInv := by
  apply h.of_files hinv hborn (by rw [hsched]) (fun op hop => by rw [hsched] at hop; exact hop)
  intro op hop
  -- the new file takes a free number, so it is none that an active operation waits on
  have hne : op.fd ≠ fd := by
    intro hfd
    obtain ⟨g, -, hg⟩ := h.active op hop
    rw [hfd, Files.generation] at hg
    rw [Files.isOpen, Option.isSome_eq_false_iff, Option.isNone_iff_eq_none] at hopen
    rw [hopen] at hg
    exact absurd hg (by simp)
  rw [hsched]
  unfold Files.generation
  exact congrArg _ (Function.update_of_ne hne _ _)

/-- `schedule` records the generation of an open descriptor. -/
theorem schedules_directedInv {s s' : Objects} (h : s.DirectedInv) {op : AsyncIoOperation}
    (hnew : op ∉ s.sched.scheduled) (hsched : s.sched.schedule filesKernel op = .ok s'.sched)
    (hborn : s'.born = Function.update s.born op (s.sched.kernel.generation op.fd)) :
    s'.DirectedInv := by
  have hopen : (s.sched.kernel.file op.fd).isSome = true := Sched.schedule_isOpen hsched
  obtain ⟨f, hf⟩ := Option.isSome_iff_exists.mp hopen
  have hgen : s.sched.kernel.generation op.fd = some f.generation := by
    rw [Files.generation, hf]
    rfl
  have hact := Sched.schedule_active h.sched hnew hsched
  have hinv := Sched.schedule_inv h.sched hnew hsched
  obtain ⟨io, -, hs'⟩ := Sched.schedule_cases hsched
  -- nothing but the new operation gets another generation
  have hold : ∀ x ∈ s.sched.scheduled, s'.born x = s.born x := by
    intro x hx
    have hne : x ≠ op := fun heq => hnew (heq ▸ hx)
    rw [hborn, Function.update_of_ne hne]
  refine ⟨hinv, ?_, ?_⟩
  · intro x hx
    have hkernel : s'.sched.kernel = s.sched.kernel := by rw [hs']
    rw [hkernel]
    rcases hact x hx with rfl | hx
    · exact ⟨f.generation, by rw [hborn, Function.update_self, hgen], hgen⟩
    · rw [hold x (h.sched.mem_active hx)]
      exact h.active x hx
  · intro a ha
    have ha' : a ∈ s.sched.attempts := by
      rw [hs'] at ha
      exact ha
    unfold Directed
    rw [hold a.op (h.sched.attempts a ha').1]
    exact h.attempts a ha'

/-- System calls leave the descriptors of active operations alone. -/
theorem polls_directedInv {s s' : Objects} (h : s.DirectedInv) {answers : List SysOutcome}
    {numbers : List Nat}
    (hper : Sched.Performs filesKernel { s.sched with
      kernel := { s.sched.kernel with answers := answers, numbers := numbers } } s'.sched)
    (hinv : s'.sched.Inv) (hborn : s'.born = s.born) : s'.DirectedInv := by
  -- the answers and numbers of the label do not change the table
  have hstart : ∀ op ∈ s.sched.io.activeSegment, ∃ g, s.born op = some g ∧
      Files.generation { s.sched.kernel with answers := answers, numbers := numbers } op.fd
        = some g := h.active
  refine ⟨hinv, ?_, ?_⟩
  · intro op hop
    obtain ⟨g, hg, hgen⟩ := hstart op (hper.active op hop)
    exact ⟨g, by rw [hborn, hg], Files.moves_generation hper.kernel hgen⟩
  · intro a ha
    unfold Directed
    rw [hborn]
    rcases hper.attempts a ha with ha | ⟨hop, hmoves⟩
    · exact h.attempts a ha
    · obtain ⟨g, hg, hgen⟩ := hstart a.op hop
      exact ⟨g, hg, Files.moves_generation hmoves hgen⟩

/-- **The step lemma** for directed operations. -/
theorem step_directedInv {s s' : Objects} {act : ObjectAct} (h : s.DirectedInv)
    (hok : s.ClosesUnused act) (hs : s.step act = some s') : s'.DirectedInv := by
  have he := step_effect h.sched hs
  have hinv := he.inv h.sched
  cases he with
  | opens hopen hsched hborn => exact opens_directedInv h hopen hsched hinv hborn
  | closes hrel hborn =>
    -- the closed number has no active operation
    apply h.of_files hinv hborn hrel.attempts (fun op hop => hrel.active ▸ hop)
    intro op hop
    unfold Files.generation
    rw [hrel.file_other op.fd (hok op hop)]
  | keeps hkernel hatt hact hinv' hborn =>
    exact h.of_files hinv hborn hatt hact (fun op _ => by rw [hkernel])
  | schedules hfd hnew hsched hborn => exact schedules_directedInv h hnew hsched hborn
  | polls hper hinv' hborn => exact polls_directedInv h hper hinv hborn

/-- **I/O is never misdirected** in runs that close a number only when no operation is active
    on it. -/
theorem io_never_misdirected {s : Objects} (h : Reach ClosesUnused s) :
    ∀ a ∈ s.sched.attempts, s.Directed a := by
  have hinv : s.DirectedInv :=
    Transition.Reach.invariant DirectedInv (fun _ => init_directedInv)
      (fun _ _ _ hi hok hs => step_directedInv hi hok hs) h
  exact hinv.attempts

/-- All objects are events; none exists yet. -/
def eventsStart : Objects :=
  ⟨⟨fun _ => none, fun _ => false, []⟩, fun _ => .event,
    ⟨IoScheduler.init 0, .empty, [], [], [], []⟩, fun _ => none, []⟩

theorem eventsStart_init : Init eventsStart := ⟨_, _, rfl⟩

/-- The wait on an event is cancelled, the event destroyed, and its number taken by another event,
    which is triggered. -/
theorem directed_after_cancel :
    ∃ s : Objects, s.sched.attempts.length = 1 ∧ ∀ a ∈ s.sched.attempts, s.Directed a := by
  have hrun : ∃ s, Reach ClosesUnused s ∧ decide (s.sched.attempts.length = 1) = true :=
    Transition.exists_reach eventsStart_init
      [.construct 0 .event 5, .schedule 0 1 .timerExpiryOrEvent, .cancel 0 9, .value (.destroy 0),
        .construct 1 .event 5, .schedule 1 2 .timerExpiryOrEvent,
        .pollNotifications [⟨5, EPOLLIN⟩] 0 [⟨.ok 8, 1⟩] []] _ (by decide)
  obtain ⟨s, hs, hlen⟩ := hrun
  exact ⟨s, of_decide_eq_true hlen, io_never_misdirected hs⟩

/-- The same without the cancellation: the wait on the first event takes what the second was
    triggered with. -/
theorem recycled_number_misdirects :
    ¬ ∀ s : Objects, Reach Transition.always s → ∀ a ∈ s.sched.attempts, s.Directed a := by
  intro hall
  have hrun : ∃ s, Reach Transition.always s ∧
      s.sched.attempts.any (fun a => s.born a.op ≠ a.kernel.generation a.op.fd) = true :=
    Transition.exists_reach eventsStart_init
      [.construct 0 .event 5, .schedule 0 1 .timerExpiryOrEvent, .value (.destroy 0),
        .construct 1 .event 5, .schedule 1 2 .timerExpiryOrEvent,
        .pollNotifications [⟨5, EPOLLIN⟩] 0 [⟨.ok 8, 1⟩] []] _ (by decide)
  -- the second event reads what the first one was to read
  obtain ⟨s, hs, hany⟩ := hrun
  rw [List.any_eq_true] at hany
  obtain ⟨a, ha, hne⟩ := hany
  obtain ⟨g, hborn, hgen⟩ := hall s hs a ha
  exact of_decide_eq_true hne (hborn.trans hgen.symm)

end Objects

end Exios
