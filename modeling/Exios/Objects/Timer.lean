import Exios.Base.Chrono
import Exios.Scheduler.Registrations

namespace Exios

/-!
# Timer — waits that supersede each other

`Timer::wait_for_expiry_after` first cancels whatever is pending on the timer's descriptor and
then, unless the duration is zero or the kernel refuses it, arms the timer and queues a new
wait.  The two halves are steps of their own, so that polls of other threads may come between.

* `TimerKernel` — a kernel with `timerfd_settime`; `TimerKernel.Documented` is what its manual
  page promises;
* `Timer.step` — the members of `Timer` over the scheduler;
* `Timer.waits_supersede` — at most one wait is active; whatever an earlier wait had not been
  given by a poll before the next call was made, it is cancelled.
-/

/-! ### Durations -/

/-- `itimerspec::it_value`; the interval is always zero. -/
structure Itimerspec where
  tvSec : Int
  tvNsec : Int
deriving DecidableEq

/-- What `timerfd_settime` accepts. -/
def Itimerspec.Valid (spec : Itimerspec) : Prop :=
  0 ≤ spec.tvSec ∧ 0 ≤ spec.tvNsec ∧ spec.tvNsec < 1000000000

instance (spec : Itimerspec) : Decidable spec.Valid := inferInstanceAs (Decidable (_ ∧ _ ∧ _))

/-- `kNanosecondsPerSecond`. -/
def kNanosecondsPerSecond : Int := 1000000000

/-- `convert_to_itimerspec`; C++ division truncates. -/
def convertToItimerspec (val : Int) : Itimerspec :=
  ⟨val.tdiv kNanosecondsPerSecond, val.tmod kNanosecondsPerSecond⟩

/-- A duration that a caller passes: a count of ticks, or a floating-point one, of which only the
    outcomes of the comparison with zero and of the conversion matter. -/
inductive Duration
  | ticks (d : Ticks)
  | floating (isZero : Bool) (nanoseconds : Option Int)

namespace Duration

/-- `duration == std::chrono::nanoseconds::zero()`; `none` when signed arithmetic overflows. -/
def isZero : Duration → Option Bool
  | .ticks d => d.isZero
  | .floating isZero _ => some isZero

/-- `std::chrono::duration_cast<std::chrono::nanoseconds>(duration)`; `none` when signed arithmetic
    overflows, or when a floating-point value is not in the range of the result. -/
def toNanoseconds : Duration → Option Int
  | .ticks d => d.toNanoseconds
  | .floating _ nanoseconds => nanoseconds

/-- The duration is not taken for zero, and converts to a number of nanoseconds that
    `timerfd_settime` accepts. -/
def Accepted (d : Duration) : Prop :=
  d.isZero = some false ∧ ∃ ns, d.toNanoseconds = some ns ∧ 0 ≤ ns

/-- **A duration of at least a nanosecond is accepted**, unless the 64-bit arithmetic of the
    comparison or of the conversion overflows. -/
theorem accepted_of_ticks {d : Ticks} (h : 1 ≤ d.wholeNanoseconds)
    (hrepresentable : d.wholeNanoseconds < 2 ^ 63) (hcompares : d.Compares)
    (hconverts : d.Converts) : (Duration.ticks d).Accepted := by
  have hpos := Ticks.count_pos h
  refine ⟨?_, d.wholeNanoseconds, ?_, by omega⟩
  · show d.isZero = some false
    rw [Ticks.isZero_of_compares hcompares, decide_eq_false (by omega)]
  · exact Ticks.toNanoseconds_of_converts (by omega) hrepresentable hconverts

end Duration

/-- A positive count is accepted. -/
theorem convertToItimerspec_valid {val : Int} (h : 0 ≤ val) : (convertToItimerspec val).Valid :=
  ⟨Int.tdiv_nonneg h (by decide), Int.tmod_nonneg _ h, Int.tmod_lt_of_pos _ (by decide)⟩

/-! ### `timerfd` -/

/-- A kernel with timers. -/
structure TimerKernel (K : Type) extends Kernel K where
  /-- `timerfd_settime` of a one-shot relative timer. -/
  settime : Int → Itimerspec → K → Except Nat K

/-- What the manual page says: a well-formed value is accepted on an open timer, and no
    descriptor is opened or closed by the call. -/
structure TimerKernel.Documented {K : Type} (M : TimerKernel K) : Prop where
  accepts : ∀ fd spec k, M.isOpen k fd = true → spec.Valid → ∃ k', M.settime fd spec k = .ok k'
  keeps : ∀ fd spec k k' n, M.settime fd spec k = .ok k' → M.isOpen k' n = M.isOpen k n

/-! ### The members of `Timer` -/

/-- A `Timer`, with the history of its waits. -/
structure Timer (K : Type) where
  sched : Sched K
  /-- The arguments of a `wait_for_expiry_after` that has cancelled and not returned yet. -/
  call : Option (Duration × Nat)
  /-- The operation that the latest `wait_for_expiry_after` queued. -/
  current : Option AsyncIoOperation
  /-- The operations of earlier calls, with the result each had when the next call was made. -/
  earlier : List (AsyncIoOperation × Option IoResult)
  /-- Completions posted by waits of duration zero. -/
  immediate : List Nat

/-- The calls on one timer.  `wait` is `wait_for_expiry_after` up to the return of `cancel`,
    `waitRest` what follows; `other` is a critical section of some thread. -/
inductive TimerAct (K : Type)
  | wait (duration : Duration) (addr : Nat) (fuel : Nat)
  | waitRest
  | expire
  | other (a : SchedAct K)

namespace Timer

variable {K : Type}

/-- The operation that `queue_timer_operation` makes. -/
def operation (fd : Int) (addr : Nat) : AsyncIoOperation := ⟨addr, fd, .timerExpiryOrEvent⟩

/-- The operation of the latest call joins the earlier ones. -/
def history (s : Timer K) : List (AsyncIoOperation × Option IoResult) :=
  s.earlier ++ s.current.toList.map (fun op => (op, (s.sched.io.state op).result))

/-- One step on the timer with descriptor `fd`. -/
def step (M : TimerKernel K) (fd : Int) (s : Timer K) : TimerAct K → Option (Timer K)
  | .wait d addr fuel =>
    match s.call with
    | some _ => none
    | none =>
      (Sched.step M.toKernel s.sched (.cancel fd fuel)).map (fun sched =>
        { s with sched := sched, call := some (d, addr), current := none, earlier := s.history })
  | .waitRest =>
    match s.call with
    | none => none
    | some (d, addr) =>
      match d.isZero with
      | none => none  -- not defined: nothing can be said of what follows
      | some true => some { s with call := none, immediate := s.immediate ++ [addr] }
      | some false =>
        match d.toNanoseconds with
        | none => none
        | some ns =>
          match M.settime fd (convertToItimerspec ns) s.sched.kernel with
          | .error _ => some { s with call := none }  -- throws
          | .ok k =>
            (Sched.step M.toKernel { s.sched with kernel := k } (.schedule (operation fd addr))).map
              (fun sched =>
                { s with sched := sched, call := none, current := some (operation fd addr) })
  | .expire =>
    match M.settime fd (convertToItimerspec 1) s.sched.kernel with
    | .error _ => some s  -- throws
    | .ok k => some { s with sched := { s.sched with kernel := k } }
  | .other a => (Sched.step M.toKernel s.sched a).map (fun sched => { s with sched := sched })

/-- Nothing else is scheduled on the timer's descriptor. -/
def Alone (fd : Int) (_ : Timer K) : TimerAct K → Prop
  | .other (.schedule op) => op.fd ≠ fd
  | _ => True

/-- A constructed timer. -/
def Init (s : Timer K) : Prop := ∃ sched, Sched.Init sched ∧ s = ⟨sched, none, none, [], []⟩

/-- States reached by runs on one timer. -/
def Reach (M : TimerKernel K) (fd : Int) : Timer K → Prop :=
  Transition.Reach Init (step M fd) (Alone fd)

/-! ### The invariant -/

variable {M : TimerKernel K} {fd : Int} {s s' : Timer K}

/-- What became of an earlier wait: a poll had completed it before the next call, or it is
    cancelled. -/
def Superseded (s : Timer K) (p : AsyncIoOperation × Option IoResult) : Prop :=
  (∃ r, p.2 = some r ∧ r ≠ cancelledResult ∧ (s.sched.io.state p.1).result = some r) ∨
    (s.sched.io.state p.1).result = some cancelledResult

/-- The invariant: what is active on the descriptor is the wait of the latest call, and no call
    is under way. -/
structure Inv (fd : Int) (s : Timer K) : Prop where
  sched : s.sched.Inv
  active : ∀ a ∈ s.sched.io.activeOn fd, s.call = none ∧ s.current = some a
  current : ∀ op, s.current = some op → op ∈ s.sched.scheduled ∧ op.fd = fd
  earlier : ∀ p ∈ s.earlier, s.Superseded p

/-- A constructed timer has no wait. -/
theorem init_inv (h : Init s) : Inv fd s := by
  obtain ⟨sched, hsched, rfl⟩ := h
  refine ⟨Sched.init_inv hsched, ?_, by simp, by simp⟩
  obtain ⟨wakeFd, k, rfl⟩ := hsched
  simp [IoScheduler.init, IoScheduler.activeOn, IoScheduler.activeSegment]

/-- At most one operation is active on the descriptor. -/
theorem Inv.le_one (h : Inv fd s) : (s.sched.io.activeOn fd).length ≤ 1 := by
  have hnd : (s.sched.io.activeOn fd).Nodup := h.sched.rep.nodup_activeOn fd
  match hact : s.sched.io.activeOn fd with
  | [] => simp
  | [a] => simp
  | a :: b :: rest =>
    have ha := (h.active a (by rw [hact]; simp)).2
    have hb := (h.active b (by rw [hact]; simp)).2
    rw [hact, List.nodup_cons] at hnd
    rw [ha, Option.some.injEq] at hb
    exact absurd (List.mem_cons.mpr (Or.inl hb)) hnd.1

/-- What was superseded stays so. -/
theorem Superseded.step {a : SchedAct K} {sched : Sched K} {p : AsyncIoOperation × Option IoResult}
    (hinv : s.sched.Inv) (hs : Sched.step M.toKernel s.sched a = some sched) (h : s.Superseded p)
    (hsched : s'.sched = sched) : s'.Superseded p := by
  rw [Superseded, hsched]
  rcases h with ⟨r, hp, hne, hr⟩ | hr
  · exact Or.inl ⟨r, hp, hne, Sched.step_result hinv hs hr⟩
  · exact Or.inr (Sched.step_result hinv hs hr)

/-- A critical section that does not schedule on the timer. -/
theorem Inv.keep (h : Inv fd s) {a : SchedAct K} {sched : Sched K}
    (ha : ∀ op, a = .schedule op → op.fd ≠ fd)
    (hs : Sched.step M.toKernel s.sched a = some sched) : Inv fd { s with sched := sched } := by
  refine ⟨Sched.step_inv h.sched hs, ?_, ?_, fun p hp => (h.earlier p hp).step h.sched hs rfl⟩
  · intro x hx
    obtain ⟨hx, hfd⟩ := List.mem_filter.mp hx
    -- an operation on the timer's descriptor was active before, as nothing else schedules there
    rcases Sched.step_active h.sched hs x hx with rfl | hx
    · exact absurd (of_decide_eq_true hfd) (ha x rfl)
    · exact h.active x (List.mem_filter.mpr ⟨hx, hfd⟩)
  · intro op hop
    refine ⟨?_, (h.current op hop).2⟩
    show op ∈ sched.scheduled
    rw [Sched.step_scheduled h.sched hs]
    exact List.mem_append_left _ (h.current op hop).1

/-- The first half of a wait: the operation of the latest call has its result, or gets the one
    of the cancellation. -/
theorem Inv.wait (h : Inv fd s) (d : Duration) (addr : Nat) {fuel : Nat} {sched : Sched K}
    (hs : Sched.step M.toKernel s.sched (.cancel fd fuel) = some sched) :
    Inv fd { s with sched := sched, call := some (d, addr), current := none, earlier := s.history } ∧
      sched.io.activeOn fd = [] := by
  have hinv' := Sched.step_inv h.sched hs
  obtain ⟨found, hcancel⟩ := Sched.step_cancel.mp hs
  have hnone : sched.io.activeOn fd = [] := by
    rw [IoScheduler.activeOn, (Sched.cancel_segments h.sched hcancel).1, List.filter_filter,
      List.filter_eq_nil_iff]
    simp
  refine ⟨⟨hinv', ?_, by simp, ?_⟩, hnone⟩
  · intro a ha
    have ha' : a ∈ sched.io.activeOn fd := ha
    rw [hnone] at ha'
    exact absurd ha' (by simp)
  · intro p hp
    rcases List.mem_append.mp hp with hp | hp
    · exact (h.earlier p hp).step h.sched hs rfl
    · obtain ⟨op, hop, rfl⟩ := List.mem_map.mp hp
      obtain ⟨hsched, hfd⟩ := h.current op (Option.mem_toList.mp hop)
      cases hr : (s.sched.io.state op).result with
      | some r =>
        by_cases hne : r = cancelledResult
        · exact Or.inr (Sched.step_result h.sched hs (hne ▸ hr))
        · exact Or.inl ⟨r, rfl, hne, Sched.step_result h.sched hs hr⟩
      | none =>
        -- without a result it was active, and the `cancel` struck it
        have hact := h.sched.active_of_unset hsched hr
        obtain ⟨io, -, rfl⟩ := Sched.cancel_cases hcancel
        refine Or.inr ((hinv'.struck_iff op).mp (List.mem_append_right _ ?_))
        exact List.mem_filter.mpr ⟨hact, by simpa using hfd⟩

/-- The second half of a wait that queues an operation. -/
theorem Inv.queue (h : Inv fd s) {d : Duration} {addr : Nat} (hcall : s.call = some (d, addr))
    {sched : Sched K}
    (hs : Sched.step M.toKernel s.sched (.schedule (operation fd addr)) = some sched) :
    Inv fd { s with sched := sched, call := none, current := some (operation fd addr) } := by
  have hinv' := Sched.step_inv h.sched hs
  refine ⟨hinv', ?_, ?_, fun p hp => (h.earlier p hp).step h.sched hs rfl⟩
  · intro a ha
    obtain ⟨ha, hfd⟩ := List.mem_filter.mp ha
    rcases Sched.step_active h.sched hs a ha with heq | ha
    · rw [SchedAct.schedule.injEq] at heq
      exact ⟨rfl, by rw [heq]⟩
    · -- nothing was active while the call was under way
      have hnone := (h.active a (List.mem_filter.mpr ⟨ha, hfd⟩)).1
      rw [hcall] at hnone
      exact absurd hnone (by simp)
  · intro op hop
    have hop' : operation fd addr = op := by simpa using hop
    subst hop'
    refine ⟨?_, rfl⟩
    show operation fd addr ∈ sched.scheduled
    rw [Sched.step_scheduled h.sched hs]
    simp

/-- The end of a call that queues nothing. -/
theorem Inv.finish (h : Inv fd s) {immediate : List Nat} :
    Inv fd { s with call := none, immediate := immediate } :=
  ⟨h.sched, fun a ha => ⟨rfl, (h.active a ha).2⟩, h.current, h.earlier⟩

/-- What `timerfd_settime` does to the kernel does not matter. -/
theorem Inv.settime (M : TimerKernel K) (h : Inv fd s) (k : K) :
    Inv fd { s with sched := { s.sched with kernel := k } } :=
  h.keep (a := .kernel k) (M := M) (fun _ h => by simp at h) rfl

/-- **The step lemma** for the waits on one timer. -/
theorem step_inv (h : Inv fd s) {a : TimerAct K} (hok : Alone fd s a)
    (hs : step M fd s a = some s') : Inv fd s' := by
  cases a with
  | wait d addr fuel =>
    rw [step] at hs
    split at hs
    · exact absurd hs (by simp)
    · obtain ⟨sched, hsched, rfl⟩ := Option.map_eq_some_iff.mp hs
      exact (h.wait d addr hsched).1
  | waitRest =>
    rw [step] at hs
    split at hs
    · exact absurd hs (by simp)
    · rename_i d addr hcall
      split at hs
      · exact absurd hs (by simp)
      · -- a zero duration posts at once
        rw [Option.some.injEq] at hs
        exact hs ▸ h.finish
      · split at hs
        · exact absurd hs (by simp)
        · -- `timerfd_settime` throws, or the operation is queued
          split at hs
          · rw [Option.some.injEq] at hs
            exact hs ▸ h.finish
          · rename_i k _
            obtain ⟨sched, hsched, rfl⟩ := Option.map_eq_some_iff.mp hs
            exact (h.settime M k).queue hcall hsched
  | expire =>
    rw [step] at hs
    split at hs
    · rw [Option.some.injEq] at hs
      exact hs ▸ h
    · rename_i k _
      rw [Option.some.injEq] at hs
      exact hs ▸ h.settime M k
  | other a =>
    obtain ⟨sched, hsched, rfl⟩ := Option.map_eq_some_iff.mp hs
    refine h.keep ?_ hsched
    rintro op rfl
    exact hok

/-! ### Waits in a row -/

/-- The cancelled operations on the timer's descriptor that no poll has posted yet. -/
def cancelledOn (s : Timer K) (fd : Int) : List AsyncIoOperation :=
  s.sched.io.cancelledSegment.filter (fun a => decide (a.fd = fd))

/-- A wait for an accepted duration on an open timer replaces the pending one. -/
theorem wait_replaces (hM : M.Documented) (h : Inv fd s) (hcall : s.call = none)
    (hopen : M.isOpen s.sched.kernel fd = true) {d : Duration} (hd : d.Accepted) {addr fuel : Nat}
    (hnew : operation fd addr ∉ s.sched.scheduled) (hfuel : 2 ≤ fuel) :
    ∃ s₁ s₂, step M fd s (.wait d addr fuel) = some s₁ ∧ step M fd s₁ .waitRest = some s₂ ∧
      s₂.call = none ∧ M.isOpen s₂.sched.kernel fd = true ∧
      s₂.sched.scheduled = s.sched.scheduled ++ [operation fd addr] ∧
      s₂.sched.io.activeOn fd = [operation fd addr] ∧
      s₂.cancelledOn fd = s.sched.io.activeOn fd ++ s.cancelledOn fd := by
  -- the first half
  obtain ⟨sched₁, found, hcancel⟩ := Sched.cancel_of_le_one (M := M.toKernel) h.sched h.le_one hfuel
  have hs₁ : Sched.step M.toKernel s.sched (.cancel fd fuel) = some sched₁ :=
    Sched.step_cancel.mpr ⟨found, hcancel⟩
  obtain ⟨h₁, hnone⟩ := h.wait d addr hs₁
  obtain ⟨-, hcan, -⟩ := Sched.cancel_segments h.sched hcancel
  have hkernel : sched₁.kernel = s.sched.kernel := by
    obtain ⟨io, -, rfl⟩ := Sched.cancel_cases hcancel
    rfl
  have hsched₁ : sched₁.scheduled = s.sched.scheduled := by
    obtain ⟨io, -, rfl⟩ := Sched.cancel_cases hcancel
    rfl
  -- the second half: the value is well formed, so it is accepted
  obtain ⟨hzero, ns, hns, hnonneg⟩ := hd
  obtain ⟨k, hk⟩ := hM.accepts fd _ sched₁.kernel (by rw [hkernel]; exact hopen)
    (convertToItimerspec_valid hnonneg)
  have hopen' : M.isOpen k fd = true := by
    rw [hM.keeps fd _ _ _ fd hk, hkernel]
    exact hopen
  have hinv : Sched.Inv { sched₁ with kernel := k } := (h₁.settime M k).sched
  have hnew' : operation fd addr ∉ sched₁.scheduled := by
    rw [hsched₁]
    exact hnew
  obtain ⟨sched₂, hsched₂⟩ := Sched.schedule_ok_of_open (s := { sched₁ with kernel := k })
    (M := M.toKernel) (show M.isOpen k (operation fd addr).fd = true from hopen')
  have hs₂ : Sched.step M.toKernel { sched₁ with kernel := k } (.schedule (operation fd addr))
      = some sched₂ := Sched.step_schedule.mpr ⟨hnew', hsched₂⟩
  refine ⟨{ s with
      sched := sched₁, call := some (d, addr), current := none, earlier := s.history },
    { s with
      sched := sched₂, call := none, current := some (operation fd addr), earlier := s.history },
    ?_, ?_, rfl, ?_, ?_, ?_, ?_⟩
  · simp only [step, hcall, hs₁, Option.map_some]
  · simp only [step, hzero, hns, hk, hs₂, Option.map_some]
  · obtain ⟨io, -, rfl⟩ := Sched.schedule_cases hsched₂
    exact hopen'
  · obtain ⟨io, -, rfl⟩ := Sched.schedule_cases hsched₂
    show sched₁.scheduled ++ _ = _
    rw [hsched₁]
  · have hact := Sched.schedule_activeOn hinv hnew' hsched₂ fd
    rw [show IoScheduler.activeOn _ fd = [] from hnone] at hact
    rw [hact]
    simp [operation]
  · show sched₂.io.cancelledSegment.filter _ = _
    rw [(Sched.schedule_cancelledSegment hinv hnew' hsched₂).1]
    show sched₁.io.cancelledSegment.filter _ = _
    rw [hcan, List.filter_append]
    congr 1
    rw [IoScheduler.activeOn, List.filter_filter]
    simp

/-- Consecutive calls of `wait_for_expiry_after`. -/
def calls (fuel : Nat) (ws : List (Duration × Nat)) : List (TimerAct K) :=
  ws.flatMap (fun w => [.wait w.1 w.2 fuel, .waitRest])

/-- Waits in a row: all but the last are cancelled. -/
theorem calls_ok (hM : M.Documented) {fuel : Nat} (hfuel : 2 ≤ fuel) (ws : List (Duration × Nat))
    (hlong : ∀ w ∈ ws, w.1.Accepted) (hnd : (ws.map Prod.snd).Nodup) (h : Inv fd s)
    (hcall : s.call = none) (hopen : M.isOpen s.sched.kernel fd = true)
    (hnew : ∀ w ∈ ws, operation fd w.2 ∉ s.sched.scheduled) :
    ∃ s', Transition.exec (step M fd) s (calls fuel ws) = some s' ∧ Inv fd s' ∧
      (ws ≠ [] → (s'.sched.io.activeOn fd).length = 1) ∧
      (s'.cancelledOn fd).length + (s'.sched.io.activeOn fd).length
        = (s.cancelledOn fd).length + (s.sched.io.activeOn fd).length + ws.length := by
  induction ws generalizing s with
  | nil => exact ⟨s, rfl, h, fun hne => absurd rfl hne, rfl⟩
  | cons w ws ih =>
    obtain ⟨d, addr⟩ := w
    obtain ⟨s₁, s₂, hs₁, hs₂, hcall₂, hopen₂, hsched₂, hact₂, hcan₂⟩ := wait_replaces hM h hcall
      hopen (hlong (d, addr) (by simp)) (hnew (d, addr) (by simp)) hfuel
    have h₂ : Inv fd s₂ := step_inv (step_inv h (a := .wait d addr fuel) trivial hs₁)
      (a := .waitRest) trivial hs₂
    rw [List.map_cons, List.nodup_cons] at hnd
    -- the remaining addresses are still unused
    have hnew₂ : ∀ w ∈ ws, operation fd w.2 ∉ s₂.sched.scheduled := by
      intro w hw
      rw [hsched₂, List.mem_append, not_or, List.mem_singleton]
      refine ⟨hnew w (by simp [hw]), fun heq => hnd.1 ?_⟩
      have haddr : w.2 = addr := congrArg AsyncIoOperation.addr heq
      show addr ∈ ws.map Prod.snd
      rw [← haddr]
      exact List.mem_map_of_mem hw
    obtain ⟨s', hexec, hinv', hone, hcount⟩ := ih (fun w hw => hlong w (by simp [hw])) hnd.2 h₂ hcall₂
      hopen₂ hnew₂
    refine ⟨s', ?_, hinv', fun _ => ?_, ?_⟩
    · show Transition.exec _ s (.wait d addr fuel :: .waitRest :: calls fuel ws) = _
      simp only [Transition.exec, hs₁, hs₂, Option.bind_some]
      exact hexec
    · by_cases hws : ws = []
      · subst hws
        rw [calls, List.flatMap_nil, Transition.exec, Option.some.injEq] at hexec
        rw [← hexec, hact₂]
        rfl
      · exact hone hws
    · rw [hcount, hact₂, hcan₂, List.length_append, List.length_singleton, List.length_cons]
      omega

/-! ### Runs -/

/-- **A wait supersedes the one before it.**  In every run on one timer, whatever durations are
    asked for and accepted, at most one operation is active on the timer, and every earlier wait
    had its result from a poll before the next call was made, or is cancelled.  On an open timer
    with nothing pending, `n` waits in a row for durations that are neither taken for zero nor
    converted to a negative number leave one active operation and `n - 1` cancelled ones; every
    duration of at least a nanosecond is one of these, unless its comparison or its conversion
    overflows 64 bits. -/
theorem waits_supersede (hM : M.Documented) (h : Reach M fd s) :
    (s.sched.io.activeOn fd).length ≤ 1 ∧ (∀ p ∈ s.earlier, s.Superseded p) ∧
      (∀ (ws : List (Duration × Nat)) (fuel : Nat), 2 ≤ fuel → ws ≠ [] →
        (∀ w ∈ ws, w.1.Accepted) → (ws.map Prod.snd).Nodup →
        (∀ w ∈ ws, operation fd w.2 ∉ s.sched.scheduled) →
        s.call = none → M.isOpen s.sched.kernel fd = true →
        (∀ a ∈ s.sched.io.operations, a.fd ≠ fd) →
        ∃ s', Transition.exec (step M fd) s (calls fuel ws) = some s' ∧
          (s'.sched.io.activeOn fd).length = 1 ∧ (s'.cancelledOn fd).length = ws.length - 1 ∧
          ∀ a ∈ s'.cancelledOn fd, (s'.sched.io.state a).result = some cancelledResult) ∧
      ∀ d : Ticks, 1 ≤ d.wholeNanoseconds → d.wholeNanoseconds < 2 ^ 63 → d.Compares →
        d.Converts → (Duration.ticks d).Accepted := by
  have hinv : Inv fd s :=
    Transition.Reach.invariant (Inv fd) (fun _ => init_inv)
      (fun _ _ _ hi hok hs => step_inv hi hok hs) h
  refine ⟨hinv.le_one, hinv.earlier, ?_, fun d => Duration.accepted_of_ticks⟩
  intro ws fuel hfuel hne hlong hnd hnew hcall hopen hfresh
  obtain ⟨s', hexec, hinv', hone, hcount⟩ := calls_ok hM hfuel ws hlong hnd hinv hcall hopen hnew
  -- a fresh timer has nothing on its descriptor
  have hon : s.sched.io.activeOn fd = [] := by
    rw [IoScheduler.activeOn, List.filter_eq_nil_iff]
    intro a ha
    have hmem : a ∈ s.sched.io.operations := by
      rw [← s.sched.io.segments_append]
      exact List.mem_append_left _ ha
    simpa using hfresh a hmem
  have hoff : s.cancelledOn fd = [] := by
    rw [cancelledOn, List.filter_eq_nil_iff]
    intro a ha
    have hmem : a ∈ s.sched.io.operations := by
      rw [← s.sched.io.segments_append]
      exact List.mem_append_right _ ha
    simpa using hfresh a hmem
  rw [hon, hoff, hone hne] at hcount
  refine ⟨s', hexec, hone hne, by simp at hcount; omega, fun a ha => ?_⟩
  rw [hinv'.sched.rep.cancelled a (List.mem_filter.mp ha).1]

/-- The quiet kernel with timers that never expire. -/
def quietTimers : TimerKernel Unit :=
  { quietKernel with
    settime := fun _ spec _ => if spec.Valid then .ok () else .error 22 }

theorem quietTimers_documented : quietTimers.Documented :=
  ⟨fun _ _ _ _ hvalid => ⟨(), if_pos hvalid⟩, fun _ _ _ _ _ _ => rfl⟩

/-- The start of a run over the quiet kernel. -/
def quietTimer : Timer Unit := ⟨quietStart, none, none, [], []⟩

/-- `std::nano`. -/
def nanoseconds : Ratio := ⟨1, nano, Nat.zero_lt_one, by decide, by decide, by decide⟩

/-- `std::ratio<1>`. -/
def seconds : Ratio := ⟨1, 1, Nat.zero_lt_one, Nat.zero_lt_one, by decide, by decide⟩

/-- One second, as `std::chrono::seconds(1)`. -/
def oneSecond : Ticks := ⟨.int64, ⟨1, by decide⟩, seconds⟩

/-- `std::chrono::duration<std::uint64_t, std::nano>(1ull << 63)`. -/
def longNanoseconds : Ticks := ⟨.uint64, ⟨2 ^ 63, by decide⟩, nanoseconds⟩

/-- The conversion of an unsigned count of nanoseconds wraps it to a negative number, which
    `timerfd_settime` rejects: the wait throws, and leaves nothing on a fresh timer. -/
theorem unsigned_wait_throws :
    ¬ ∀ (ws : List (Ticks × Nat)) (fuel : Nat), 2 ≤ fuel → ws ≠ [] →
      (∀ w ∈ ws, 1 ≤ w.1.wholeNanoseconds) → (ws.map Prod.snd).Nodup →
      ∃ s', Transition.exec (step quietTimers 5) quietTimer
          (calls fuel (ws.map (fun w => (.ticks w.1, w.2)))) = some s' ∧
        (s'.sched.io.activeOn 5).length = 1 ∧ (s'.cancelledOn 5).length = ws.length - 1 := by
  intro hall
  obtain ⟨s', hexec, hone, -⟩ := hall [(longNanoseconds, 1)] 2 (by decide) (by decide)
    (by intro w hw; rw [List.mem_singleton.mp hw]; decide) (by decide)
  have hnone : ((Transition.exec (step quietTimers 5) quietTimer
      (calls 2 [(.ticks longNanoseconds, 1)])).any
        (fun s => decide ((s.sched.io.activeOn 5).length = 0))) = true := by decide
  rw [List.map_singleton] at hexec
  rw [hexec, Option.any_some, decide_eq_true_eq] at hnone
  omega

/-- Three waits of one second on a new timer leave two cancelled operations. -/
theorem waits_supersede_thrice :
    ∃ s' : Timer Unit, (s'.sched.io.activeOn 5).length = 1 ∧ (s'.cancelledOn 5).length = 2 := by
  have hstart : Reach quietTimers 5 quietTimer := .start ⟨quietStart, quietStart_init, rfl⟩
  have hlaw := waits_supersede quietTimers_documented hstart
  have hsecond : (Duration.ticks oneSecond).Accepted :=
    hlaw.2.2.2 oneSecond (by decide) (by decide) (by decide) (by decide)
  obtain ⟨s', -, hone, htwo, -⟩ := hlaw.2.2.1
    [(.ticks oneSecond, 1), (.ticks oneSecond, 2), (.ticks oneSecond, 3)] 2 (by decide) (by simp)
    (by intro w hw; simp at hw; rcases hw with rfl | rfl | rfl <;> exact hsecond) (by decide)
    (by simp [quietTimer, quietStart]) rfl rfl (by decide)
  exact ⟨s', hone, htwo⟩

end Timer

end Exios
