import Exios.Objects.Timer

namespace Exios

/-!
# Timer — is a wait armed?

There are two ways to wait for a duration: the member `Timer::wait_for_expiry_after` and the
free function `wait_for_timer_expiry_after`, which makes a timer of its own.  Both end in
`timerfd_settime` and `queue_timer_operation`; only the member tests for zero, and it does so
before the duration is truncated to nanoseconds.  `timerfd_settime` disarms the timer when it
is given the value zero, and the queued operation then never completes.

* `WaitEnd` — how a call ends, with the `itimerspec` it passed on;
* `Timer.step_waitRest` — the member of `Timer.step` ends this way;
* `Timer.armed_iff` — the member posts what compares equal to zero, and both leave an armed wait
  from one nanosecond on, as long as the conversion to nanoseconds does not overflow.
-/

/-- A kernel that can make timers: `timerfd_create`. -/
structure TimerfdKernel (K : Type) extends TimerKernel K where
  create : K → Except Nat (Int × K)

/-- How a call that starts a wait ends. -/
inductive WaitEnd (K : Type)
  /-- The completion is posted to the context. -/
  | posted
  /-- `std::system_error` is thrown. -/
  | threw (errno : Nat)
  /-- `timerfd_settime(fd, 0, &spec, nullptr)` has succeeded and the operation is queued. -/
  | queued (fd : Int) (spec : Itimerspec) (sched : Sched K)
  /-- The arithmetic on the duration is not defined: nothing is known of what follows. -/
  | undefined

variable {K : Type}

/-- The call did not throw. -/
def WaitEnd.Normal : WaitEnd K → Prop
  | .threw _ => False
  | _ => True

/-- What a call leaves behind: a posted completion, or a queued operation whose timer is armed
    for the duration truncated to nanoseconds. -/
def WaitEnd.Armed (d : Ticks) (addr : Nat) : WaitEnd K → Prop
  | .posted => True
  | .threw _ | .undefined => False
  | .queued fd spec sched => Timer.operation fd addr ∈ sched.io.operations ∧
      ¬ (spec.tvSec = 0 ∧ spec.tvNsec = 0) ∧ 0 ≤ spec.tvNsec ∧ spec.tvNsec < 10 ^ 9 ∧
      spec.tvSec * 10 ^ 9 + spec.tvNsec = d.wholeNanoseconds

namespace Timer

/-! ### The two entry points -/

/-- `timerfd_settime` and `queue_timer_operation`, the common end of both. -/
def armAndQueue (M : TimerKernel K) (fd : Int) (d : Duration) (addr : Nat) (sched : Sched K) :
    Option (WaitEnd K) :=
  match d.toNanoseconds with
  | none => some .undefined
  | some ns =>
    let timerval := convertToItimerspec ns
    match M.settime fd timerval sched.kernel with
    | .error errno => some (.threw errno)
    | .ok k =>
      (Sched.step M.toKernel { sched with kernel := k } (.schedule (operation fd addr))).map
        (.queued fd timerval)

/-- `wait_for_expiry_after` behind its `cancel()`, in whatever state that and the critical
    sections of other threads have left the scheduler. -/
def waitRest (M : TimerKernel K) (fd : Int) (d : Duration) (addr : Nat) (sched : Sched K) :
    Option (WaitEnd K) :=
  match d.isZero with
  | none => some .undefined
  | some true => some .posted
  | some false => armAndQueue M fd d addr sched

/-- `wait_for_timer_expiry_after`. -/
def waitForTimerExpiryAfter (M : TimerfdKernel K) (d : Duration) (addr : Nat) (sched : Sched K) :
    Option (WaitEnd K) :=
  match M.create sched.kernel with
  | .error errno => some (.threw errno)
  | .ok (fd, k) => armAndQueue M.toTimerKernel fd d addr { sched with kernel := k }

/-- The timer after a call that had been under way. -/
def afterWait (s : Timer K) (addr : Nat) : WaitEnd K → Option (Timer K)
  | .posted => some { s with call := none, immediate := s.immediate ++ [addr] }
  | .threw _ => some { s with call := none }
  | .queued fd _ sched =>
    some { s with sched := sched, call := none, current := some (operation fd addr) }
  | .undefined => none

/-- The second half of `wait_for_expiry_after` is the one of `step`. -/
theorem step_waitRest (M : TimerKernel K) (fd : Int) {s : Timer K} {d : Duration} {addr : Nat}
    (hcall : s.call = some (d, addr)) :
    step M fd s .waitRest = (waitRest M fd d addr s.sched).bind (s.afterWait addr) := by
  rw [step, hcall, waitRest]
  dsimp only
  -- the casts trap, the duration is zero, or the timer is armed and the wait queued
  cases d.isZero with
  | none => rfl
  | some zero =>
    cases zero with
    | true => rfl
    | false =>
      simp only [armAndQueue]
      cases d.toNanoseconds with
      | none => rfl
      | some ns =>
        cases hset : M.settime fd (convertToItimerspec ns) s.sched.kernel with
        | error e =>
          simp only [hset]
          rfl
        | ok k =>
          simp only [hset, Option.bind_map]
          cases Sched.step M.toKernel { s.sched with kernel := k } (.schedule (operation fd addr)) <;>
            rfl

/-! ### Armed waits -/

/-- The value that leaves a timer disarmed. -/
theorem convertToItimerspec_zero_iff {val : Int} (h : 0 ≤ val) :
    ((convertToItimerspec val).tvSec = 0 ∧ (convertToItimerspec val).tvNsec = 0) ↔ val = 0 := by
  have hsplit := Int.mul_tdiv_add_tmod val kNanosecondsPerSecond
  constructor
  · rintro ⟨hsec, hnsec⟩
    rw [convertToItimerspec] at hsec hnsec
    simp only at hsec hnsec
    rw [hsec, hnsec] at hsplit
    omega
  · rintro rfl
    exact ⟨rfl, rfl⟩

/-- The split into seconds and nanoseconds is exact. -/
theorem convertToItimerspec_sum (val : Int) :
    (convertToItimerspec val).tvSec * 10 ^ 9 + (convertToItimerspec val).tvNsec = val := by
  have hsplit := Int.mul_tdiv_add_tmod val kNanosecondsPerSecond
  rw [Int.mul_comm] at hsplit
  exact hsplit

/-- A scheduled operation is in the scheduler's list. -/
theorem mem_operations_schedule {s s' : IoScheduler} {isOpen : Bool} {op : AsyncIoOperation}
    (h : s.schedule isOpen op = .ok s') : op ∈ s'.operations := by
  rw [IoScheduler.schedule] at h
  simp only at h
  split at h
  · exact absurd h (by simp)
  · rw [Except.ok.injEq] at h
    rw [← h]
    simp [Cursor.insert]

/-- **What is queued** is armed exactly if the conversion is exact and its result is not zero. -/
theorem armAndQueue_armed {M : TimerKernel K} {fd : Int} {d : Ticks} {addr : Nat} {sched : Sched K}
    {e : WaitEnd K} (hcount : 0 ≤ d.count.val) (hrepresentable : d.wholeNanoseconds < 2 ^ 63)
    (he : armAndQueue M fd (.ticks d) addr sched = some e) (hnormal : e.Normal) :
    e.Armed d addr ↔ d.Converts ∧ 1 ≤ d.wholeNanoseconds := by
  have hexact := Ticks.toNanoseconds_eq_iff hcount hrepresentable
  have hnanoseconds : (Duration.ticks d).toNanoseconds = d.toNanoseconds := rfl
  rw [armAndQueue, hnanoseconds] at he
  cases hns : d.toNanoseconds with
  | none =>
    -- signed arithmetic has overflowed
    rw [hns] at he hexact
    obtain rfl : WaitEnd.undefined = e := by simpa using he
    exact iff_of_false id (fun h => absurd (hexact.mpr h.1) (by simp))
  | some ns =>
    rw [hns] at he
    rw [hns, Option.some.injEq] at hexact
    dsimp only at he
    split at he
    · rw [Option.some.injEq] at he
      rw [← he] at hnormal
      exact absurd hnormal (by simp [WaitEnd.Normal])
    · rename_i k _
      obtain ⟨sched', hstep, rfl⟩ := Option.map_eq_some_iff.mp he
      have hop : operation fd addr ∈ sched'.io.operations := by
        obtain ⟨_, hsched⟩ := Sched.step_schedule.mp hstep
        obtain ⟨io, hio, rfl⟩ := Sched.schedule_cases hsched
        exact mem_operations_schedule hio
      have hsum := convertToItimerspec_sum ns
      rw [← hexact]
      constructor
      · rintro ⟨_, hne, hnsec, _, hvalue⟩
        have heq : ns = d.wholeNanoseconds := hsum.symm.trans hvalue
        have hnonneg : 0 ≤ d.wholeNanoseconds := Ticks.wholeNanoseconds_nonneg hcount
        have hne' : ns ≠ 0 := fun h0 => hne ((convertToItimerspec_zero_iff (by omega)).mpr h0)
        exact ⟨heq, by omega⟩
      · rintro ⟨rfl, hone⟩
        have hnonneg : 0 ≤ d.wholeNanoseconds := by omega
        have hvalid := convertToItimerspec_valid hnonneg
        have hzero := convertToItimerspec_zero_iff hnonneg
        exact ⟨hop, fun h0 => absurd (hzero.mp h0) (by omega), hvalid.2.1, hvalid.2.2, hsum⟩

/-- **Armed waits.** Let a call of one of the entry points return, for a non-negative count of ticks
    of any length in any integral type, whose value in nanoseconds is representable, in whatever
    state of the scheduler.  The member has then posted the completion or left an armed wait exactly
    if the duration compares equal to zero, or compares unequal, is at least one nanosecond and
    converts without overflow; the free function exactly if it is at least one nanosecond and
    converts without overflow. -/
theorem armed_iff (M : TimerfdKernel K) (sched : Sched K) (addr : Nat) {d : Ticks}
    (hcount : 0 ≤ d.count.val) (hrepresentable : d.wholeNanoseconds < 2 ^ 63) :
    (∀ fd e, waitRest M.toTimerKernel fd (.ticks d) addr sched = some e → e.Normal →
      (e.Armed d addr ↔ d.isZero = some true ∨
        (d.isZero = some false ∧ d.Converts ∧ 1 ≤ d.wholeNanoseconds))) ∧
    (∀ e, waitForTimerExpiryAfter M (.ticks d) addr sched = some e → e.Normal →
      (e.Armed d addr ↔ d.Converts ∧ 1 ≤ d.wholeNanoseconds)) := by
  constructor
  · intro fd e he hnormal
    have hzero : (Duration.ticks d).isZero = d.isZero := rfl
    rw [waitRest, hzero] at he
    cases hz : d.isZero with
    | none =>
      rw [hz] at he
      obtain rfl : WaitEnd.undefined = e := by simpa using he
      exact iff_of_false id (by simp)
    | some zero =>
      rw [hz] at he
      cases zero with
      | true =>
        -- the zero test, which posts
        obtain rfl : WaitEnd.posted = e := by simpa using he
        exact iff_of_true trivial (Or.inl rfl)
      | false =>
        rw [armAndQueue_armed hcount hrepresentable he hnormal]
        simp
  · intro e he hnormal
    rw [waitForTimerExpiryAfter] at he
    split at he
    · rw [Option.some.injEq] at he
      rw [← he] at hnormal
      exact absurd hnormal (by simp [WaitEnd.Normal])
    · exact armAndQueue_armed hcount hrepresentable he hnormal

/-- The quiet kernel, where every new timer gets the descriptor 5. -/
def quietTimerfds : TimerfdKernel Unit :=
  { quietTimers with create := fun _ => .ok (5, ()) }

/-- A wait of one second is armed, by either entry point. -/
theorem armed_iff_oneSecond :
    (∃ e, waitRest quietTimers 5 (.ticks oneSecond) 1 quietStart = some e ∧ e.Normal ∧
      e.Armed oneSecond 1) ∧
    (∃ e, waitForTimerExpiryAfter quietTimerfds (.ticks oneSecond) 1 quietStart = some e ∧ e.Normal ∧
      e.Armed oneSecond 1) := by
  have h := armed_iff quietTimerfds quietStart 1 (d := oneSecond) (by decide) (by decide)
  have hconverts : oneSecond.Converts := by decide
  exact ⟨⟨_, rfl, trivial, (h.1 5 _ rfl trivial).mpr (Or.inr ⟨by decide, hconverts, by decide⟩)⟩,
    ⟨_, rfl, trivial, (h.2 _ rfl trivial).mpr ⟨hconverts, by decide⟩⟩⟩

/-- `std::pico`. -/
def picoseconds : Ratio := ⟨1, 1000000000000, Nat.zero_lt_one, by decide, by decide, by decide⟩

/-- `std::chrono::duration<int, std::pico>(500)`. -/
def halfNanosecond : Ticks := ⟨⟨4, true⟩, ⟨500, by decide⟩, picoseconds⟩

/-- `std::chrono::nanoseconds(0)`. -/
def zeroNanoseconds : Ticks := ⟨.int64, ⟨0, by decide⟩, nanoseconds⟩

/-- `std::ratio<8388608, 5859375>`, whose ticks are 2^32 / 3 nanoseconds long. -/
def longTicks : Ratio := ⟨8388608, 5859375, by decide, by decide, by decide, by decide⟩

/-- `std::chrono::duration<std::uint64_t, std::ratio<8388608, 5859375>>(4294967296)`. -/
def wrappedDuration : Ticks := ⟨.uint64, ⟨4294967296, by decide⟩, longTicks⟩

/-- A wait of half a nanosecond on a timer, and a free wait of zero or of a duration whose
    conversion wraps around to zero, queue an operation with the value that disarms. -/
theorem wait_left_disarmed :
    (∃ e, waitRest quietTimers 5 (.ticks halfNanosecond) 1 quietStart = some e ∧ e.Normal ∧
      ¬ e.Armed halfNanosecond 1) ∧
    (∃ e, waitForTimerExpiryAfter quietTimerfds (.ticks zeroNanoseconds) 1 quietStart = some e ∧
      e.Normal ∧ ¬ e.Armed zeroNanoseconds 1) ∧
    (wrappedDuration.wholeNanoseconds = 6148914691236517205 ∧
      ∃ e, waitForTimerExpiryAfter quietTimerfds (.ticks wrappedDuration) 1 quietStart = some e ∧
        e.Normal ∧ ¬ e.Armed wrappedDuration 1) := by
  refine ⟨⟨_, rfl, trivial, ?_⟩, ⟨_, rfl, trivial, ?_⟩, by decide, ⟨_, rfl, trivial, ?_⟩⟩
  · rintro ⟨_, hne, _⟩
    exact hne ⟨rfl, rfl⟩
  · rintro ⟨_, hne, _⟩
    exact hne ⟨rfl, rfl⟩
  · rintro ⟨_, hne, _⟩
    exact hne ⟨rfl, rfl⟩

end Timer

end Exios
