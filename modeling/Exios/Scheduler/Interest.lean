import Exios.Scheduler.Cancellation

namespace Exios

/-!
# Scheduler — registered interest

Every active operation waits for one direction on its descriptor; it is only ever performed
when the epoll registration of the descriptor contains that direction.

* `Interested` — each active operation's interest bit is registered;
* `KeepsInterest` — the condition on a step: `schedule(op)` does not take the back shortcut
  while an operation waits on the same descriptor for the other direction (the shortcut
  starts the scan behind those operations, so their bits are not collected), and no
  descriptor is closed;
* `interested_of_reach` — runs of such steps lose no interest.
-/

/-! ### Masks -/

/-- Collecting interests keeps the bits of the mask it starts from. -/
theorem foldl_interest_init (xs : List AsyncIoOperation) {m bit : Events} (h : Events.Has m bit) :
    Events.Has (xs.foldl (fun m a => m ||| a.interest) m) bit := by
  induction xs generalizing m with
  | nil => exact h
  | cons x xs ih => exact ih (h.or_left x.interest)

/-- Collecting interests collects the bit of every operation. -/
theorem foldl_interest_mem {xs : List AsyncIoOperation} {a : AsyncIoOperation} (h : a ∈ xs)
    (m : Events) : Events.Has (xs.foldl (fun m a => m ||| a.interest) m) a.interest := by
  induction xs generalizing m with
  | nil => exact absurd h (by simp)
  | cons x xs ih =>
    rcases List.mem_cons.mp h with rfl | h
    · exact foldl_interest_init xs ((Events.has_self _).or_right m)
    · exact ih h (m ||| x.interest)

namespace IoScheduler

/-- Each active operation's interest bit is registered for its descriptor. -/
def Interested (s : IoScheduler) : Prop :=
  ∀ op ∈ s.activeSegment, ∃ mask, s.interest op.fd = some mask ∧ Events.Has mask op.interest

instance (s : IoScheduler) : Decidable s.Interested :=
  decidable_of_iff (∀ op ∈ s.activeSegment,
    (s.interest op.fd).any (fun mask => decide (Events.Has mask op.interest)) = true)
    (by simp [Interested, Option.any_eq_true])

/-- `schedule(op)` leaves out the interest of a waiting operation: it takes the back shortcut
    while an operation waits on the descriptor for the other direction. -/
def DropsInterest (s : IoScheduler) (op : AsyncIoOperation) : Prop :=
  TakesBack s.activeSegment op.fd ∧ ∃ a ∈ s.activeOn op.fd, a.interest ≠ op.interest

instance (s : IoScheduler) (op : AsyncIoOperation) : Decidable (s.DropsInterest op) :=
  inferInstanceAs (Decidable (_ ∧ _))

/-! ### One lemma per critical section -/

/-- The mask of `schedule` has the bits of the new operation and of those waiting. -/
theorem scheduleMask_has {s : IoScheduler} {op a : AsyncIoOperation} (hdrop : ¬ s.DropsInterest op)
    (ha : a = op ∨ a ∈ s.activeOn op.fd) :
    Events.Has (scheduleMask s.activeSegment op) a.interest := by
  unfold scheduleMask
  by_cases hback : TakesBack s.activeSegment op.fd
  · rw [if_pos hback]
    -- the mask is the operation's own, so nobody on the descriptor may want another one
    have hsame : a.interest = op.interest := by
      rcases ha with rfl | ha
      · rfl
      · by_contra hne
        exact hdrop ⟨hback, a, ha, hne⟩
    rw [hsame]
    exact Events.has_self _
  · rw [if_neg hback]
    rcases ha with rfl | ha
    · exact foldl_interest_init _ (Events.has_self _)
    · exact foldl_interest_mem ha _

/-- Scheduling keeps every active operation's interest registered, unless the shortcut at the back
    of the list passes over the operations on the same descriptor. -/
theorem schedule_interested {s s' : IoScheduler} {log : List AsyncIoOperation} {extra : Nat}
    (hinv : s.Inv log extra) {isOpen : Bool} {op : AsyncIoOperation} (hnew : op ∉ s.operations)
    (hdrop : ¬ s.DropsInterest op) (hint : s.Interested) (h : s.schedule isOpen op = .ok s') :
    s'.Interested := by
  intro a ha
  have ha' : a = op ∨ a ∈ s.activeSegment := (mem_schedule_active hinv hnew h a).mp ha
  rw [schedule_interest hinv h]
  by_cases hfd : a.fd = op.fd
  · refine ⟨_, by rw [hfd, Function.update_self], scheduleMask_has hdrop ?_⟩
    exact ha'.imp id (fun hm => List.mem_filter.mpr ⟨hm, by simpa using hfd⟩)
  · rw [Function.update_of_ne hfd]
    rcases ha' with rfl | ha'
    · exact absurd rfl hfd
    · exact hint a ha'

/-- A cancellation keeps it: what stays active is on other descriptors, whose registrations it
    does not touch. -/
theorem cancelSection_interested {s s' : IoScheduler} {log : List AsyncIoOperation} {extra : Nat}
    (hinv : s.Inv log extra) {fd : Int} {fuel : Nat} {isOpen found : Bool} (hint : s.Interested)
    (h : s.cancelSection fuel isOpen fd = some (.ok (s', found))) : s'.Interested := by
  obtain ⟨lo, eq, hi, hsplit, ⟨-, rfl, -⟩ | ⟨heq, -, rfl, -⟩⟩ := cancelSection_ok hinv h
  · exact hint
  · obtain ⟨-, hact, -⟩ := afterCancel_segments hinv hsplit heq isOpen
    intro a ha
    rw [hact] at ha
    have hmem : a ∈ s.activeSegment := by
      rw [hsplit.append]
      simp only [List.mem_append] at ha ⊢
      tauto
    have hfd : a.fd ≠ fd := by
      rcases List.mem_append.mp ha with ha | ha
      · have := hsplit.below a ha; omega
      · have := hsplit.above a ha; omega
    -- only the registration of `fd` may be gone
    have hreg : (s.afterCancel isOpen fd lo eq hi).interest a.fd = s.interest a.fd := by
      unfold afterCancel epollDel
      cases isOpen <;> cases s.interest fd <;> simp [hfd]
    rw [hreg]
    exact hint a hmem

/-- An event keeps it: what is left pending on the descriptor is registered again, or nothing is.
    -/
theorem processEvent_interested {K : Type} {M : Kernel K} {tw : Nat} {ev : EpollEvent}
    {st st' : Notify K} {log : List AsyncIoOperation} (hinv : st.sched.Inv log st.total)
    (hint : st.sched.Interested) (h : processEvent M tw ev st = .ok st') : st'.sched.Interested := by
  rcases processEvent_ok hinv h with ⟨-, rfl⟩ | ⟨-, done, kept, hspec⟩
  · exact hint
  · intro a ha
    rw [hspec.completed.active, List.mem_filter, decide_eq_true_eq] at ha
    rw [hspec.interest]
    by_cases hfd : a.fd = ev.fd
    · -- an operation that stays on the descriptor is among those registered again
      have hkept : a ∈ kept := by
        have hmem : a ∈ done ++ kept :=
          hspec.perm.mem_iff.mp (List.mem_filter.mpr ⟨ha.1, by simpa using hfd⟩)
        exact (List.mem_append.mp hmem).resolve_left ha.2
      have hne : kept ≠ [] := List.ne_nil_of_mem hkept
      exact ⟨_, by rw [hfd, Function.update_self, if_neg hne], foldl_interest_mem hkept _⟩
    · rw [Function.update_of_ne hfd]
      exact hint a ha.1

end IoScheduler

/-! ### Runs -/

namespace Sched

variable {K : Type} {M : Kernel K} {s s' : Sched K}

/-- The condition on the steps: nothing is scheduled over the interest of a waiting operation,
    and descriptors are kept open. -/
def KeepsInterest (s : Sched K) : SchedAct K → Prop
  | .schedule op => ¬ s.io.DropsInterest op
  | .forget _ => False
  | _ => True

instance (s : Sched K) (a : SchedAct K) : Decidable (KeepsInterest s a) :=
  match a with
  | .schedule op => inferInstanceAs (Decidable (¬ s.io.DropsInterest op))
  | .forget _ => isFalse id
  | .cancel _ _ => isTrue trivial
  | .pollCancellations _ => isTrue trivial
  | .pollNotifications _ _ => isTrue trivial
  | .wake _ => isTrue trivial
  | .kernel _ => isTrue trivial

/-- **The step lemma** for registered interest. -/
theorem step_interested {a : SchedAct K} (hinv : s.Inv) (hok : KeepsInterest s a)
    (hint : s.io.Interested) (h : step M s a = some s') : s'.io.Interested := by
  cases a with
  | schedule op =>
    obtain ⟨hnew, hs⟩ := step_schedule.mp h
    obtain ⟨io, hio, rfl⟩ := schedule_cases hs
    exact IoScheduler.schedule_interested hinv.rep (fun hm => hnew (hinv.mem_operations hm)) hok
      hint hio
  | cancel fd fuel =>
    obtain ⟨found, hs⟩ := step_cancel.mp h
    obtain ⟨io, hio, rfl⟩ := cancel_cases hs
    exact IoScheduler.cancelSection_interested hinv.rep hint hio
  | pollCancellations tw =>
    obtain ⟨p, hp⟩ := step_pollCancellations.mp h
    obtain ⟨w, rfl⟩ := pollCancellations_cases hinv hp
    intro a ha
    exact hint a (by simpa [IoScheduler.activeSegment] using ha)
  | pollNotifications events tw =>
    obtain ⟨n, hn⟩ := step_pollNotifications.mp h
    obtain ⟨st, done, hst, -, rfl, rfl⟩ := pollNotifications_cases hinv hn
    exact IoScheduler.processNotifications_induct (fun t => t.sched.Interested)
      (fun _ _ _ hi hp he => IoScheduler.processEvent_interested hi hp he) events
      (hinv.rep.start s.kernel) hint hst
  | wake tw =>
    rw [step, Option.some.injEq] at h
    exact h ▸ hint
  | kernel k =>
    rw [step, Option.some.injEq] at h
    exact h ▸ hint
  -- only closing a descriptor forgets its registration behind the scheduler's back
  | forget fd => exact absurd hok id

/-- **No lost interest.**  In every run whose steps schedule nothing over the interest of a
    waiting operation, with descriptors kept open, each active operation stays registered. -/
theorem interested_of_reach (h : Reach M KeepsInterest s) : s.io.Interested := by
  have hboth : s.Inv ∧ s.io.Interested := by
    refine Transition.Reach.invariant (fun t => t.Inv ∧ t.io.Interested) ?_ ?_ h
    · rintro t ht
      refine ⟨init_inv ht, ?_⟩
      obtain ⟨wakeFd, k, rfl⟩ := ht
      intro a ha
      exact absurd ha (by simp [IoScheduler.init, IoScheduler.activeSegment])
    · rintro t a t' ⟨hinv, hint⟩ hok hs
      exact ⟨step_inv hinv hs, step_interested hinv hok hint hs⟩
  exact hboth.2

/-- Reads on 3 and 5, then a write on 3: the front shortcut collects the waiting read. -/
theorem interested_front_write :
    ∃ s : Sched Unit, s.io.activeSegment.length = 3 ∧ s.io.Interested := by
  have hrun : ∃ s, Reach quietKernel KeepsInterest s ∧
      decide (s.io.activeSegment.length = 3) = true :=
    Transition.exists_reach quietStart_init
      [.schedule ⟨1, 3, .ioRead⟩, .schedule ⟨2, 5, .ioRead⟩, .schedule ⟨3, 3, .ioWrite⟩] _ (by decide)
  obtain ⟨s, hs, hlen⟩ := hrun
  exact ⟨s, of_decide_eq_true hlen, interested_of_reach hs⟩

/-- No descriptor is closed. -/
def KeepsOpen (_ : Sched K) : SchedAct K → Prop
  | .forget _ => False
  | _ => True

instance (s : Sched K) (a : SchedAct K) : Decidable (KeepsOpen s a) :=
  match a with
  | .forget _ => isFalse id
  | .schedule _ => isTrue trivial
  | .cancel _ _ => isTrue trivial
  | .pollCancellations _ => isTrue trivial
  | .pollNotifications _ _ => isTrue trivial
  | .wake _ => isTrue trivial
  | .kernel _ => isTrue trivial

/-- Reads on 3 and 5, then a write on 5: the registration of 5 no longer has the read. -/
theorem back_shortcut_drops_read :
    ¬ ∀ s : Sched Unit, Reach quietKernel KeepsOpen s → s.io.Interested := by
  intro hall
  have hrun : ∃ s, Reach quietKernel KeepsOpen s ∧ decide (¬ s.io.Interested) = true :=
    Transition.exists_reach quietStart_init
      [.schedule ⟨1, 3, .ioRead⟩, .schedule ⟨2, 5, .ioRead⟩, .schedule ⟨3, 5, .ioWrite⟩] _ (by decide)
  obtain ⟨s, hs, hlost⟩ := hrun
  exact of_decide_eq_true hlost (hall s hs)

end Sched

end Exios
