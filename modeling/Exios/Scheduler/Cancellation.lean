import Exios.Scheduler.Runs

namespace Exios

/-!
# Scheduler — when `cancel` returns

`cancel(fd)` splices the operations on `fd` in front of `begin_cancelled_`, within one list.
The same-list `splice` walks to the end iterator of the range while it moves the range in
front of `before`; when the two iterators coincide, it never meets it again.

* `CancelSpec` — what a `cancel(fd)` is for: the active operations on `fd` become the front
  of the cancelled segment, everything else stays;
* `Cancellable` — the states in which the range does not end at the insertion point (or is
  too short to matter);
* `cancel_returns_iff_cancellable` — `cancel(fd)` returns with its specification met exactly
  in those states.
-/

namespace IoScheduler

/-- The active operations on a descriptor. -/
def activeOn (s : IoScheduler) (fd : Int) : List AsyncIoOperation :=
  s.activeSegment.filter (fun a => decide (a.fd = fd))

/-- The active operations on a descriptor are distinct. -/
theorem Inv.nodup_activeOn {s : IoScheduler} {log : List AsyncIoOperation} {extra : Nat}
    (hinv : s.Inv log extra) (fd : Int) : (s.activeOn fd).Nodup :=
  hinv.nodup_active.filter _

/-- What `cancel(fd)` is for. -/
structure CancelSpec (s s' : IoScheduler) (fd : Int) : Prop where
  active : s'.activeSegment = s.activeSegment.filter (fun a => decide (a.fd ≠ fd))
  cancelled : s'.cancelledSegment = s.activeOn fd ++ s.cancelledSegment
  operations : s'.operations = s'.activeSegment ++ s'.cancelledSegment
  marked : ∀ op ∈ s.activeOn fd, (s'.state op).cancelled = true
  others : ∀ op, op ∉ s.activeOn fd → s'.state op = s.state op
  cursor : s'.beginCancelled = (s.activeOn fd).head?.or s.beginCancelled

/-- At most one active operation is on `fd`, or some active operation has a larger descriptor,
    or the active operations on `fd` are the whole list. -/
def Cancellable (s : IoScheduler) (fd : Int) : Prop :=
  (s.activeOn fd).length ≤ 1 ∨ (∃ a ∈ s.activeSegment, fd < a.fd) ∨
    ∀ a ∈ s.operations, a ∈ s.activeOn fd

instance (s : IoScheduler) (fd : Int) : Decidable (s.Cancellable fd) :=
  inferInstanceAs (Decidable (_ ∨ _ ∨ _))

/-- The active operations on the descriptor are the whole list when there is nothing else. -/
theorem all_activeOn_iff {s : IoScheduler} {log : List AsyncIoOperation} {extra : Nat}
    (hinv : s.Inv log extra) {fd : Int} {lo eq hi : List AsyncIoOperation}
    (hsplit : FdSplit s.activeSegment fd lo eq hi) :
    (∀ a ∈ s.operations, a ∈ eq) ↔ lo = [] ∧ hi = [] ∧ s.cancelledSegment = [] := by
  have hops : s.operations = lo ++ (eq ++ (hi ++ s.cancelledSegment)) := by
    rw [← s.segments_append, hsplit.append]; simp
  constructor
  · intro hall
    -- a smaller descriptor is not `fd`
    have hlo : lo = [] := by
      rw [List.eq_nil_iff_forall_not_mem]
      intro x hx
      have := hsplit.below x hx
      have := hsplit.on x (hall x (by rw [hops]; simp [hx]))
      omega
    -- and what comes after the range is not in it
    have htail : hi ++ s.cancelledSegment = [] := by
      rw [List.eq_nil_iff_forall_not_mem]
      intro x hx
      have hnd := (List.nodup_append.mp (hinv.nodup_split hsplit)).2.1
      have hmem : x ∈ s.operations := by
        rw [hops]
        exact List.mem_append_right _ (List.mem_append_right _ hx)
      exact List.disjoint_of_nodup_append hnd (hall x hmem) hx
    exact ⟨hlo, List.append_eq_nil_iff.mp htail⟩
  · rintro ⟨hlo, hhi, hcan⟩ a ha
    rw [hops, hlo, hhi, hcan] at ha
    simpa using ha

/-- On a split segment the condition is the one of the splice. -/
theorem cancellable_iff_movable {s : IoScheduler} {log : List AsyncIoOperation} {extra : Nat}
    (hinv : s.Inv log extra) {fd : Int} {lo eq hi : List AsyncIoOperation}
    (hsplit : FdSplit s.activeSegment fd lo eq hi) :
    s.Cancellable fd ↔ IntrusiveList.Movable lo eq hi s.cancelledSegment := by
  have hon : s.activeOn fd = eq := hsplit.filter_on
  -- the operations above `fd` are what is behind the range
  have habove : (∃ a ∈ s.activeSegment, fd < a.fd) ↔ hi ≠ [] := by
    constructor
    · rintro ⟨a, ha, hlt⟩ rfl
      rw [hsplit.append, List.append_nil] at ha
      rcases List.mem_append.mp ha with ha | ha
      · have := hsplit.below a ha; omega
      · have := hsplit.on a ha; omega
    · intro hne
      obtain ⟨y, ys, rfl⟩ := List.exists_cons_of_ne_nil hne
      exact ⟨y, by rw [hsplit.append]; simp, hsplit.above y (by simp)⟩
  unfold Cancellable IntrusiveList.Movable
  rw [hon, habove, all_activeOn_iff hinv hsplit]
  tauto

/-- A `cancel` that returns has met its specification. -/
theorem cancelSection_spec {s s' : IoScheduler} {log : List AsyncIoOperation} {extra : Nat}
    (hinv : s.Inv log extra) {fd : Int} {fuel : Nat} {isOpen found : Bool}
    (h : s.cancelSection fuel isOpen fd = some (.ok (s', found))) :
    s.Cancellable fd ∧ CancelSpec s s' fd := by
  obtain ⟨lo, eq, hi, hsplit, ⟨rfl, rfl, -⟩ | ⟨heq, hmov, rfl, -⟩⟩ := cancelSection_ok hinv h
  · -- nothing was found, so nothing had to be moved
    have hon : s'.activeOn fd = [] := hsplit.filter_on
    refine ⟨Or.inl (by rw [hon]; simp), ?_⟩
    refine ⟨?_, by rw [hon]; rfl, s'.segments_append.symm, by simp [hon], fun _ _ => rfl,
      by simp [hon]⟩
    rw [hsplit.filter_off, hsplit.append]
    rfl
  · -- the range was moved behind the others, and marked on the way
    have hon : s.activeOn fd = eq := hsplit.filter_on
    obtain ⟨-, hact, hcan⟩ := afterCancel_segments hinv hsplit heq isOpen
    refine ⟨(cancellable_iff_movable hinv hsplit).mpr hmov, ?_⟩
    refine ⟨?_, ?_, (segments_append _).symm, ?_, ?_, ?_⟩
    · rw [hact, hsplit.filter_off]
    · rw [hcan, hon]
    · intro op hop
      rw [hon] at hop
      show (if op ∈ eq then (s.state op).cancel else s.state op).cancelled = true
      rw [if_pos hop]
      rfl
    · intro op hop
      rw [hon] at hop
      show (if op ∈ eq then (s.state op).cancel else s.state op) = _
      rw [if_neg hop]
    · rw [hon]
      obtain ⟨x, eq', rfl⟩ := List.exists_cons_of_ne_nil heq
      rfl

/-- The rest of `cancel` after the splice does not touch the list. -/
theorem CancelSpec.trigger {s s' : IoScheduler} {fd : Int} (h : CancelSpec s s' fd) (tw : Nat) :
    CancelSpec s (s'.trigger tw) fd :=
  ⟨h.active, h.cancelled, h.operations, h.marked, h.others, h.cursor⟩

/-- `cancel(fd)` returns from every state that satisfies the condition. -/
theorem cancel_returns {s : IoScheduler} {log : List AsyncIoOperation} {extra : Nat}
    (hinv : s.Inv log extra) {fd : Int} (hc : s.Cancellable fd) (isOpen : Bool) (tw : Nat) :
    ∃ fuel s', s.cancel fuel isOpen tw fd = some (.ok s') ∧ CancelSpec s s' fd := by
  obtain ⟨lo, eq, hi, hsplit⟩ := exists_fdSplit hinv.sorted fd
  -- one round of the splice for each operation on `fd`, and one to leave it
  have hsome : ∃ s₁ found, s.cancelSection (eq.length + 1) isOpen fd = some (.ok (s₁, found)) := by
    by_cases heq : eq = []
    · subst heq
      exact ⟨s, false, cancelSection_empty hsplit _ _⟩
    · have hmov := (cancellable_iff_movable hinv hsplit).mp hc
      exact ⟨_, true, cancelSection_moves hinv hsplit heq hmov _ (Nat.lt_succ_self _) isOpen⟩
  obtain ⟨s₁, found, h⟩ := hsome
  have hspec := (cancelSection_spec hinv h).2
  refine ⟨eq.length + 1, if found then s₁.trigger tw else s₁, ?_, ?_⟩
  · rw [cancel, h]; rfl
  · split
    · exact hspec.trigger tw
    · exact hspec

/-- `cancel(fd)` returns only from states that satisfy the condition. -/
theorem cancellable_of_cancel {s s' : IoScheduler} {log : List AsyncIoOperation} {extra : Nat}
    (hinv : s.Inv log extra) {fd : Int} {fuel tw : Nat} {isOpen : Bool}
    (h : s.cancel fuel isOpen tw fd = some (.ok s')) : s.Cancellable fd := by
  unfold cancel at h
  rw [Option.map_eq_some_iff] at h
  obtain ⟨r, hr, hmap⟩ := h
  cases r with
  | error e => exact absurd hmap (by simp [Except.map])
  | ok p => exact (cancelSection_spec hinv hr).1

end IoScheduler

/-! ### Runs -/

namespace Sched

variable {K : Type} {M : Kernel K} {s s' : Sched K}

/-- A new operation goes behind those on its descriptor. -/
theorem schedule_activeOn (hinv : s.Inv) {op : AsyncIoOperation} (hnew : op ∉ s.scheduled)
    (h : s.schedule M op = .ok s') (fd : Int) :
    s'.io.activeOn fd = s.io.activeOn fd ++ [op].filter (fun a => decide (a.fd = fd)) := by
  obtain ⟨io, hio, rfl⟩ := schedule_cases h
  obtain ⟨-, -, lo, eq, hi, hsplit, hact⟩ :=
    IoScheduler.schedule_segments hinv.rep (fun hm => hnew (hinv.mem_operations hm)) hio
  show io.activeSegment.filter _ = s.io.activeSegment.filter _ ++ _
  rw [hact, hsplit.append]
  by_cases hfd : op.fd = fd
  · -- nothing above its descriptor is on it
    have hhi : hi.filter (fun a => decide (a.fd = fd)) = [] :=
      List.filter_eq_nil_iff.mpr (fun x hx => by have := hsplit.above x hx; simp; omega)
    simp [List.filter_append, hfd, hhi]
  · simp [List.filter_append, hfd]

/-- Scheduling leaves the cancelled operations and the wake event's descriptor alone. -/
theorem schedule_cancelledSegment (hinv : s.Inv) {op : AsyncIoOperation} (hnew : op ∉ s.scheduled)
    (h : s.schedule M op = .ok s') :
    s'.io.cancelledSegment = s.io.cancelledSegment ∧ s'.io.wakeFd = s.io.wakeFd := by
  obtain ⟨io, hio, rfl⟩ := schedule_cases h
  obtain ⟨-, hcan, -⟩ :=
    IoScheduler.schedule_segments hinv.rep (fun hm => hnew (hinv.mem_operations hm)) hio
  obtain ⟨_, _, _, -, hs'⟩ := IoScheduler.schedule_ok hinv.rep hio
  exact ⟨hcan, by rw [hs']⟩

/-- What a `cancel` that returns does to the segments. -/
theorem cancel_segments (hinv : s.Inv) {fuel : Nat} {fd : Int} {found : Bool}
    (h : s.cancel M fuel fd = some (.ok (s', found))) :
    s'.io.activeSegment = s.io.activeSegment.filter (fun a => decide (a.fd ≠ fd)) ∧
      s'.io.cancelledSegment = s.io.activeOn fd ++ s.io.cancelledSegment ∧
      s'.io.wakeFd = s.io.wakeFd := by
  obtain ⟨io, hio, rfl⟩ := cancel_cases h
  have hspec := (IoScheduler.cancelSection_spec hinv.rep hio).2
  refine ⟨hspec.active, hspec.cancelled, ?_⟩
  obtain ⟨lo, eq, hi, -, ⟨-, rfl, -⟩ | ⟨-, -, rfl, -⟩⟩ := IoScheduler.cancelSection_ok hinv.rep hio
  · rfl
  · rfl

/-- A `cancel` that finds at most one operation returns. -/
theorem cancel_of_le_one (hinv : s.Inv) {fd : Int} (hone : (s.io.activeOn fd).length ≤ 1)
    {fuel : Nat} (hfuel : 2 ≤ fuel) : ∃ s' found, s.cancel M fuel fd = some (.ok (s', found)) := by
  obtain ⟨lo, eq, hi, hsplit⟩ := exists_fdSplit hinv.rep.sorted fd
  have hlen : eq.length ≤ 1 := by
    rw [← hsplit.filter_on]
    exact hone
  unfold cancel
  by_cases heq : eq = []
  · subst heq
    rw [IoScheduler.cancelSection_empty hsplit]
    exact ⟨_, _, rfl⟩
  · rw [IoScheduler.cancelSection_moves hinv.rep hsplit heq (Or.inr (Or.inl hlen)) fuel (by omega)]
    exact ⟨_, _, rfl⟩

/-- A scheduled operation without a result is active. -/
theorem Inv.active_of_unset (hinv : s.Inv) {op : AsyncIoOperation} (hop : op ∈ s.scheduled)
    (hunset : (s.io.state op).result = none) : op ∈ s.io.activeSegment := by
  rcases List.mem_append.mp (hinv.split.mem_iff.mp hop) with hlist | hposted
  · rw [← s.io.segments_append] at hlist
    rcases List.mem_append.mp hlist with hact | hcan
    · exact hact
    · rw [hinv.rep.cancelled op hcan] at hunset
      exact absurd hunset (by simp)
  · exact absurd hunset (hinv.posted_result op hposted)

/-- Operations become active by being scheduled. -/
theorem step_active (hinv : s.Inv) {a : SchedAct K} (h : step M s a = some s') :
    ∀ x ∈ s'.io.activeSegment, a = .schedule x ∨ x ∈ s.io.activeSegment := by
  cases a with
  | schedule op =>
    obtain ⟨hnew, hs⟩ := step_schedule.mp h
    intro x hx
    rcases schedule_active hinv hnew hs x hx with rfl | hx
    · exact Or.inl rfl
    · exact Or.inr hx
  | cancel fd fuel =>
    obtain ⟨found, hs⟩ := step_cancel.mp h
    exact fun x hx => Or.inr (cancel_active hinv hs x hx)
  | pollCancellations tw =>
    obtain ⟨p, hs⟩ := step_pollCancellations.mp h
    rw [(pollCancellations_active hinv hs).2.2]
    exact fun x hx => Or.inr hx
  | pollNotifications events tw =>
    obtain ⟨n, hs⟩ := step_pollNotifications.mp h
    exact fun x hx => Or.inr ((pollNotifications_performs hinv hs).active x hx)
  -- the other steps are outside the list
  | wake tw | kernel k | forget fd =>
    rw [step, Option.some.injEq] at h
    subst h
    exact fun x hx => Or.inr hx

/-- Only `schedule` adds to the operations scheduled. -/
theorem step_scheduled (hinv : s.Inv) {a : SchedAct K} (h : step M s a = some s') :
    s'.scheduled = s.scheduled ++ (match a with | .schedule op => [op] | _ => []) := by
  cases a with
  | schedule op =>
    obtain ⟨-, hs⟩ := step_schedule.mp h
    obtain ⟨io, -, rfl⟩ := schedule_cases hs
    rfl
  | cancel fd fuel =>
    obtain ⟨found, hs⟩ := step_cancel.mp h
    obtain ⟨io, -, rfl⟩ := cancel_cases hs
    exact (List.append_nil _).symm
  | pollCancellations tw =>
    obtain ⟨p, hs⟩ := step_pollCancellations.mp h
    exact (pollCancellations_extends hs).2.2.trans (List.append_nil _).symm
  | pollNotifications events tw =>
    obtain ⟨n, hs⟩ := step_pollNotifications.mp h
    exact (pollNotifications_extends hinv hs).2.2.trans (List.append_nil _).symm
  | wake tw | kernel k | forget fd =>
    rw [step, Option.some.injEq] at h
    subst h
    exact (List.append_nil _).symm

/-- A recorded result is final. -/
theorem step_result (hinv : s.Inv) {a : SchedAct K} (h : step M s a = some s')
    {op : AsyncIoOperation} {r : IoResult} (hr : (s.io.state op).result = some r) :
    (s'.io.state op).result = some r := by
  -- only active operations get results, and they have none
  have hidle : op ∉ s.io.activeSegment := by
    intro hact
    rw [hinv.rep.active op hact] at hr
    exact absurd hr (by simp [OpState.fresh])
  cases a with
  | schedule x =>
    obtain ⟨-, hs⟩ := step_schedule.mp h
    obtain ⟨io, hio, rfl⟩ := schedule_cases hs
    rw [← hr]
    exact congrArg (fun f => (f op).result) (IoScheduler.schedule_perm hinv.rep hio).2
  | cancel fd fuel =>
    obtain ⟨found, hs⟩ := step_cancel.mp h
    obtain ⟨io, hio, rfl⟩ := cancel_cases hs
    have hother := (IoScheduler.cancelSection_spec hinv.rep hio).2.others op
      (fun hm => hidle (List.mem_filter.mp hm).1)
    exact (congrArg OpState.result hother).trans hr
  | pollCancellations tw =>
    obtain ⟨p, hs⟩ := step_pollCancellations.mp h
    obtain ⟨w, rfl⟩ := pollCancellations_cases hinv hs
    exact hr
  | pollNotifications events tw =>
    obtain ⟨n, hs⟩ := step_pollNotifications.mp h
    obtain ⟨st, done, -, hdone, rfl, rfl⟩ := pollNotifications_cases hinv hs
    have hother := hdone.state_other op (fun hm => hidle (hdone.done_sub op hm))
    exact (congrArg OpState.result hother).trans hr
  | wake tw | kernel k | forget fd =>
    rw [step, Option.some.injEq] at h
    subst h
    exact hr

/-- **When `cancel` returns.**  In every reachable state, `cancel(fd)` returns and does what it
    is for if and only if it finds at most one operation, or a larger descriptor is active, or
    the operations it finds are all there are. -/
theorem cancel_returns_iff_cancellable (h : Reach M Transition.always s) (fd : Int) (tw : Nat) :
    (∃ fuel io', s.io.cancel fuel (M.isOpen s.kernel fd) tw fd = some (.ok io') ∧
      IoScheduler.CancelSpec s.io io' fd) ↔ s.io.Cancellable fd := by
  have hinv := (reach_inv h).rep
  constructor
  · rintro ⟨fuel, io', hio, -⟩
    exact IoScheduler.cancellable_of_cancel hinv hio
  · intro hc
    exact IoScheduler.cancel_returns hinv hc _ tw

end Sched

/-- A kernel in which every descriptor is open and every call would block. -/
def quietKernel : Kernel Unit where
  syscall := fun _ k => (.wouldBlock, k)
  isOpen := fun _ _ => true

/-- The constructed scheduler over the quiet kernel. -/
def quietStart : Sched Unit := ⟨IoScheduler.init 0, (), [], [], [], []⟩

theorem quietStart_init : Sched.Init quietStart := ⟨0, (), rfl⟩

/-- One wait on descriptor 3 and two on descriptor 5. -/
def threeWaits : List (SchedAct Unit) :=
  [.schedule ⟨1, 3, .timerExpiryOrEvent⟩, .schedule ⟨2, 5, .timerExpiryOrEvent⟩,
    .schedule ⟨3, 5, .timerExpiryOrEvent⟩]

namespace Sched

/-- The condition is met: cancelling the smaller descriptor returns. -/
theorem cancel_returns_below :
    ∃ s : Sched Unit, s.io.Cancellable 3 ∧ ∃ fuel io',
      s.io.cancel fuel (quietKernel.isOpen s.kernel 3) 0 3 = some (.ok io') ∧
        IoScheduler.CancelSpec s.io io' 3 := by
  have hrun : ∃ s, Reach quietKernel Transition.always s ∧ decide (s.io.Cancellable 3) = true :=
    Transition.exists_reach quietStart_init threeWaits _ (by decide)
  obtain ⟨s, hs, hc⟩ := hrun
  have hc' := of_decide_eq_true hc
  exact ⟨s, hc', (cancel_returns_iff_cancellable hs 3 0).mpr hc'⟩

/-- `cancel(5)` does not return while descriptor 3 is waited on and two waits are on 5. -/
theorem cancel_last_never_returns :
    ¬ ∀ (s : Sched Unit), Reach quietKernel Transition.always s → ∀ fd tw,
      ∃ fuel io', s.io.cancel fuel (quietKernel.isOpen s.kernel fd) tw fd = some (.ok io') ∧
        IoScheduler.CancelSpec s.io io' fd := by
  intro hall
  have hrun : ∃ s, Reach quietKernel Transition.always s ∧ decide (¬ s.io.Cancellable 5) = true :=
    Transition.exists_reach quietStart_init threeWaits _ (by decide)
  obtain ⟨s, hs, hc⟩ := hrun
  obtain ⟨fuel, io', hio, -⟩ := hall s hs 5 0
  exact of_decide_eq_true hc (IoScheduler.cancellable_of_cancel (reach_inv hs).rep hio)

end Sched

end Exios
