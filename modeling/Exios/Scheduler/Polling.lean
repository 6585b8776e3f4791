import Exios.Scheduler.Sections

namespace Exios

open Search (lowerBound)

/-!
# Scheduler — the critical sections of `poll_once`

Specifications of `process_notifications` and `process_cancellations` for states that satisfy
the representation invariant:

* `notifyLoop_spec` — the loop over one descriptor completes some of its operations;
* `processEvent_ok`, `processNotifications_ok` — a batch of events completes some of the active
  operations, which leave the list and are posted; nothing else moves (`Completed`);
* `notificationPhase_ok`, `notificationPhase_error` — the whole second critical section, and
  the only checks it can fail;
* `cancellationPhase_spec` — the cancelled segment is posted and emptied, and no check fails.
-/

namespace IoScheduler

variable {K : Type}

/-! ### The loop over one descriptor -/

/-- The kernel state moves by system calls of operations. -/
def Moves (M : Kernel K) : K → K → Prop :=
  Relation.ReflTransGen (fun k k' => ∃ op, k' = (M.syscall op k).2)

/-- The `perform_io` calls between two states of the loop: made on operations that satisfy
    `P` and have no result, in kernel states reached by system calls. -/
structure Performed (M : Kernel K) (P : AsyncIoOperation → Prop) (st st' : Notify K) : Prop where
  kernel : Moves M st.kernel st'.kernel
  attempts : ∃ new, st'.attempts = st.attempts ++ new ∧
    ∀ a ∈ new, P a.op ∧ a.result = none ∧ Moves M st.kernel a.kernel

namespace Performed

variable {M : Kernel K} {P Q : AsyncIoOperation → Prop} {st st₁ st' : Notify K}

/-- No call was made. -/
theorem of_eq (hkernel : st'.kernel = st.kernel) (hatt : st'.attempts = st.attempts) :
    Performed M P st st' :=
  ⟨by rw [hkernel]; exact .refl, [], by simp [hatt], by simp⟩

/-- One call was made. -/
theorem single {item : AsyncIoOperation} (hitem : P item)
    (hkernel : st'.kernel = (M.syscall item st.kernel).2)
    (hatt : st'.attempts = st.attempts ++ [⟨item, st.kernel, none⟩]) : Performed M P st st' := by
  refine ⟨.single ⟨item, hkernel⟩, _, hatt, ?_⟩
  intro a ha
  rw [List.mem_singleton] at ha
  subst ha
  exact ⟨hitem, rfl, .refl⟩

/-- A weaker description of what was performed is one too. -/
theorem mono (h : Performed M P st st') (hPQ : ∀ op, P op → Q op) : Performed M Q st st' := by
  obtain ⟨new, happ, hnew⟩ := h.attempts
  exact ⟨h.kernel, new, happ, fun a ha => ⟨hPQ _ (hnew a ha).1, (hnew a ha).2⟩⟩

/-- Performing in two parts is performing the whole. -/
theorem trans (h₁ : Performed M P st st₁) (h₂ : Performed M P st₁ st') : Performed M P st st' := by
  obtain ⟨new₁, happ₁, hnew₁⟩ := h₁.attempts
  obtain ⟨new₂, happ₂, hnew₂⟩ := h₂.attempts
  refine ⟨h₁.kernel.trans h₂.kernel, new₁ ++ new₂, ?_, ?_⟩
  · rw [happ₂, happ₁, List.append_assoc]
  · intro a ha
    rcases List.mem_append.mp ha with ha | ha
    · exact hnew₁ a ha
    · exact ⟨(hnew₂ a ha).1, (hnew₂ a ha).2.1, h₁.kernel.trans (hnew₂ a ha).2.2⟩

end Performed

/-- The loop body left the operation in the list: its interest is kept. -/
structure ItemKept (st st' : FdLoop K) (item : AsyncIoOperation) : Prop where
  sched : st'.sched = st.sched
  posted : st'.posted = st.posted
  total : st'.total = st.total
  itemsForFd : st'.itemsForFd = st.itemsForFd + 1
  itemsProcessed : st'.itemsProcessed = st.itemsProcessed
  reregister : st'.reregister = st.reregister ||| item.interest

/-- The loop body completed the operation: it has a result and was posted. -/
structure ItemDone (st st' : FdLoop K) (item : AsyncIoOperation) : Prop where
  sched : ∃ r tw, r ≠ cancelledResult ∧
    st'.sched = ({ st.sched with
      operations := st.sched.operations.erase item
      state := Function.update st.sched.state item ⟨false, some r⟩ }).trigger tw
  posted : st'.posted = st.posted ++ [item]
  total : st'.total = st.total
  itemsForFd : st'.itemsForFd = st.itemsForFd + 1
  itemsProcessed : st'.itemsProcessed = st.itemsProcessed + 1
  reregister : st'.reregister = st.reregister

/-- **Spec of the loop body** on an operation without a result: it does not fail, and calls
    `perform_io` at most once. -/
theorem notifyItem_spec (M : Kernel K) (tw : Nat) (mask : Events) (st : FdLoop K)
    (item : AsyncIoOperation) (hfresh : st.sched.state item = .fresh) :
    ∃ st', notifyItem M tw mask st item = .ok st' ∧
      (ItemKept st st' item ∨ ItemDone st st' item) ∧
      Performed M (fun op => op = item) st.toNotify st'.toNotify := by
  unfold notifyItem
  simp only [hfresh, OpState.fresh, Bool.false_eq_true, if_false]
  split
  · exact ⟨_, rfl, Or.inl ⟨rfl, rfl, rfl, rfl, rfl, rfl⟩, .of_eq rfl rfl⟩
  · simp only [performIo, hfresh, OpState.fresh]
    rcases io_unset item.kind (M.syscall item st.kernel).1 with hio | ⟨r, hio, hr⟩
    · -- still pending: the stored state is the old one
      have hstate : Function.update st.sched.state item ⟨false, none⟩ = st.sched.state := by
        rw [show (⟨false, none⟩ : OpState) = st.sched.state item from hfresh.symm,
          Function.update_eq_self]
      simp only [hio, hstate]
      exact ⟨_, rfl, Or.inl ⟨rfl, rfl, rfl, rfl, rfl, rfl⟩, .single rfl rfl rfl⟩
    · simp only [hio]
      exact ⟨_, rfl, Or.inr ⟨⟨r, tw, hr, rfl⟩, rfl, rfl, rfl, rfl, rfl⟩, .single rfl rfl rfl⟩

/-- What the loop over the operations `eq` of one descriptor has done: `done` completed and
    left the list, `kept` stayed. -/
structure LoopSpec (M : Kernel K) (st st' : FdLoop K) (eq done kept : List AsyncIoOperation) :
    Prop where
  done_sub : done.Sublist eq
  kept_sub : kept.Sublist eq
  perm : eq.Perm (done ++ kept)
  operations : st'.sched.operations = st.sched.operations.diff done
  beginCancelled : st'.sched.beginCancelled = st.sched.beginCancelled
  pollQueueLength : st'.sched.pollQueueLength = st.sched.pollQueueLength
  interest : st'.sched.interest = st.sched.interest
  wakeFd : st'.sched.wakeFd = st.sched.wakeFd
  state_other : ∀ x, x ∉ done → st'.sched.state x = st.sched.state x
  state_done : ∀ x ∈ done, ∃ r, r ≠ cancelledResult ∧ st'.sched.state x = ⟨false, some r⟩
  posted : st'.posted = st.posted ++ done
  total : st'.total = st.total
  itemsForFd : st'.itemsForFd = st.itemsForFd + eq.length
  itemsProcessed : st'.itemsProcessed = st.itemsProcessed + done.length
  reregister : st'.reregister = kept.foldl (fun m a => m ||| a.interest) st.reregister
  performed : Performed M (fun op => op ∈ eq) st.toNotify st'.toNotify

/-- A kept operation in front of a loop. -/
theorem LoopSpec.cons_kept {M : Kernel K} {st st₁ st' : FdLoop K} {item : AsyncIoOperation}
    {eq done kept : List AsyncIoOperation} (h₁ : ItemKept st st₁ item)
    (hper : Performed M (fun op => op = item) st.toNotify st₁.toNotify)
    (h : LoopSpec M st₁ st' eq done kept) :
    LoopSpec M st st' (item :: eq) done (item :: kept) where
  done_sub := h.done_sub.cons item
  kept_sub := h.kept_sub.cons_cons item
  -- the loop goes on in a state that differs in its own counters only
  perm := (h.perm.cons item).trans List.perm_middle.symm
  operations := by rw [h.operations, h₁.sched]
  beginCancelled := by rw [h.beginCancelled, h₁.sched]
  pollQueueLength := by rw [h.pollQueueLength, h₁.sched]
  interest := by rw [h.interest, h₁.sched]
  wakeFd := by rw [h.wakeFd, h₁.sched]
  state_other := fun x hx => by rw [h.state_other x hx, h₁.sched]
  state_done := h.state_done
  posted := by rw [h.posted, h₁.posted]
  total := by rw [h.total, h₁.total]
  itemsForFd := by rw [h.itemsForFd, h₁.itemsForFd, List.length_cons]; omega
  itemsProcessed := by rw [h.itemsProcessed, h₁.itemsProcessed]
  reregister := by rw [h.reregister, h₁.reregister, List.foldl_cons]
  performed :=
    (hper.mono (fun op hop => by simp [hop])).trans (h.performed.mono (fun op hop => by simp [hop]))

/-- A completed operation in front of a loop over other operations. -/
theorem LoopSpec.cons_done {M : Kernel K} {st st₁ st' : FdLoop K} {item : AsyncIoOperation}
    {eq done kept : List AsyncIoOperation} (h₁ : ItemDone st st₁ item)
    (hper : Performed M (fun op => op = item) st.toNotify st₁.toNotify)
    (h : LoopSpec M st₁ st' eq done kept) :
    LoopSpec M st st' (item :: eq) (item :: done) kept := by
  obtain ⟨r, tw, hr, hsched⟩ := h₁.sched
  refine
    { done_sub := h.done_sub.cons_cons item
      kept_sub := h.kept_sub.cons item
      perm := h.perm.cons item
      operations := by rw [h.operations, hsched, List.diff_cons]; rfl
      beginCancelled := by rw [h.beginCancelled, hsched]; rfl
      pollQueueLength := by rw [h.pollQueueLength, hsched]; rfl
      interest := by rw [h.interest, hsched]; rfl
      wakeFd := by rw [h.wakeFd, hsched]; rfl
      state_other := ?_
      state_done := ?_
      posted := by rw [h.posted, h₁.posted, List.append_assoc]; rfl
      total := by rw [h.total, h₁.total]
      itemsForFd := by rw [h.itemsForFd, h₁.itemsForFd, List.length_cons]; omega
      itemsProcessed := by rw [h.itemsProcessed, h₁.itemsProcessed, List.length_cons]; omega
      reregister := by rw [h.reregister, h₁.reregister]
      performed := (hper.mono (fun op hop => by simp [hop])).trans
        (h.performed.mono (fun op hop => by simp [hop])) }
  · -- only this operation and the later ones get a result
    intro x hx
    rw [List.mem_cons, not_or] at hx
    rw [h.state_other x hx.2, hsched]
    exact Function.update_of_ne hx.1 _ _
  · intro x hx
    -- an operation is completed once, here or later
    by_cases hxd : x ∈ done
    · exact h.state_done x hxd
    · obtain rfl : x = item := (List.mem_cons.mp hx).resolve_right hxd
      refine ⟨r, hr, ?_⟩
      rw [h.state_other x hxd, hsched]
      exact Function.update_self _ _ _

/-- **Spec of the loop over one descriptor.** -/
theorem notifyLoop_spec (M : Kernel K) (tw : Nat) (fd : Int) (mask : Events)
    (eq hi : List AsyncIoOperation) (st : FdLoop K) (heq : ∀ x ∈ eq, x.fd = fd)
    (hhi : ∀ x ∈ hi, fd < x.fd) (hnd : eq.Nodup) (hfresh : ∀ x ∈ eq, st.sched.state x = .fresh) :
    ∃ st' done kept, notifyLoop M tw fd mask (eq ++ hi) st = .ok st' ∧
      LoopSpec M st st' eq done kept := by
  induction eq generalizing st with
  | nil =>
    refine ⟨st, [], [], ?_, ?_⟩
    · cases hi with
      | nil => rfl
      | cons y hi =>
        have hy : y.fd ≠ fd := by have := hhi y (by simp); omega
        simp [notifyLoop, hy]
    · exact ⟨.refl _, .refl _, .refl _, by simp, rfl, rfl, rfl, rfl, by simp, by simp, by simp, rfl,
        rfl, rfl, rfl, .of_eq rfl rfl⟩
  | cons item eq ih =>
    rw [List.nodup_cons] at hnd
    obtain ⟨st₁, hitem, hcase, hper⟩ :=
      notifyItem_spec M tw mask st item (hfresh item (by simp))
    have hfd : item.fd = fd := heq item (by simp)
    -- the rest of the range is untouched by the first operation
    have hfresh₁ : ∀ x ∈ eq, st₁.sched.state x = .fresh := by
      intro x hx
      have hne : x ≠ item := fun he => hnd.1 (he ▸ hx)
      rcases hcase with hk | hd
      · rw [hk.sched]; exact hfresh x (by simp [hx])
      · obtain ⟨r, tw', -, hsched⟩ := hd.sched
        rw [hsched]
        exact (Function.update_of_ne hne _ _).trans (hfresh x (by simp [hx]))
    obtain ⟨st', done, kept, hloop, hspec⟩ :=
      ih st₁ (fun x hx => heq x (by simp [hx])) hnd.2 hfresh₁
    have hrun : notifyLoop M tw fd mask (item :: eq ++ hi) st = .ok st' := by
      rw [List.cons_append, notifyLoop, if_pos hfd, hitem]
      exact hloop
    rcases hcase with hk | hd
    · exact ⟨st', done, item :: kept, hrun, hspec.cons_kept hk hper⟩
    · exact ⟨st', item :: done, kept, hrun, hspec.cons_done hd hper⟩

/-- What a stretch of `process_notifications` has done: the active operations `done` completed
    and left the list; nothing else moved. -/
structure Completed (M : Kernel K) (st st' : Notify K) (done : List AsyncIoOperation) : Prop where
  done_sub : ∀ x ∈ done, x ∈ st.sched.activeSegment
  done_nodup : done.Nodup
  active : st'.sched.activeSegment = st.sched.activeSegment.filter (fun a => a ∉ done)
  cancelled : st'.sched.cancelledSegment = st.sched.cancelledSegment
  beginCancelled : st'.sched.beginCancelled = st.sched.beginCancelled
  pollQueueLength : st'.sched.pollQueueLength = st.sched.pollQueueLength
  wakeFd : st'.sched.wakeFd = st.sched.wakeFd
  state_other : ∀ x, x ∉ done → st'.sched.state x = st.sched.state x
  state_done : ∀ x ∈ done, ∃ r, r ≠ cancelledResult ∧ st'.sched.state x = ⟨false, some r⟩
  posted : st'.posted = st.posted ++ done
  total : st'.total = st.total + done.length
  performed : Performed M (fun op => op ∈ st.sched.activeSegment) st st'

namespace Completed

variable {M : Kernel K} {st st₁ st' : Notify K} {done done₁ : List AsyncIoOperation}

/-- Nothing completed, and the list was not touched. -/
theorem of_eq (hops : st'.sched.operations = st.sched.operations)
    (hcur : st'.sched.beginCancelled = st.sched.beginCancelled)
    (hlen : st'.sched.pollQueueLength = st.sched.pollQueueLength)
    (hwake : st'.sched.wakeFd = st.sched.wakeFd) (hstate : st'.sched.state = st.sched.state)
    (hposted : st'.posted = st.posted) (htotal : st'.total = st.total)
    (hkernel : st'.kernel = st.kernel) (hatt : st'.attempts = st.attempts) :
    Completed M st st' [] where
  done_sub := by simp
  done_nodup := List.nodup_nil
  active := by simp [activeSegment, hops, hcur]
  cancelled := by simp [cancelledSegment, hops, hcur]
  beginCancelled := hcur
  pollQueueLength := hlen
  wakeFd := hwake
  state_other := fun x _ => by rw [hstate]
  state_done := by simp
  posted := by simp [hposted]
  total := by simp [htotal]
  performed := .of_eq hkernel hatt

/-- The operations left are those that did not complete. -/
theorem operations_perm (h : Completed M st st' done) (hnd : st.sched.operations.Nodup) :
    st.sched.operations.Perm (st'.sched.operations ++ done) := by
  -- what was completed was active, so it is a part of the list
  have hdone : (st.sched.activeSegment.filter (fun a => a ∈ done)).Perm done := by
    rw [List.perm_ext_iff_of_nodup _ h.done_nodup]
    · intro a
      simp only [List.mem_filter, decide_eq_true_eq, and_iff_right_iff_imp]
      exact h.done_sub a
    · rw [← st.sched.segments_append] at hnd
      exact (List.nodup_append.mp hnd).1.filter _
  have hpart : (st.sched.activeSegment.filter (fun a => a ∈ done) ++
      st.sched.activeSegment.filter (fun a => a ∉ done)).Perm st.sched.activeSegment := by
    have := List.filter_append_perm (fun a => decide (a ∈ done)) st.sched.activeSegment
    simpa using this
  rw [← st.sched.segments_append, ← st'.sched.segments_append, h.active, h.cancelled]
  calc st.sched.activeSegment ++ st.sched.cancelledSegment
      |>.Perm ((done ++ st.sched.activeSegment.filter (fun a => a ∉ done)) ++
        st.sched.cancelledSegment) := (hpart.symm.trans (hdone.append_right _)).append_right _
    _ |>.Perm _ := by
      rw [List.append_assoc]
      exact List.perm_append_comm

/-- **The invariant survives**, with the completed operations still counted. -/
theorem inv (h : Completed M st st' done) {log : List AsyncIoOperation}
    (hinv : st.sched.Inv log st.total) : st'.sched.Inv log st'.total := by
  have hperm := h.operations_perm hinv.nodup
  have hsub : st'.sched.activeSegment.Sublist st.sched.activeSegment := by
    rw [h.active]; exact List.filter_sublist
  refine ⟨?_, ?_, hinv.sorted.sublist hsub, ?_, ?_, ?_, ?_⟩
  · exact (List.nodup_append.mp (hperm.nodup_iff.mp hinv.nodup)).1
  · rw [h.beginCancelled, h.cancelled]
    exact hinv.cursor
  · intro op hop
    rw [h.active, List.mem_filter, decide_eq_true_eq] at hop
    rw [h.state_other op hop.2]
    exact hinv.active op hop.1
  · intro op hop
    rw [h.cancelled] at hop
    -- a cancelled operation is never completed by a notification
    have hnot : op ∉ done := by
      intro hmem
      exact List.disjoint_of_nodup_append hinv.nodup_segments (h.done_sub op hmem) hop
    rw [h.state_other op hnot]
    exact hinv.cancelled op hop
  · intro fd
    exact (hsub.filter _).trans (hinv.fifo fd)
  · have hlen := hperm.length_eq
    rw [List.length_append] at hlen
    rw [h.pollQueueLength, h.total, hinv.length]
    omega

/-- What two parts of a batch complete, the batch completes, in that order. -/
theorem trans (h₁ : Completed M st st₁ done₁) (h₂ : Completed M st₁ st' done) :
    Completed M st st' (done₁ ++ done) := by
  have hsub : ∀ x ∈ st₁.sched.activeSegment, x ∈ st.sched.activeSegment ∧ x ∉ done₁ := by
    intro x hx
    rw [h₁.active, List.mem_filter, decide_eq_true_eq] at hx
    exact hx
  -- nothing is completed twice: the second part finds the first one's operations gone
  have hdisj : ∀ x ∈ done, x ∉ done₁ := fun x hx => (hsub x (h₂.done_sub x hx)).2
  refine
    { done_sub := ?_
      done_nodup := List.nodup_append'.mpr
        ⟨h₁.done_nodup, h₂.done_nodup, fun x hx hx' => hdisj x hx' hx⟩
      active := ?_
      cancelled := by rw [h₂.cancelled, h₁.cancelled]
      beginCancelled := by rw [h₂.beginCancelled, h₁.beginCancelled]
      pollQueueLength := by rw [h₂.pollQueueLength, h₁.pollQueueLength]
      wakeFd := by rw [h₂.wakeFd, h₁.wakeFd]
      state_other := ?_
      state_done := ?_
      posted := by rw [h₂.posted, h₁.posted, List.append_assoc]
      total := by rw [h₂.total, h₁.total, List.length_append]; omega
      performed := h₁.performed.trans (h₂.performed.mono (fun op hop => (hsub op hop).1)) }
  · intro x hx
    rcases List.mem_append.mp hx with hx | hx
    · exact h₁.done_sub x hx
    · exact (hsub x (h₂.done_sub x hx)).1
  · rw [h₂.active, h₁.active, List.filter_filter]
    refine List.filter_congr (fun x _ => ?_)
    simp only [List.mem_append, not_or]
    by_cases hx₁ : x ∈ done₁ <;> by_cases hx : x ∈ done <;> simp [hx₁, hx]
  · intro x hx
    rw [List.mem_append, not_or] at hx
    rw [h₂.state_other x hx.2, h₁.state_other x hx.1]
  · intro x hx
    by_cases hxd : x ∈ done
    · exact h₂.state_done x hxd
    · obtain ⟨r, hr, hst⟩ := h₁.state_done x ((List.mem_append.mp hx).resolve_right hxd)
      exact ⟨r, hr, by rw [h₂.state_other x hxd, hst]⟩

end Completed

/-! ### `process_notifications` -/

/-- **Spec of the adjustment.**  It passes its check on an open descriptor that is registered, or
    that has nothing left to be registered for. -/
theorem reregister_toOption (isOpen allDone : Bool) (reg : Registrations) (fd : Int)
    (events : Events) :
    (reregister isOpen reg fd allDone events).toOption =
      if isOpen = true ∧ (allDone = true ∨ (reg fd).isSome = true) then
        some (Function.update reg fd (if allDone then none else some events))
      else none := by
  unfold reregister epollDel epollMod
  cases allDone <;> cases isOpen <;> cases hreg : reg fd <;> simp [Except.toOption]
  -- `ENOENT`: there was nothing to remove
  exact hreg

/-- An adjustment that passed its check. -/
theorem reregister_ok {isOpen allDone : Bool} {reg reg' : Registrations} {fd : Int}
    {events : Events} (h : reregister isOpen reg fd allDone events = .ok reg') :
    isOpen = true ∧ reg' = Function.update reg fd (if allDone then none else some events) := by
  have hspec := reregister_toOption isOpen allDone reg fd events
  rw [Transition.toOption_eq_some.mpr h] at hspec
  split at hspec
  · rename_i hcheck
    exact ⟨hcheck.1, Option.some.inj hspec⟩
  · exact absurd hspec (by simp)

/-- De-registration and re-registration fail only with their own checks. -/
theorem reregister_error {isOpen allDone : Bool} {reg : Registrations} {fd : Int}
    {events : Events} {e : Contract} (h : reregister isOpen reg fd allDone events = .error e) :
    e = .epollDelete ∨ e = .epollModify := by
  unfold reregister epollDel epollMod at h
  cases allDone <;> cases isOpen <;> cases hreg : reg fd <;> simp [hreg] at h <;> simp [← h]

/-- All operations done is the same as none kept. -/
theorem LoopSpec.allDone_iff {M : Kernel K} {st : Notify K} {l : FdLoop K}
    {eq done kept : List AsyncIoOperation}
    (h : LoopSpec M { st with itemsForFd := 0, itemsProcessed := 0, reregister := 0 } l eq done
      kept) :
    l.itemsForFd = l.itemsProcessed ↔ kept = [] := by
  have hlen := h.perm.length_eq
  rw [List.length_append] at hlen
  rw [h.itemsForFd, h.itemsProcessed, ← List.length_eq_zero_iff]
  simp only [Nat.zero_add]
  omega

/-- The registrations after the adjustment: the descriptor is registered for what was kept. -/
theorem LoopSpec.adjusted {M : Kernel K} {st : Notify K} {l : FdLoop K}
    {eq done kept : List AsyncIoOperation}
    (h : LoopSpec M { st with itemsForFd := 0, itemsProcessed := 0, reregister := 0 } l eq done kept)
    (fd : Int) :
    Function.update l.sched.interest fd
        (if decide (l.itemsForFd = l.itemsProcessed) then none else some l.reregister)
      = Function.update st.sched.interest fd
        (if kept = [] then none else some (kept.foldl (fun m a => m ||| a.interest) 0)) := by
  rw [h.interest, h.reregister]
  by_cases hk : kept = []
  · simp [hk, h.allDone_iff.mpr hk]
  · have hk' : ¬ l.itemsForFd = l.itemsProcessed := fun he => hk (h.allDone_iff.mp he)
    simp [hk, hk']

/-- The kept operations are those that did not complete, in their order. -/
theorem LoopSpec.kept_eq {M : Kernel K} {st l : FdLoop K} {eq done kept : List AsyncIoOperation}
    (h : LoopSpec M st l eq done kept) (hnd : eq.Nodup) :
    kept = eq.filter (fun a => decide (a ∉ done)) := by
  have hdisj := List.disjoint_of_nodup_append (h.perm.nodup_iff.mp hnd)
  have hkept : kept.filter (fun a => decide (a ∉ done)) = kept :=
    List.filter_eq_self.mpr (fun a ha => by simpa using fun hd => hdisj hd ha)
  have hdone : done.filter (fun a => decide (a ∉ done)) = [] :=
    List.filter_eq_nil_iff.mpr (fun a ha => by simpa using ha)
  -- both are sublists of the same length
  refine List.Sublist.eq_of_length ?_ ?_
  · rw [← hkept]
    exact h.kept_sub.filter _
  · rw [(h.perm.filter _).length_eq, List.filter_append, hdone, hkept, List.nil_append]

/-- The operations that a loop completed leave the active segment. -/
theorem LoopSpec.completed {M : Kernel K} {st : Notify K} {l : FdLoop K} {log : List AsyncIoOperation}
    {fd : Int} {lo eq hi done kept : List AsyncIoOperation} (hinv : st.sched.Inv log st.total)
    (hsplit : FdSplit st.sched.activeSegment fd lo eq hi)
    (h : LoopSpec M { st with itemsForFd := 0, itemsProcessed := 0, reregister := 0 } l eq done kept)
    (reg : Registrations) :
    Completed M st
      { l.toNotify with
        sched := { l.sched with interest := reg }, total := l.total + l.itemsProcessed }
      done := by
  have heq : ∀ x ∈ eq, x ∈ st.sched.activeSegment := by
    intro x hx
    rw [hsplit.append]; simp [hx]
  have hnot : ∀ x ∈ st.sched.cancelledSegment, x ∉ done := fun x hx hd =>
    List.disjoint_of_nodup_append hinv.nodup_segments (heq x (h.done_sub.subset hd)) hx
  -- on a duplicate-free list, taking the completed operations away is a filter
  have hops : l.sched.operations
      = st.sched.activeSegment.filter (fun a => a ∉ done) ++ st.sched.cancelledSegment := by
    have hcan : st.sched.cancelledSegment.filter (fun a => a ∉ done) = st.sched.cancelledSegment :=
      List.filter_eq_self.mpr (fun x hx => by simpa using hnot x hx)
    rw [h.operations, hinv.nodup.sdiff_eq_filter, ← st.sched.segments_append, List.filter_append]
    simp only [decide_not] at hcan ⊢
    rw [hcan]
  have hnd' : l.sched.operations.Nodup := by
    rw [h.operations]; exact hinv.nodup.diff
  have hcur : l.sched.beginCancelled = st.sched.cancelledSegment.head? := by
    rw [h.beginCancelled]; exact hinv.cursor
  obtain ⟨hact, hcan⟩ := segments_eq hops hnd' hcur
  exact
    { done_sub := fun x hx => heq x (h.done_sub.subset hx)
      done_nodup := (hinv.nodup_on hsplit).sublist h.done_sub
      active := hact
      cancelled := hcan
      beginCancelled := h.beginCancelled
      pollQueueLength := h.pollQueueLength
      wakeFd := h.wakeFd
      state_other := h.state_other
      state_done := h.state_done
      posted := h.posted
      total := by
        show l.total + l.itemsProcessed = _
        rw [h.total, h.itemsProcessed]
        simp
      performed := ⟨h.performed.kernel, (h.performed.mono heq).attempts⟩ }

/-- What an event on an operation's descriptor has done: of the active operations on `fd`,
    `done` completed and `kept` stay registered. -/
structure EventSpec (M : Kernel K) (fd : Int) (st st' : Notify K)
    (done kept : List AsyncIoOperation) : Prop where
  completed : Completed M st st' done
  perm : (st.sched.activeSegment.filter (fun a => decide (a.fd = fd))).Perm (done ++ kept)
  interest : st'.sched.interest = Function.update st.sched.interest fd
    (if kept = [] then none else some (kept.foldl (fun m a => m ||| a.interest) 0))

/-- The loop of one event: the search for the first operation on its descriptor, and the rounds
    from there on. -/
def eventLoop (M : Kernel K) (threadsWaiting : Nat) (ev : EpollEvent) (st : Notify K) :
    Except Contract (FdLoop K) :=
  notifyLoop M threadsWaiting ev.fd ev.events
    (st.sched.activeSegment.drop
      (lowerBound (fun a => decide (a.fd < ev.fd)) st.sched.activeSegment))
    { st with itemsForFd := 0, itemsProcessed := 0, reregister := 0 }

/-- The loop of an event is one over the active operations on its descriptor. -/
theorem eventLoop_eq {M : Kernel K} {tw : Nat} {ev : EpollEvent} {st : Notify K}
    {lo eq hi : List AsyncIoOperation} (h : FdSplit st.sched.activeSegment ev.fd lo eq hi) :
    eventLoop M tw ev st = notifyLoop M tw ev.fd ev.events (eq ++ hi)
      { st with itemsForFd := 0, itemsProcessed := 0, reregister := 0 } := by
  rw [eventLoop, h.lowerBound_eq, h.drop_eq]

/-- An event on an operation's descriptor runs its loop and then adjusts the registration. -/
theorem processEvent_of_loop {M : Kernel K} {tw : Nat} {ev : EpollEvent} {st : Notify K}
    {l : FdLoop K} (hfd : ev.fd ≠ st.sched.wakeFd) (hloop : eventLoop M tw ev st = .ok l) :
    processEvent M tw ev st =
      (reregister (M.isOpen l.kernel ev.fd) l.sched.interest ev.fd
        (decide (l.itemsForFd = l.itemsProcessed)) l.reregister).map (fun reg =>
          { l.toNotify with
            sched := { l.sched with interest := reg }
            total := l.total + l.itemsProcessed }) := by
  rw [eventLoop] at hloop
  simp only [processEvent, if_neg hfd, hloop]
  split <;> rename_i hreg <;> rw [hreg] <;> rfl

/-- **Spec of the loop of one event.**  It does not fail. -/
theorem eventLoop_spec (M : Kernel K) (tw : Nat) (ev : EpollEvent) (st : Notify K)
    {log : List AsyncIoOperation} (hinv : st.sched.Inv log st.total) :
    ∃ l lo eq hi done kept, FdSplit st.sched.activeSegment ev.fd lo eq hi ∧
      LoopSpec M { st with itemsForFd := 0, itemsProcessed := 0, reregister := 0 } l eq done kept ∧
      eventLoop M tw ev st = .ok l := by
  obtain ⟨lo, eq, hi, hsplit⟩ := exists_fdSplit hinv.sorted ev.fd
  have hfresh : ∀ x ∈ eq, st.sched.state x = .fresh := by
    intro x hx
    exact hinv.active x (by rw [hsplit.append]; simp [hx])
  obtain ⟨l, done, kept, hloop, hspec⟩ := notifyLoop_spec M tw ev.fd ev.events eq hi
    { st with itemsForFd := 0, itemsProcessed := 0, reregister := 0 } hsplit.on hsplit.above
    (hinv.nodup_on hsplit) hfresh
  exact ⟨l, lo, eq, hi, done, kept, hsplit, hspec, (eventLoop_eq hsplit).trans hloop⟩

/-- An event that passed its check: the descriptor was open after the loop, and its registration
    has been adjusted. -/
theorem processEvent_passed {M : Kernel K} {tw : Nat} {ev : EpollEvent} {st st' : Notify K}
    {l : FdLoop K} (hfd : ev.fd ≠ st.sched.wakeFd) (hloop : eventLoop M tw ev st = .ok l)
    (h : processEvent M tw ev st = .ok st') :
    M.isOpen l.kernel ev.fd = true ∧
      st' = { l.toNotify with
        sched := { l.sched with
          interest := Function.update l.sched.interest ev.fd
            (if decide (l.itemsForFd = l.itemsProcessed) then none else some l.reregister) }
        total := l.total + l.itemsProcessed } := by
  rw [processEvent_of_loop hfd hloop] at h
  cases hreg : reregister (M.isOpen l.kernel ev.fd) l.sched.interest ev.fd
      (decide (l.itemsForFd = l.itemsProcessed)) l.reregister with
  | error e => rw [hreg] at h; exact absurd h (by simp [Except.map])
  | ok reg =>
    -- `EPOLL_CTL_DEL` or `EPOLL_CTL_MOD` has passed its check
    obtain ⟨hopen, rfl⟩ := reregister_ok hreg
    rw [hreg, Except.map, Except.ok.injEq] at h
    exact ⟨hopen, h.symm⟩

/-- **Spec of one event.** -/
theorem processEvent_ok {M : Kernel K} {tw : Nat} {ev : EpollEvent} {st st' : Notify K}
    {log : List AsyncIoOperation} (hinv : st.sched.Inv log st.total)
    (h : processEvent M tw ev st = .ok st') :
    (ev.fd = st.sched.wakeFd ∧ st' = { st with sched := { st.sched with wakeCounter := 0 } }) ∨
      (ev.fd ≠ st.sched.wakeFd ∧ ∃ done kept, EventSpec M ev.fd st st' done kept) := by
  by_cases hfd : ev.fd = st.sched.wakeFd
  · rw [processEvent, if_pos hfd, Except.ok.injEq] at h
    exact Or.inl ⟨hfd, h.symm⟩
  · obtain ⟨l, lo, eq, hi, done, kept, hsplit, hspec, hloop⟩ := eventLoop_spec M tw ev st hinv
    obtain ⟨-, rfl⟩ := processEvent_passed hfd hloop h
    refine Or.inr ⟨hfd, done, kept, hspec.completed hinv hsplit _, ?_, hspec.adjusted ev.fd⟩
    rw [hsplit.filter_on]
    exact hspec.perm

/-- An event fails only with the checks on `epoll_ctl`. -/
theorem processEvent_error {M : Kernel K} {tw : Nat} {ev : EpollEvent} {st : Notify K}
    {log : List AsyncIoOperation} (hinv : st.sched.Inv log st.total) {e : Contract}
    (h : processEvent M tw ev st = .error e) : e = .epollDelete ∨ e = .epollModify := by
  by_cases hfd : ev.fd = st.sched.wakeFd
  · rw [processEvent, if_pos hfd] at h
    exact absurd h (by simp)
  · obtain ⟨l, _, _, _, _, _, -, -, hloop⟩ := eventLoop_spec M tw ev st hinv
    rw [processEvent_of_loop hfd hloop] at h
    cases hreg : reregister (M.isOpen l.kernel ev.fd) l.sched.interest ev.fd
        (decide (l.itemsForFd = l.itemsProcessed)) l.reregister with
    | error e' =>
      rw [hreg] at h
      simp only [Except.map, Except.error.injEq] at h
      exact h ▸ reregister_error hreg
    | ok reg => rw [hreg] at h; exact absurd h (by simp [Except.map])

/-- Every event completes some active operations. -/
theorem processEvent_completed {M : Kernel K} {tw : Nat} {ev : EpollEvent} {st st' : Notify K}
    {log : List AsyncIoOperation} (hinv : st.sched.Inv log st.total)
    (h : processEvent M tw ev st = .ok st') : ∃ done, Completed M st st' done := by
  rcases processEvent_ok hinv h with ⟨-, rfl⟩ | ⟨-, done, kept, hspec⟩
  · exact ⟨[], .of_eq rfl rfl rfl rfl rfl rfl rfl rfl rfl⟩
  · exact ⟨done, hspec.completed⟩

/-- A batch that passed its checks, event by event. -/
theorem processNotifications_cons {M : Kernel K} {tw : Nat} {ev : EpollEvent}
    {events : List EpollEvent} {st st' : Notify K} :
    processNotifications M tw (ev :: events) st = .ok st' ↔
      ∃ st₁, processEvent M tw ev st = .ok st₁ ∧ processNotifications M tw events st₁ = .ok st' := by
  rw [processNotifications]
  cases processEvent M tw ev st <;> simp

/-- **Induction over the events of a batch**: what every event preserves, the batch does. -/
theorem processNotifications_induct {M : Kernel K} {tw : Nat} {log : List AsyncIoOperation}
    (P : Notify K → Prop)
    (hP : ∀ ev st st', st.sched.Inv log st.total → P st → processEvent M tw ev st = .ok st' → P st')
    (events : List EpollEvent) {st st' : Notify K} (hinv : st.sched.Inv log st.total) (h0 : P st)
    (h : processNotifications M tw events st = .ok st') : P st' := by
  induction events generalizing st with
  | nil =>
    rw [processNotifications, Except.ok.injEq] at h
    exact h ▸ h0
  | cons ev events ih =>
    obtain ⟨st₁, hev, hrest⟩ := processNotifications_cons.mp h
    obtain ⟨done, hdone⟩ := processEvent_completed hinv hev
    exact ih (hdone.inv hinv) (hP ev st st₁ hinv h0 hev) hrest

/-- **Spec of `process_notifications`.** -/
theorem processNotifications_ok {M : Kernel K} {tw : Nat} {events : List EpollEvent}
    {st st' : Notify K} {log : List AsyncIoOperation} (hinv : st.sched.Inv log st.total)
    (h : processNotifications M tw events st = .ok st') : ∃ done, Completed M st st' done := by
  refine processNotifications_induct (fun t => ∃ done, Completed M st t done) ?_ events hinv
    ⟨[], .of_eq rfl rfl rfl rfl rfl rfl rfl rfl rfl⟩ h
  rintro ev t t' ht ⟨done, hdone⟩ hev
  obtain ⟨done', hdone'⟩ := processEvent_completed ht hev
  exact ⟨done ++ done', hdone.trans hdone'⟩

/-- A batch can only fail in one of its two calls of `epoll_ctl`. -/
theorem processNotifications_error {M : Kernel K} {tw : Nat} {events : List EpollEvent}
    {st : Notify K} {log : List AsyncIoOperation} (hinv : st.sched.Inv log st.total) {e : Contract}
    (h : processNotifications M tw events st = .error e) : e = .epollDelete ∨ e = .epollModify := by
  induction events generalizing st with
  | nil => exact absurd h (by simp [processNotifications])
  | cons ev events ih =>
    rw [processNotifications] at h
    split at h
    · rename_i e' hev
      rw [Except.error.injEq] at h
      exact h ▸ processEvent_error hinv hev
    · rename_i st₁ hev
      obtain ⟨done, hdone⟩ := processEvent_completed hinv hev
      exact ih (hdone.inv hinv) h

/-! ### `poll_once` -/

/-- The state `process_notifications` starts in. -/
def Notify.start (s : IoScheduler) (k : K) : Notify K :=
  { sched := s, kernel := k, posted := [], attempts := [], total := 0 }

/-- A batch begins in a state that keeps the invariant, with nothing processed. -/
theorem Inv.start {s : IoScheduler} {log : List AsyncIoOperation} (hinv : s.Inv log 0) (k : K) :
    (Notify.start s k).sched.Inv log (Notify.start s k).total := hinv

/-- The subtraction after `process_notifications` does not underflow. -/
theorem decrementCount_of_inv {s : IoScheduler} {log : List AsyncIoOperation} {extra : Nat}
    (hinv : s.Inv log extra) : decrementCount s.pollQueueLength extra = .ok s.operations.length := by
  rw [decrementCount, if_pos (by rw [hinv.length]; omega), hinv.length]
  simp

/-- **Spec of the second critical section.** -/
theorem notificationPhase_ok {M : Kernel K} {tw : Nat} {k : K} {events : List EpollEvent}
    {s : IoScheduler} {n : Notify K} {log : List AsyncIoOperation} (hinv : s.Inv log 0)
    (h : s.notificationPhase M tw k events = .ok n) :
    ∃ st done, processNotifications M tw events (Notify.start s k) = .ok st ∧
      Completed M (Notify.start s k) st done ∧
      n = { st with sched := { st.sched with pollQueueLength := st.sched.operations.length } } := by
  rw [notificationPhase, show (⟨s, k, [], [], 0⟩ : Notify K) = Notify.start s k from rfl] at h
  split at h
  · exact absurd h (by simp)
  · rename_i st hst
    obtain ⟨done, hdone⟩ :=
      processNotifications_ok (hinv.start k) hst
    rw [decrementCount_of_inv (hdone.inv hinv)] at h
    exact ⟨st, done, hst, hdone, by simpa using h.symm⟩

/-- The second critical section fails only with the checks on `epoll_ctl`. -/
theorem notificationPhase_error {M : Kernel K} {tw : Nat} {k : K} {events : List EpollEvent}
    {s : IoScheduler} {log : List AsyncIoOperation} (hinv : s.Inv log 0) {e : Contract}
    (h : s.notificationPhase M tw k events = .error e) : e = .epollDelete ∨ e = .epollModify := by
  rw [notificationPhase, show (⟨s, k, [], [], 0⟩ : Notify K) = Notify.start s k from rfl] at h
  split at h
  · rename_i e' hst
    rw [Except.error.injEq] at h
    exact h ▸ processNotifications_error (hinv.start k) hst
  · rename_i st hst
    obtain ⟨done, hdone⟩ :=
      processNotifications_ok (hinv.start k) hst
    rw [decrementCount_of_inv (hdone.inv hinv)] at h
    exact absurd h (by simp)

/-- `process_cancellations` takes the operations off the end of the list. -/
theorem processCancellations_eq (tw : Nat) (can : List AsyncIoOperation) (s : IoScheduler)
    (act : List AsyncIoOperation) (count : Nat) (hops : s.operations = act ++ can)
    (hnd : s.operations.Nodup) :
    ∃ w, s.wakeCounter ≤ w ∧ processCancellations tw can (s, count)
      = ({ s with operations := act, wakeCounter := w }, count + can.length) := by
  induction can generalizing s count with
  | nil =>
    rw [List.append_nil] at hops
    exact ⟨s.wakeCounter, le_refl _, by rw [← hops]; rfl⟩
  | cons item can ih =>
    -- the item in front of the cancelled ones is the one that is erased
    have herase : s.operations.erase item = act ++ can := by
      rw [hops] at hnd ⊢
      exact Cursor.erase_append hnd
    obtain ⟨w, hle, hw⟩ := ih (({ s with operations := s.operations.erase item }).trigger tw)
      (count + 1) herase (hnd.erase item)
    refine ⟨w, (Nat.le_add_right _ _).trans hle, ?_⟩
    rw [processCancellations, hw, List.length_cons, Nat.add_assoc, Nat.add_comm 1]
    rfl

/-- **Spec of the first critical section.** No check fails; the cancelled operations are
    posted; the function returns there exactly when nothing is active. -/
theorem cancellationPhase_spec {s : IoScheduler} {log : List AsyncIoOperation}
    (hinv : s.Inv log 0) (tw : Nat) :
    ∃ w, s.wakeCounter ≤ w ∧ s.cancellationPhase tw = .ok
      { sched := { s with
          operations := s.activeSegment
          beginCancelled := none
          pollQueueLength := s.activeSegment.length
          wakeCounter := w }
        posted := s.cancelledSegment
        numCancelled := s.cancelledSegment.length
        returned := decide (s.activeSegment = []) } := by
  obtain ⟨w, hle, hw⟩ := processCancellations_eq tw s.cancelledSegment s s.activeSegment 0
    s.segments_append.symm hinv.nodup
  refine ⟨w, hle, ?_⟩
  have hlen : s.pollQueueLength = s.activeSegment.length + s.cancelledSegment.length := by
    rw [hinv.length, ← s.segments_append, List.length_append]; rfl
  -- the count covers the list, so taking the cancelled ones off does not underflow
  have hdec : decrementCount s.pollQueueLength s.cancelledSegment.length
      = .ok s.activeSegment.length := by
    rw [decrementCount, if_pos (by omega), hlen]
    simp
  simp only [cancellationPhase, hw, Nat.zero_add, ne_eq, not_true_eq_false, if_false, hdec]
  by_cases hact : s.activeSegment = []
  · simp [hact]
  · -- something is left to poll for
    have hhead : s.activeSegment.head? ≠ none := by simpa using hact
    simp [hact]

/-- The first critical section keeps the invariant. -/
theorem cancellationPhase_inv {s : IoScheduler} {p : CancelPhase} {log : List AsyncIoOperation}
    (hinv : s.Inv log 0) {tw : Nat} (h : s.cancellationPhase tw = .ok p) : p.sched.Inv log 0 := by
  obtain ⟨w, -, hw⟩ := cancellationPhase_spec hinv tw
  rw [hw, Except.ok.injEq] at h
  subst h
  exact Inv.of_segments (List.append_nil _).symm hinv.nodup_active rfl hinv.sorted
    hinv.active (by simp) hinv.fifo rfl

end IoScheduler

end Exios
