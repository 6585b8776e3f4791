import Exios.Context.LinkedSections

namespace Exios

open Exios.Ring (Links IsRing headOf headOf_cons headOf_nil)
open IntrusiveList (WellFormed KeepsUnlinked Unlinked beginIt pushBack erase iter)

/-!
# Context — `poll_once` on linked nodes

The two critical sections of `poll_once`, for a memory that represents a scheduler, the completion
queue and the batches (`Denotes`).

* `Denotes.complete` — an operation leaves `operations_` and enters the completion queue, both by
  way of its own two link fields;
* `Denotes.pollCancellations` — the loop over the cancelled operations, and the early return;
* `Denotes.eventLoop`, `Denotes.pollNotifications` — the loops over the operations of an event and
  over the events of a batch.  An operation is erased while the loop stands on it, so the loop goes
  on at the iterator that `erase` returns.
-/

namespace Linked

variable {K : Type} {n : Nat} {loc : AnyAsyncOperation → Nat}

/-- An operation moves to the completion queue. -/
theorem noneEnters_complete (as bs : List AsyncIoOperation) (op : AsyncIoOperation)
    (queue : List AnyAsyncOperation) (batch : Fin n → List AnyAsyncOperation) :
    NoneEnters (as ++ op :: bs) queue batch (as ++ bs) (queue ++ [.io op]) batch := by
  intro i x hx
  cases i with
  | operations =>
    obtain ⟨y, hy, rfl⟩ := List.mem_map.mp hx
    refine ⟨.operations, mem_operations ?_⟩
    simp only [List.mem_append, List.mem_cons] at hy ⊢
    tauto
  | completionQueue =>
    rcases List.mem_append.mp hx with hx | hx
    · exact ⟨.completionQueue, hx⟩
    · rw [List.mem_singleton.mp hx]
      exact ⟨.operations, mem_operations (List.mem_append_right as List.mem_cons_self)⟩
  | batch t => exact ⟨.batch t, hx⟩

/-- The check of `post` passes: the queue that has just been written to is not empty. -/
theorem enqueue_ok {l : Linked K n} {item : Node n} {links : Links (Node n)}
    {ops : List AsyncIoOperation} {queue : List AnyAsyncOperation}
    {batch : Fin n → List AnyAsyncOperation}
    (hpush : pushBack l.links (.sentinel .completionQueue) (some item) = .ok links)
    (hheap : WellFormed Node.sentinel links (nodes loc ops queue batch)) (hqueue : queue ≠ []) :
    l.enqueue item = .ok { l with links := links } := by
  have hempty : IntrusiveList.empty links (.sentinel .completionQueue) = false := by
    rw [hheap.empty_eq, nodes, lists, List.isEmpty_map]
    cases queue with
    | nil => exact absurd rfl hqueue
    | cons x xs => rfl
  rw [enqueue, hpush]
  simp [Except.bind, hempty]

namespace Denotes

variable {l : Linked K n} {io : IoScheduler} {kernel : K} {queue : List AnyAsyncOperation}
  {batch : Fin n → List AnyAsyncOperation}

/-- **An operation moves from `operations_` to the completion queue.**  `erase` returns the
    iterator behind it. -/
theorem complete (h : Denotes loc l io kernel queue batch) {as bs : List AsyncIoOperation}
    {op : AsyncIoOperation} (hops : io.operations = as ++ op :: bs) (tw : Nat) :
    ∃ links l', erase l.links (.sentinel .operations) (ioNode loc op)
        = .ok (links, headOf (.sentinel .operations) (bs.map (ioNode loc))) ∧
      ({ l with links := links }).post tw (ioNode loc op) = .ok l' ∧
      Denotes loc l' (({ io with operations := as ++ bs }).trigger tw) kernel
        (queue ++ [.io op]) batch ∧
      Untouched loc io.operations queue batch none l l' := by
  have hcut : nodes (n := n) loc io.operations queue batch .operations
      = as.map (ioNode loc) ++ ioNode loc op :: bs.map (ioNode loc) := by
    rw [nodes_operations, hops, List.map_append, List.map_cons]
  obtain ⟨links, herase, hheap, hkeep⟩ := h.heap.erase_ok hcut
  rw [← List.map_append, update_operations] at hheap
  -- the node is in no list now
  have hunlinked : Unlinked Node.sentinel (nodes loc (as ++ bs) queue batch) (ioNode loc op) := by
    have hin : ioNode loc op ∈ Node.sentinel .operations ::
        nodes loc io.operations queue batch .operations :=
      List.mem_cons_of_mem _ (by rw [hcut]; exact List.mem_append_right _ List.mem_cons_self)
    intro i hi
    cases i with
    | operations =>
      have hnd := h.ring.1
      rw [hops, List.map_append, List.map_cons, List.nodup_cons, List.nodup_middle,
        List.nodup_cons] at hnd
      rcases List.mem_cons.mp hi with he | hm
      · exact absurd he (by simp [ioNode])
      · rw [nodes_operations, List.map_append] at hm
        exact hnd.2.1 hm
    | completionQueue => exact absurd (h.heap.own _ _ _ hin hi) (by simp)
    | batch t => exact absurd (h.heap.own _ _ _ hin hi) (by simp)
  obtain ⟨links', hpush, hheap', hkeep'⟩ := hheap.pushBack_ok hunlinked .completionQueue
  have hqueue : nodes (n := n) loc (as ++ bs) queue batch .completionQueue ++ [ioNode loc op]
      = (queue ++ [AnyAsyncOperation.io op]).map (node loc) := by
    rw [List.map_append]
    rfl
  rw [hqueue, update_completionQueue] at hheap'
  refine ⟨links, ({ l with links := links' }).trigger tw, herase, ?_,
    ⟨hheap', ?_, h.beginCancelled, h.pollQueueLength, h.interest, h.wakeFd, ?_, h.kernel⟩, ?_,
    fun _ _ _ => rfl, rfl⟩
  · have hrun : ({ l with links := links } : Linked K n).enqueue (ioNode loc op)
        = .ok { l with links := links' } := enqueue_ok hpush hheap' (by simp)
    rw [post, hrun]
    rfl
  · intro i x hx
    refine h.cells_of ?_ i x hx
    rw [hops]
    exact noneEnters_complete as bs op queue batch
  · simp only [trigger, IoScheduler.trigger, h.wakeCounter]
  · intro x hx _
    have hx' : Unlinked Node.sentinel (nodes loc (as ++ bs) queue batch) x := by
      rw [hops] at hx
      refine NoneEnters.unlinked (fun i y hy => noneEnters_complete as bs op queue batch i y ?_) hx
      cases i with
      | operations | batch => exact hy
      | completionQueue => exact List.mem_append_left _ hy
    have hne : x ≠ ioNode loc op := by
      rintro rfl
      refine hx .operations (List.mem_cons_of_mem _ ?_)
      rw [hcut]
      exact List.mem_append_right _ List.mem_cons_self
    obtain ⟨hn, hp⟩ := hkeep x hx (by simp)
    obtain ⟨hn', hp'⟩ := hkeep' x hx' (by simpa using hne)
    exact ⟨hn'.trans hn, hp'.trans hp⟩

/-! ### The cancellation phase -/

/-- The loop of `process_cancellations`. -/
theorem processCancellations_ok (h : Denotes loc l io kernel queue batch)
    {as can : List AsyncIoOperation} (hops : io.operations = as ++ can) (tw count : Nat) :
    ∃ l', (∀ fuel, can.length < fuel → processCancellations tw (.sentinel .operations) fuel
        (headOf (.sentinel .operations) (can.map (ioNode loc))) l count
        = some (.ok (l', (IoScheduler.processCancellations tw can (io, count)).2,
            .sentinel .operations))) ∧
      Denotes loc l' (IoScheduler.processCancellations tw can (io, count)).1 kernel
        (queue ++ can.map .io) batch ∧
      Untouched loc io.operations queue batch none l l' := by
  induction can generalizing l io queue count with
  | nil =>
    refine ⟨l, fun fuel hfuel => ?_, by simpa [IoScheduler.processCancellations] using h, .refl l⟩
    obtain ⟨m, rfl⟩ : ∃ m, fuel = m + 1 := ⟨fuel - 1, by omega⟩
    simp [processCancellations, IoScheduler.processCancellations]
  -- the first cancelled item is erased and posted, then the loop goes on with the rest
  | cons op can ih =>
    obtain ⟨links, l₁, herase, hpost, h₁, hkeep₁⟩ := h.complete hops tw
    have hnd : (as ++ op :: can).Nodup := by
      have hnd := (List.nodup_cons.mp h.ring.1).2
      rw [hops] at hnd
      exact hnd.of_map
    have hrest : ({ io with operations := io.operations.erase op }).trigger tw
        = ({ io with operations := as ++ can }).trigger tw := by
      rw [hops, Cursor.erase_append hnd]
    obtain ⟨l', hrun, h', hkeep'⟩ := ih h₁ rfl (count + 1)
    have hne : ioNode loc op ≠ Node.sentinel (n := n) .operations := by simp [ioNode]
    refine ⟨l', fun fuel hfuel => ?_, ?_, ?_⟩
    · rw [List.length_cons] at hfuel
      obtain ⟨m, rfl⟩ : ∃ m, fuel = m + 1 := ⟨fuel - 1, by omega⟩
      rw [List.map_cons, headOf_cons, processCancellations, if_neg hne]
      simp only [herase, hpost, hrun m (by omega), IoScheduler.processCancellations, hrest]
    · rw [IoScheduler.processCancellations, hrest, List.map_cons, List.append_cons]
      exact h'
    · rw [hops] at hkeep₁ ⊢
      exact hkeep₁.trans (noneEnters_complete as can op queue batch) hkeep'

/-- **The first critical section of `poll_once` on the nodes.** -/
theorem pollCancellations (h : Denotes loc l io kernel queue batch) {log : List AsyncIoOperation}
    {extra : Nat} (hinv : io.Inv log extra) {tw : Nat} {p : IoScheduler.CancelPhase}
    (hio : io.cancellationPhase tw = .ok p) :
    ∃ l', (∀ fuel, io.operations.length < fuel →
        l.pollCancellations fuel tw = some (.ok (l', p.numCancelled, p.returned))) ∧
      Denotes loc l' p.sched kernel (queue ++ p.posted.map .io) batch ∧
      Untouched loc io.operations queue batch none l l' := by
  have hlen : io.cancelledSegment.length ≤ io.operations.length := by
    rw [← io.segments_append, List.length_append]
    omega
  obtain ⟨l₁, hrun, h₁, hkeep⟩ := h.processCancellations_ok io.segments_append.symm tw 0
  rw [← h.last_eq hinv] at hrun
  simp only [IoScheduler.cancellationPhase] at hio
  generalize hc : IoScheduler.processCancellations tw io.cancelledSegment (io, 0) = c at hio hrun h₁
  obtain ⟨io₁, num⟩ := c
  simp only [ne_eq, not_true_eq_false, if_false] at hio hrun h₁
  cases hd : IoScheduler.decrementCount io₁.pollQueueLength num with
  | error e => rw [hd] at hio; exact absurd hio (by simp)
  | ok length =>
    simp only [hd] at hio
    -- the loop ends at `end()`, which `begin_cancelled_` becomes
    have h₃ : Denotes loc
        { l₁ with beginCancelled := .sentinel .operations, pollQueueLength := length }
        { io₁ with beginCancelled := none, pollQueueLength := length } kernel
        (queue ++ io.cancelledSegment.map .io) batch :=
      ⟨h₁.heap, h₁.cells, rfl, rfl, h₁.interest, h₁.wakeFd, h₁.wakeCounter, h₁.kernel⟩
    have hempty : beginIt l₁.links (.sentinel .operations) = .sentinel .operations ↔
        io₁.operations.head? = none := by
      rw [h₁.begin_eq]
      cases io₁.operations with
      | nil => simp
      | cons op ops => simp [ioNode]
    refine ⟨{ l₁ with beginCancelled := .sentinel .operations, pollQueueLength := length },
      fun fuel hfuel => ?_, ?_⟩
    · simp only [Linked.pollCancellations, hrun fuel (lt_of_le_of_lt hlen hfuel), Option.map_some,
        Except.bind, not_true_eq_false, if_false, h₁.pollQueueLength, hd, hempty, ne_eq]
      split at hio
      · rename_i hnone
        split at hio
        · exact absurd hio (by simp)
        · rename_i hzero
          rw [Except.ok.injEq] at hio
          subst hio
          simp [hnone, not_not.mp hzero]
      · rename_i hsome
        rw [Except.ok.injEq] at hio
        subst hio
        simp [hsome]
    split at hio
    · rename_i hnone
      split at hio
      · exact absurd hio (by simp)
      · rename_i hzero
        rw [Except.ok.injEq] at hio
        subst hio
        exact ⟨h₃, hkeep.links, hkeep.cell, hkeep.moved⟩
    · rename_i hsome
      rw [Except.ok.injEq] at hio
      subst hio
      exact ⟨h₃, hkeep.links, hkeep.cell, hkeep.moved⟩

/-! ### The loop over the operations of an event -/

/-- The listed operations have no duplicates. -/
theorem operations_nodup (h : Denotes loc l io kernel queue batch) : io.operations.Nodup :=
  ((List.nodup_cons.mp h.ring.1).2).of_map

/-- The fields of a scheduled operation are written, and the kernel moves. -/
theorem setState (h : Denotes loc l io kernel queue batch) {op : AsyncIoOperation}
    (hop : op ∈ io.operations) (state : OpState) (kernel' : K) :
    Denotes loc
      { l with
        kernel := kernel'
        cell := Function.update l.cell (ioNode loc op) ⟨(l.cell (ioNode loc op)).op, state⟩ }
      { io with state := Function.update io.state op state } kernel' queue batch := by
  refine ⟨h.heap, ?_, h.beginCancelled, h.pollQueueLength, h.interest, h.wakeFd, h.wakeCounter, rfl⟩
  intro i x hx
  have hc := h.cells i x hx
  by_cases hne : (node loc x : Node n) = ioNode loc op
  · obtain rfl : x = .io op := h.node_inj hx (mem_operations hop) hne
    refine ⟨?_, fun y hy => ?_⟩
    · show (Function.update l.cell _ _ (node loc (.io op))).op = _
      rw [hne, Function.update_self]
      exact hc.object
    · obtain rfl := AnyAsyncOperation.io.inj hy
      show (Function.update l.cell _ _ (node loc (.io op))).state
        = Function.update io.state op state op
      rw [hne, Function.update_self, Function.update_self]
  · -- the other cells are not written to
    refine ⟨?_, fun y hy => ?_⟩
    · show (Function.update l.cell _ _ (node loc x)).op = _
      rw [Function.update_of_ne hne]
      exact hc.object
    · have hyop : y ≠ op := fun he => hne (by rw [hy, he]; rfl)
      show (Function.update l.cell _ _ (node loc x)).state = Function.update io.state op state y
      rw [Function.update_of_ne hne, Function.update_of_ne hyop]
      exact hc.state y hy

/-- A scheduled operation's storage is not outside the lists. -/
theorem ne_of_unlinked {op : AsyncIoOperation} (hop : op ∈ io.operations) {x : Node n}
    (hx : Unlinked Node.sentinel (nodes loc io.operations queue batch) x) : x ≠ ioNode loc op := by
  rintro rfl
  refine hx .operations (List.mem_cons_of_mem _ ?_)
  rw [nodes_operations]
  exact List.mem_map_of_mem hop

end Denotes

/-- The loop's variables on the nodes and on the sequences. -/
structure Follows (loc : AnyAsyncOperation → Nat) (queue : List AnyAsyncOperation)
    (batch : Fin n → List AnyAsyncOperation) (st : EventLoop K n) (it : IoScheduler.FdLoop K) :
    Prop where
  mem : Denotes loc st.mem it.sched it.kernel (queue ++ it.posted.map .io) batch
  itemsForFd : st.itemsForFd = it.itemsForFd
  itemsProcessed : st.itemsProcessed = it.itemsProcessed
  reregister : st.reregister = it.reregister

namespace Follows

variable {M : Kernel K} {tw : Nat} {mask : Events} {queue : List AnyAsyncOperation}
  {batch : Fin n → List AnyAsyncOperation} {st : EventLoop K n} {it it' : IoScheduler.FdLoop K}
  {item : AsyncIoOperation} {as bs : List AsyncIoOperation}

/-- `perform_io` on the nodes. -/
theorem performIo (h : Follows loc queue batch st it) (hmem : item ∈ it.sched.operations)
    {done : Bool} (hio : IoScheduler.performIo M it item = .ok (done, it')) :
    ∃ l', Linked.performIo M st.mem (ioNode loc item) = .ok (done, l') ∧
      Follows loc queue batch { st with mem := l' } it' ∧
      it'.sched.operations = it.sched.operations ∧ it'.posted = it.posted ∧
      Untouched loc it.sched.operations (queue ++ it.posted.map .io) batch none st.mem l' := by
  obtain ⟨hobj, hstate, hop⟩ := h.mem.cell_io hmem
  simp only [IoScheduler.performIo] at hio
  -- a failing check is a failure of both
  split at hio
  · exact absurd hio (by simp)
  · rename_i done' result hres
    simp only [Except.ok.injEq, Prod.mk.injEq] at hio
    obtain ⟨rfl, rfl⟩ := hio
    refine ⟨_, ?_, ⟨h.mem.setState hmem ⟨(it.sched.state item).cancelled, result⟩ _,
      h.itemsForFd, h.itemsProcessed, h.reregister⟩, rfl, rfl, fun _ _ _ => ⟨rfl, rfl⟩, ?_, rfl⟩
    · simp only [Linked.performIo, hobj, hstate, h.mem.kernel, hres]
    · intro x hx _
      exact Function.update_of_ne (Denotes.ne_of_unlinked hmem hx) _ _

/-- The scope guard fires alike. -/
theorem keep (h : Follows loc queue batch st it) (hmem : item ∈ it.sched.operations) :
    Follows loc queue batch (st.keep (ioNode loc item)) (it.keep item) :=
  ⟨h.mem, h.itemsForFd, h.itemsProcessed, by
    rw [EventLoop.keep, IoScheduler.FdLoop.keep, h.reregister, (h.mem.cell_io hmem).1]⟩

/-- **One round of the loop**: the loop goes on behind the item, with the operations that the body
    on the sequences leaves. -/
theorem eventItem (h : Follows loc queue batch st it)
    (hops : it.sched.operations = as ++ item :: bs)
    (hitem : IoScheduler.notifyItem M tw mask it item = .ok it') {fd : Int} (hfd : item.fd = fd)
    {last : Node n} (hlast : ioNode loc item ≠ last) :
    ∃ st' as', (∀ fuel, eventLoop M tw fd mask last (fuel + 1) (ioNode loc item) st
        = eventLoop M tw fd mask last fuel
            (headOf (.sentinel .operations) (bs.map (ioNode loc))) st') ∧
      Follows loc queue batch st' it' ∧ it'.sched.operations = as' ++ bs ∧
      Untouched loc it.sched.operations (queue ++ it.posted.map .io) batch none st.mem st'.mem ∧
      NoneEnters it.sched.operations (queue ++ it.posted.map .io) batch it'.sched.operations
        (queue ++ it'.posted.map .io) batch := by
  have hmem : item ∈ it.sched.operations := by
    rw [hops]
    exact List.mem_append_right as List.mem_cons_self
  obtain ⟨hobj, hstate, -⟩ := h.mem.cell_io hmem
  have hgo : ioNode loc item ≠ last ∧ st.mem.fd (ioNode loc item) = fd :=
    ⟨hlast, (h.mem.fd_eq hmem).trans hfd⟩
  have hnext : st.mem.links.next (ioNode loc item)
      = headOf (.sentinel .operations) (bs.map (ioNode loc)) := by
    have hring := h.mem.ring
    rw [hops, List.map_append, List.map_cons] at hring
    exact hring.neighbours.2
  -- the variables with the item counted
  have hcount : Follows loc queue batch { st with itemsForFd := st.itemsForFd + 1 }
      { it with itemsForFd := it.itemsForFd + 1 } :=
    ⟨h.mem, by rw [h.itemsForFd], h.itemsProcessed, h.reregister⟩
  have hsame := NoneEnters.refl it.sched.operations (queue ++ it.posted.map .io) batch
  have happ : it.sched.operations = (as ++ [item]) ++ bs := by rw [hops, List.append_cons]
  simp only [eventLoop, hgo, if_true, hobj, hstate, hnext, true_and, ne_eq, not_false_eq_true]
  unfold IoScheduler.notifyItem at hitem
  simp only at hitem
  split at hitem
  · -- marked by a `cancel`
    rename_i hcancelled
    rw [Except.ok.injEq] at hitem
    subst hitem
    simp only [hcancelled, if_true]
    exact ⟨_, as ++ [item], fun _ => rfl, hcount.keep hmem, happ, .refl _, hsame⟩
  · rename_i hcancelled
    simp only [hcancelled, Bool.false_eq_true, if_false]
    split at hitem
    · -- not for the direction of the item
      rename_i hsel
      rw [Except.ok.injEq] at hitem
      subst hitem
      simp only [ne_eq] at hsel
      simp only [hsel, not_false_eq_true, if_true]
      exact ⟨_, as ++ [item], fun _ => rfl, hcount.keep hmem, happ, .refl _, hsame⟩
    · rename_i hsel
      simp only [ne_eq] at hsel
      simp only [hsel, if_false]
      split at hitem
      · exact absurd hitem (by simp)
      · -- still pending
        rename_i it₁ hio
        rw [Except.ok.injEq] at hitem
        subst hitem
        obtain ⟨l₁, hrun, h₁, hops₁, hposted₁, hkeep⟩ := hcount.performIo hmem hio
        have hops₁' : it₁.sched.operations = it.sched.operations := hops₁
        have hposted₁' : it₁.posted = it.posted := hposted₁
        simp only [hrun]
        refine ⟨_, as ++ [item], fun _ => rfl, h₁.keep (hops₁' ▸ hmem), hops₁'.trans happ, hkeep, ?_⟩
        simp only [IoScheduler.FdLoop.keep, hops₁', hposted₁']
        exact hsame
      · -- completed: the item leaves the list while the loop stands on it
        rename_i it₁ hio
        rw [Except.ok.injEq] at hitem
        subst hitem
        obtain ⟨l₁, hrun, h₁, hops₁, hposted₁, hkeep⟩ := hcount.performIo hmem hio
        have hops₁' : it₁.sched.operations = as ++ item :: bs := Eq.trans hops₁ hops
        have hposted₁' : it₁.posted = it.posted := hposted₁
        obtain ⟨links, l₂, herase, hpost, h₂, hkeep₂⟩ := h₁.mem.complete hops₁' tw
        have herased : it₁.sched.operations.erase item = as ++ bs := by
          have hnd := h.mem.operations_nodup
          rw [hops] at hnd
          rw [hops₁', Cursor.erase_append hnd]
        have hsub := noneEnters_complete as bs item (queue ++ it.posted.map .io) batch
        simp only [hrun, herase, hpost]
        refine ⟨_, as, fun _ => rfl, ⟨?_, ?_, ?_, ?_⟩, herased, ?_, ?_⟩
        · simp only [IoScheduler.FdLoop.complete, herased, List.map_append, List.map_cons,
            List.map_nil,
            ← List.append_assoc]
          exact h₂
        · exact h₁.itemsForFd
        · exact congrArg (· + 1) h₁.itemsProcessed
        · exact h₁.reregister
        · refine hkeep.trans ?_ hkeep₂
          rw [hops₁', hposted₁', ← hops]
          exact hsame
        · simp only [IoScheduler.FdLoop.complete, IoScheduler.trigger, herased, hposted₁', hops,
            List.map_append, List.map_cons, List.map_nil, ← List.append_assoc]
          exact hsub

/-- **The loop over the operations of an event**, on the nodes. -/
theorem eventLoop_ok {fd : Int} {rest can : List AsyncIoOperation}
    (h : Follows loc queue batch st it) (hops : it.sched.operations = as ++ (rest ++ can))
    (hloop : IoScheduler.notifyLoop M tw fd mask rest it = .ok it') :
    ∃ st', (∀ fuel, rest.length < fuel →
        eventLoop M tw fd mask (headOf (.sentinel .operations) (can.map (ioNode loc))) fuel
          (headOf (.sentinel .operations) ((rest ++ can).map (ioNode loc))) st = some (.ok st')) ∧
      Follows loc queue batch st' it' ∧
      Untouched loc it.sched.operations (queue ++ it.posted.map .io) batch none st.mem st'.mem ∧
      NoneEnters it.sched.operations (queue ++ it.posted.map .io) batch it'.sched.operations
        (queue ++ it'.posted.map .io) batch := by
  -- induction over the operations that the loop has still to visit
  induction rest generalizing st it as with
  | nil =>
    rw [IoScheduler.notifyLoop, Except.ok.injEq] at hloop
    subst hloop
    refine ⟨st, fun fuel hfuel => ?_, h, .refl _, .refl _ _ _⟩
    obtain ⟨m, rfl⟩ : ∃ m, fuel = m + 1 := ⟨fuel - 1, by omega⟩
    simp [eventLoop]
  | cons item rest ih =>
    have hring := h.mem.ring
    rw [hops, List.map_append, List.map_append, List.map_cons] at hring
    rw [IoScheduler.notifyLoop] at hloop
    split at hloop
    · rename_i hfd
      split at hloop
      · exact absurd hloop (by simp)
      · rename_i it₁ hitem
        obtain ⟨st₁, as₁, hround, h₁, hops₁, hkeep₁, hsub₁⟩ :=
          h.eventItem hops hitem hfd hring.ne_last
        obtain ⟨st', hrun, h', hkeep', hsub'⟩ := ih h₁ hops₁ hloop
        refine ⟨st', fun fuel hfuel => ?_, h', hkeep₁.trans hsub₁ hkeep', hsub₁.trans hsub'⟩
        rw [List.length_cons] at hfuel
        obtain ⟨m, rfl⟩ : ∃ m, fuel = m + 1 := ⟨fuel - 1, by omega⟩
        rw [List.cons_append, List.map_cons, headOf_cons]
        exact (hround m).trans (hrun m (by omega))
    · -- the operations on the descriptor end here
      rename_i hfd
      rw [Except.ok.injEq] at hloop
      subst hloop
      have hmem : item ∈ it.sched.operations := by rw [hops]; simp
      refine ⟨st, fun fuel hfuel => ?_, h, .refl _, .refl _ _ _⟩
      obtain ⟨m, rfl⟩ : ∃ m, fuel = m + 1 := ⟨fuel - 1, by omega⟩
      rw [List.cons_append, List.map_cons, headOf_cons, eventLoop,
        if_neg (fun hc => hfd ((h.mem.fd_eq hmem).symm.trans hc.2))]

end Follows

/-! ### The notification phase -/

namespace Denotes

variable {M : Kernel K} {tw : Nat} {st st' : IoScheduler.Notify K} {l : Linked K n}
  {queue : List AnyAsyncOperation} {batch : Fin n → List AnyAsyncOperation}
  {log : List AsyncIoOperation}

/-- **One event**, on the nodes. -/
theorem processEvent (h : Denotes loc l st.sched st.kernel (queue ++ st.posted.map .io) batch)
    (hinv : st.sched.Inv log st.total) {ev : EpollEvent}
    (hev : IoScheduler.processEvent M tw ev st = .ok st') :
    ∃ l', (∀ fuel, st.sched.operations.length < fuel →
        Linked.processEvent M fuel tw ev l st.total = some (.ok (l', st'.total))) ∧
      Denotes loc l' st'.sched st'.kernel (queue ++ st'.posted.map .io) batch ∧
      Untouched loc st.sched.operations (queue ++ st.posted.map .io) batch none l l' ∧
      NoneEnters st.sched.operations (queue ++ st.posted.map .io) batch st'.sched.operations
        (queue ++ st'.posted.map .io) batch := by
  by_cases hfd : ev.fd = st.sched.wakeFd
  · -- the wake event is drained
    rw [IoScheduler.processEvent, if_pos hfd, Except.ok.injEq] at hev
    subst hev
    exact ⟨{ l with wakeCounter := 0 },
      fun _ _ => by rw [Linked.processEvent, if_pos (by rw [h.wakeFd, hfd])],
      ⟨h.heap, h.cells, h.beginCancelled, h.pollQueueLength, h.interest, h.wakeFd, rfl, h.kernel⟩,
      .of_eq rfl rfl rfl, .refl _ _ _⟩
  · obtain ⟨lo, eq, hi, hsplit⟩ := exists_fdSplit hinv.sorted ev.fd
    have hops : st.sched.operations = lo ++ ((eq ++ hi) ++ st.sched.cancelledSegment) := by
      rw [(h.ring_split hsplit).1, List.append_assoc]
    obtain ⟨it, _, _, _, _, _, -, hspec, hloop⟩ := IoScheduler.eventLoop_spec M tw ev st hinv
    have htotal : it.total = st.total := hspec.total
    rw [IoScheduler.processEvent_of_loop hfd hloop] at hev
    rw [IoScheduler.eventLoop_eq hsplit] at hloop
    have hstart : Follows loc queue batch ⟨l, 0, 0, 0⟩
        { st with itemsForFd := 0, itemsProcessed := 0, reregister := 0 } := ⟨h, rfl, rfl, rfl⟩
    obtain ⟨lt, hrun, hlt, hkeep, hsub⟩ := hstart.eventLoop_ok hops hloop
    cases hreg : IoScheduler.reregister (M.isOpen it.kernel ev.fd) it.sched.interest ev.fd
        (decide (it.itemsForFd = it.itemsProcessed)) it.reregister with
    | error e => rw [hreg] at hev; exact absurd hev (by simp [Except.map])
    | ok reg =>
      rw [hreg, Except.map, Except.ok.injEq] at hev
      subst hev
      refine ⟨{ lt.mem with interest := reg }, fun fuel hfuel => ?_,
        ⟨hlt.mem.heap, hlt.mem.cells, hlt.mem.beginCancelled, hlt.mem.pollQueueLength, rfl,
          hlt.mem.wakeFd, hlt.mem.wakeCounter, hlt.mem.kernel⟩,
        ⟨hkeep.links, hkeep.cell, hkeep.moved⟩, hsub⟩
      have hlen : (eq ++ hi).length < fuel := by
        rw [hops] at hfuel
        simp only [List.length_append] at hfuel ⊢
        omega
      have hsearch := h.lowerBound_eq hinv hsplit hfuel
      rw [← List.append_assoc] at hsearch
      rw [Linked.processEvent, if_neg (by rwa [h.wakeFd]), hsearch, Option.bind_some, h.last_eq hinv,
        hrun fuel hlen, Option.map_some]
      simp only [Except.bind, hlt.mem.kernel, hlt.mem.interest, hlt.itemsForFd, hlt.itemsProcessed,
        hlt.reregister, hreg, Except.map, htotal]

/-- **A batch of events**, on the nodes. -/
theorem processNotifications (events : List EpollEvent)
    (h : Denotes loc l st.sched st.kernel (queue ++ st.posted.map .io) batch)
    (hinv : st.sched.Inv log st.total)
    (hst : IoScheduler.processNotifications M tw events st = .ok st') :
    ∃ l', (∀ fuel, st.sched.operations.length < fuel →
        Linked.processNotifications M fuel tw events l st.total = some (.ok (l', st'.total))) ∧
      Denotes loc l' st'.sched st'.kernel (queue ++ st'.posted.map .io) batch ∧
      Untouched loc st.sched.operations (queue ++ st.posted.map .io) batch none l l' := by
  induction events generalizing l st with
  | nil =>
    rw [IoScheduler.processNotifications, Except.ok.injEq] at hst
    subst hst
    exact ⟨l, fun _ _ => rfl, h, .refl l⟩
  | cons ev events ih =>
    obtain ⟨st₁, hev, hrest⟩ := IoScheduler.processNotifications_cons.mp hst
    obtain ⟨done, hdone⟩ := IoScheduler.processEvent_completed hinv hev
    obtain ⟨l₁, hrun, h₁, hkeep, hsub⟩ := h.processEvent hinv hev
    obtain ⟨l', hrun', h', hkeep'⟩ := ih h₁ (hdone.inv hinv) hrest
    refine ⟨l', fun fuel hfuel => ?_, h', hkeep.trans hsub hkeep'⟩
    -- the list only gets shorter, so the fuel is enough for every event
    have hlen : st₁.sched.operations.length < fuel := by
      have hperm := (hdone.operations_perm hinv.nodup).length_eq
      rw [List.length_append] at hperm
      omega
    rw [Linked.processNotifications, hrun fuel hfuel]
    exact hrun' fuel hlen

/-- **The second critical section of `poll_once` on the nodes.** -/
theorem pollNotifications {io : IoScheduler} {kernel : K} (h : Denotes loc l io kernel queue batch)
    (hinv : io.Inv log 0) {events : List EpollEvent} {r : IoScheduler.Notify K}
    (hio : io.notificationPhase M tw kernel events = .ok r) :
    ∃ l', (∀ fuel, io.operations.length < fuel →
        l.pollNotifications M fuel tw events = some (.ok l')) ∧
      Denotes loc l' r.sched r.kernel (queue ++ r.posted.map .io) batch ∧
      Untouched loc io.operations queue batch none l l' := by
  rw [IoScheduler.notificationPhase] at hio
  split at hio
  · exact absurd hio (by simp)
  · rename_i st hst
    split at hio
    · exact absurd hio (by simp)
    · rename_i length hlength
      rw [Except.ok.injEq] at hio
      subst hio
      have hstart : Denotes loc l (IoScheduler.Notify.start io kernel).sched
          (IoScheduler.Notify.start io kernel).kernel
          (queue ++ (IoScheduler.Notify.start io kernel).posted.map .io) batch := by
        simpa [IoScheduler.Notify.start] using h
      obtain ⟨l', hrun, h', hkeep⟩ :=
        hstart.processNotifications events (hinv.start kernel) hst
      refine ⟨{ l' with pollQueueLength := length }, fun fuel hfuel => ?_,
        ⟨h'.heap, h'.cells, h'.beginCancelled, rfl, h'.interest, h'.wakeFd, h'.wakeCounter,
          h'.kernel⟩,
        ?_⟩
      · -- the count that is read in memory is the list's
        have hrun' : Linked.processNotifications M fuel tw events l 0 = some (.ok (l', st.total)) :=
          hrun fuel hfuel
        rw [Linked.pollNotifications, hrun', Option.map_some]
        simp only [Except.bind, h'.pollQueueLength, hlength, Except.map]
      · have hkeep' : Untouched loc io.operations queue batch none l l' := by
          simpa [IoScheduler.Notify.start] using hkeep
        exact ⟨hkeep'.links, hkeep'.cell, hkeep'.moved⟩

end Denotes

end Linked

end Exios
