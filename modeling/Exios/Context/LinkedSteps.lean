import Exios.Context.LinkedPolling

namespace Exios

open Exios.Ring (IsRing headOf)
open IntrusiveList (WellFormed KeepsUnlinked Unlinked beginIt pushBack popFront iter)
open Linked (Holds Denotes SameListed Untouched node ioNode nodes lists)

/-!
# Context — runs on linked nodes

`Linked.lean` writes the functions of the context on memory: intrusive lists that share the link
fields of their nodes, iterators that are addresses, searches that walk along the links.  Here the
two run side by side: `LinkedReach` are the pairs of a state of `ContextThread` and a memory that
a run reaches, every step of the context making its part in memory (`listAct`).  A new operation is
made in storage that holds no live one, be it fresh or released, and whoever gets released storage
may write to it at any time.

* `Represents.step` — a step of the context and its part in memory keep the representation;
* `LinkedReach.represents` — so the memory always represents the state;
* `linked_lists` — what the lists are, and what the program observes of them;
* `linked_refines` — a step that the context can make, its memory can make too, without writing
  to storage that holds no live operation.
-/

variable {K : Type} {n : Nat} {M : Kernel K} {loc : AnyAsyncOperation → Nat}
  {s s' : ContextThread K n} {t : Fin n} {l l' : Linked K n}

namespace ContextThread

/-- The storage `a` holds no operation that was handed over and not released. -/
def Vacant (s : ContextThread K n) (loc : AnyAsyncOperation → Nat) (a : Nat) : Prop :=
  ∀ x ∈ s.handed, x ∉ s.released → loc x ≠ a

/-- The storage that a step makes an operation in. -/
def newStorage (loc : AnyAsyncOperation → Nat) : Label K n → Option Nat
  | .thread _ (.post addr) => some (loc (.plain addr))
  | .thread _ (.schedule op) => some (loc (.io op))
  | _ => none

/-- A step makes its operation in storage without a live one. -/
def FreshStorage (loc : AnyAsyncOperation → Nat) (s : ContextThread K n) (label : Label K n) : Prop :=
  ∀ a ∈ (newStorage loc label).toList, s.Vacant loc a

instance (loc : AnyAsyncOperation → Nat) (s : ContextThread K n) (a : Nat) :
    Decidable (s.Vacant loc a) :=
  inferInstanceAs (Decidable (∀ x ∈ s.handed, x ∉ s.released → loc x ≠ a))

instance (loc : AnyAsyncOperation → Nat) (s : ContextThread K n) (label : Label K n) :
    Decidable (FreshStorage loc s label) :=
  inferInstanceAs (Decidable (∀ a ∈ (newStorage loc label).toList, s.Vacant loc a))

/-- The part of a step that touches the lists. -/
def listAct (loc : AnyAsyncOperation → Nat) (s : ContextThread K n) : Label K n → LinkedAct K n
  | .thread _ (.post addr) => .post (loc (.plain addr)) (.plain addr)
  | .thread _ (.schedule op) => .schedule (loc (.io op)) op
  | .thread _ (.cancel fd _) => .cancel fd
  | .thread _ .pollCancel => .pollCancellations s.threadsWaiting
  | .thread t .notifications =>
    match (s.threads t).pc with
    | .notified _ events => .pollNotifications events s.threadsWaiting
    | _ => .none
  | .thread t .take => .take t
  | .thread t .drain => .drain t
  | .thread t .putBack => .putBack t
  | .thread _ .exitWake => .wake s.threadsWaiting
  | .thread _ .callWake => .wake s.threadsWaiting
  | .destroy => .destroy
  | .kernel k => .kernel k
  | .forget fd => .forget fd
  | _ => .none

end ContextThread

/-- A thread gets to an invocation by taking an item off its batch. -/
theorem ContextThread.RunStep.invoking {a : Act} (hs : ContextThread.RunStep M s t a s')
    (ha : a ≠ .drain) {u : Fin n} {op : AnyAsyncOperation} (hu : (s'.threads u).pc = .invoke op) :
    (s.threads u).pc = .invoke op := by
  by_cases hut : u = t
  · subst hut
    exfalso
    cases hs with
    -- only `drain` gets a thread to the point of invoking
    | drained | popFront => exact ha rfl
    | guardNotify =>
      simp only [ContextThread.mapThread_threads, if_true] at hu
      split at hu <;> simp at hu
    | loop | checkScheduler | pollCancel | notifications =>
      rw [ContextThread.goto_pc, if_pos rfl] at hu
      split at hu <;> simp at hu
    | _ => simp [ContextThread.mapThread_threads] at hu
  · rcases hs.frame.others u hut with he | ⟨-, he⟩
    · exact he.symm.trans hu
    · rw [he] at hu
      exact absurd hu (by simp)

namespace Sched

variable {r r' : Sched K}

/-- The first critical section of `poll_once`, without the history. -/
theorem pollCancellations_phase {tw : Nat} {p : IoScheduler.CancelPhase}
    (h : r.pollCancellations tw = .ok (r', p)) :
    r.io.cancellationPhase tw = .ok p ∧
      r' = { r with io := p.sched, posted := r.posted ++ p.posted } := by
  unfold pollCancellations at h
  cases hp : r.io.cancellationPhase tw with
  | error e => rw [hp] at h; exact absurd h (by simp [Except.map])
  | ok q =>
    rw [hp] at h
    simp only [Except.map, Except.ok.injEq, Prod.mk.injEq] at h
    exact ⟨by rw [h.2], by rw [← h.1, h.2]⟩

/-- The second critical section of `poll_once`, without the history. -/
theorem pollNotifications_phase {tw : Nat} {events : List EpollEvent} {m : IoScheduler.Notify K}
    (h : r.pollNotifications M tw events = .ok (r', m)) :
    r.io.notificationPhase M tw r.kernel events = .ok m ∧ r'.io = m.sched ∧ r'.kernel = m.kernel := by
  unfold pollNotifications at h
  cases hm : r.io.notificationPhase M tw r.kernel events with
  | error e => rw [hm] at h; exact absurd h (by simp [Except.map])
  | ok q =>
    rw [hm] at h
    simp only [Except.map, Except.ok.injEq, Prod.mk.injEq] at h
    obtain ⟨rfl, rfl⟩ := h
    exact ⟨rfl, rfl, rfl⟩

/-- The fields of an operation that has left the list do not change. -/
theorem posted_state (hinv : r.Inv) {a : SchedAct K} (h : step M r a = some r') :
    ∀ op ∈ r.posted, r'.io.state op = r.io.state op := by
  intro op hop
  have hout : op ∉ r.io.activeSegment := by
    intro hact
    refine hinv.operations_not_posted ?_ hop
    rw [← r.io.segments_append]
    exact List.mem_append_left _ hact
  cases a with
  | schedule x =>
    obtain ⟨io, hio, rfl⟩ := schedule_cases (step_schedule.mp h).2
    rw [show ({ r with io := io, scheduled := r.scheduled ++ [x] } : Sched K).io.state = io.state
        from rfl,
      (IoScheduler.schedule_perm hinv.rep hio).2]
  | cancel fd fuel =>
    obtain ⟨found, hc⟩ := step_cancel.mp h
    obtain ⟨io, hio, rfl⟩ := cancel_cases hc
    obtain ⟨lo, eq, hi, hsplit, ⟨-, rfl, -⟩ | ⟨-, -, rfl, -⟩⟩ :=
      IoScheduler.cancelSection_ok hinv.rep hio
    · rfl
    · -- struck are only active operations
      refine if_neg (fun hm => hout ?_)
      rw [hsplit.append]
      exact List.mem_append_right _ (List.mem_append_left _ hm)
  | pollCancellations tw =>
    obtain ⟨p, hp⟩ := step_pollCancellations.mp h
    obtain ⟨w, rfl⟩ := pollCancellations_cases hinv hp
    rfl
  | pollNotifications events tw =>
    obtain ⟨m, hm⟩ := step_pollNotifications.mp h
    obtain ⟨st, done, -, hdone, rfl, rfl⟩ := pollNotifications_cases hinv hm
    -- and so are those that the section performs
    exact hdone.state_other op (fun hd => hout (hdone.done_sub op hd))
  | wake tw | kernel k | forget fd =>
    rw [step, Option.some.injEq] at h
    subst h
    rfl

end Sched

open ContextThread (FreshStorage newStorage listAct RunStep CallStep CallRest Step PlaceInv ResultInv)

namespace Linked

/-- The memory after an action is `l'`: its loops end, and no check fails. -/
def Returns (M : Kernel K) (l : Linked K n) (a : LinkedAct K n) (l' : Linked K n) : Prop :=
  ∃ bound, ∀ fuel, bound < fuel → l.act M fuel a = some (.ok l')

/-- The functions on the nodes have one outcome, however much fuel they are given. -/
theorem Returns.det {a : LinkedAct K n} {l₁ l₂ : Linked K n} (h₁ : l.Returns M a l₁)
    (h₂ : l.Returns M a l₂) : l₁ = l₂ := by
  obtain ⟨b₁, h₁⟩ := h₁
  obtain ⟨b₂, h₂⟩ := h₂
  have he := (h₁ (b₁ + b₂ + 1) (by omega)).symm.trans (h₂ (b₁ + b₂ + 1) (by omega))
  simpa using he

/-- **The memory represents a state**: its lists, the other members as long as the context lives,
    and the operations that are about to be invoked, which have left their storage. -/
structure Represents (loc : AnyAsyncOperation → Nat) (l : Linked K n) (s : ContextThread K n) :
    Prop where
  heap : WellFormed Node.sentinel l.links (nodes loc s.sched.io.operations s.completionQueue
    (fun u => (s.threads u).batch))
  denotes : s.destroyed = false → Denotes loc l s.sched.io s.sched.kernel s.completionQueue
    (fun u => (s.threads u).batch)
  moved : ∀ u op, (s.threads u).pc = .invoke op → Holds (l.moved u) s.sched.io.state op

/-- Storage without a live operation is in no list. -/
theorem unlinked_of_vacant (hplace : s.PlaceInv) {a : Nat} (h : s.Vacant loc a) :
    Unlinked Node.sentinel (nodes loc s.sched.io.operations s.completionQueue
      (fun u => (s.threads u).batch)) (.item a) := by
  refine unlinked_item (fun i op hop => ?_)
  have hlive : ∃ p, p ≠ Place.consumed ∧ op ∈ s.place p := by
    cases i with
    | operations => exact ⟨.scheduler, by simp, hop⟩
    | completionQueue => exact ⟨.queue, by simp, hop⟩
    | batch u => exact ⟨.batch u, by simp, hop⟩
  obtain ⟨p, hp, hmem⟩ := hlive
  exact h op ((hplace.placed.mem_iff op).mpr ⟨p, hmem⟩) (hplace.placed.not_mem hp hmem)

/-- **The memory follows a step**, and writes to no storage outside the lists but the new. -/
structure Simulates (M : Kernel K) (loc : AnyAsyncOperation → Nat) (s : ContextThread K n)
    (label : Label K n) (s' : ContextThread K n) (l l' : Linked K n) : Prop where
  returns : l.Returns M (listAct loc s label) l'
  denotes : Denotes loc l' s'.sched.io s'.sched.kernel s'.completionQueue
    (fun u => (s'.threads u).batch)
  untouched : Untouched loc s.sched.io.operations s.completionQueue
    (fun u => (s.threads u).batch) ((newStorage loc label).map .item) l l'

/-- Updates of a thread that keep its batch. -/
theorem batch_mapThread (s : ContextThread K n) (t : Fin n) {f : Thread → Thread}
    (hf : ∀ th, (f th).batch = th.batch) :
    (fun u => ((s.mapThread t f).threads u).batch) = fun u => (s.threads u).batch := by
  funext u
  rw [ContextThread.mapThread_threads]
  split
  · exact hf _
  · rfl

/-- Updates of a thread after a notification. -/
theorem batch_notifyAll (s : ContextThread K n) (t : Fin n) {f : Thread → Thread}
    (hf : ∀ th, (f th).batch = th.batch) :
    (fun u => ((s.notifyAll.mapThread t f).threads u).batch) = fun u => (s.threads u).batch := by
  rw [batch_mapThread _ _ hf]
  funext u
  exact ContextThread.notifyAll_batch s u

/-- A step that keeps the batches. -/
theorem Simulates.kept {label : Label K n} (hreturns : l.Returns M (listAct loc s label) l')
    (hbatch : (fun u => (s'.threads u).batch) = fun u => (s.threads u).batch)
    (hd : Denotes loc l' s'.sched.io s'.sched.kernel s'.completionQueue
      (fun u => (s.threads u).batch))
    (hkeep : Untouched loc s.sched.io.operations s.completionQueue (fun u => (s.threads u).batch)
      ((newStorage loc label).map .item) l l') : Simulates M loc s label s' l l' :=
  ⟨hreturns, by rw [hbatch]; exact hd, hkeep⟩

/-- A thread exchanges its batch. -/
theorem batch_exchanged {s₁ : ContextThread K n} {f : Thread → Thread} {xs : List AnyAsyncOperation}
    (hthreads : s₁.threads = s.threads) (hf : ∀ th, (f th).batch = xs) :
    (fun u => ((s₁.mapThread t f).threads u).batch)
      = Function.update (fun u => (s.threads u).batch) t xs := by
  funext u
  rw [ContextThread.mapThread_threads, hthreads]
  by_cases hu : u = t
  · subst hu
    rw [if_pos rfl, Function.update_self, hf]
  · rw [if_neg hu, Function.update_of_ne hu]

/-- A step in which a thread exchanges its batch. -/
theorem Simulates.exchanged {label : Label K n} {s₁ : ContextThread K n} {f : Thread → Thread}
    {xs : List AnyAsyncOperation} (hreturns : l.Returns M (listAct loc s label) l')
    (hthreads : s₁.threads = s.threads) (hf : ∀ th, (f th).batch = xs)
    (hd : Denotes loc l' s₁.sched.io s₁.sched.kernel s₁.completionQueue
      (Function.update (fun u => (s.threads u).batch) t xs))
    (hkeep : Untouched loc s.sched.io.operations s.completionQueue (fun u => (s.threads u).batch)
      ((newStorage loc label).map .item) l l') : Simulates M loc s label (s₁.mapThread t f) l l' := by
  refine ⟨hreturns, ?_, hkeep⟩
  rw [batch_exchanged hthreads hf]
  exact hd

/-- A step that touches no list. -/
theorem Simulates.same {label : Label K n} (hd : Denotes loc l s.sched.io s.sched.kernel
      s.completionQueue (fun u => (s.threads u).batch))
    (hact : listAct loc s label = .none) (hsched : s'.sched = s.sched)
    (hqueue : s'.completionQueue = s.completionQueue)
    (hbatch : (fun u => (s'.threads u).batch) = fun u => (s.threads u).batch) :
    Simulates M loc s label s' l l :=
  .kept ⟨0, fun _ _ => by rw [hact]; rfl⟩ hbatch (by rw [hsched, hqueue]; exact hd) (.refl l)

/-- A step that only wakes the pollers. -/
theorem Simulates.wake {label : Label K n} (hd : Denotes loc l s.sched.io s.sched.kernel
      s.completionQueue (fun u => (s.threads u).batch))
    (hact : listAct loc s label = .wake s.threadsWaiting) (hsched : s'.sched = s.wake.sched)
    (hqueue : s'.completionQueue = s.completionQueue)
    (hbatch : (fun u => (s'.threads u).batch) = fun u => (s.threads u).batch) :
    Simulates M loc s label s' l (l.trigger s.threadsWaiting) := by
  refine .kept ⟨0, fun _ _ => by rw [hact]; rfl⟩ hbatch ?_ (.of_eq rfl rfl rfl)
  rw [hsched, hqueue]
  exact ⟨hd.heap, hd.cells, hd.beginCancelled, hd.pollQueueLength, hd.interest, hd.wakeFd,
    congrArg (· + s.threadsWaiting % 2 ^ 32) hd.wakeCounter, hd.kernel⟩

/-! ### The completion queue and the batches -/

section Queue

variable {io : IoScheduler} {kernel : K} {queue : List AnyAsyncOperation}
  {batch : Fin n → List AnyAsyncOperation}

/-- A batch is exchanged. -/
theorem mem_update_batch {ops : List AsyncIoOperation} {t u : Fin n} {xs : List AnyAsyncOperation}
    {x : AnyAsyncOperation} (hx : x ∈ lists ops queue (Function.update batch t xs) (.batch u)) :
    x ∈ xs ∨ x ∈ batch u := by
  rw [lists] at hx
  by_cases hu : u = t
  · subst hu
    rw [Function.update_self] at hx
    exact Or.inl hx
  · rw [Function.update_of_ne hu] at hx
    exact Or.inr hx

/-- `post` of a new operation. -/
theorem Denotes.post (h : Denotes loc l io kernel queue batch) {op : AnyAsyncOperation}
    (hnew : ∀ i, ∀ x ∈ lists io.operations queue batch i, loc x ≠ loc op)
    (hplain : ∀ x, op ≠ .io x) :
    ∃ l', l.Returns M (.post (loc op) op) l' ∧ Denotes loc l' io kernel (queue ++ [op]) batch ∧
      Untouched loc io.operations queue batch (some (node loc op)) l l' := by
  obtain ⟨h₁, hunlinked, hkeep₁⟩ := h.construct hnew
  obtain ⟨links, hpush, hheap, hkeep⟩ := h₁.heap.pushBack_ok hunlinked .completionQueue
  have hqueue : nodes (n := n) loc io.operations queue batch .completionQueue ++ [node loc op]
      = (queue ++ [op]).map (node loc) := by
    rw [List.map_append]
    rfl
  rw [hqueue, update_completionQueue] at hheap
  refine ⟨{ l.construct (loc op) op with links := links }, ⟨0, fun _ _ => ?_⟩,
    ⟨hheap, ?_, h₁.beginCancelled, h₁.pollQueueLength, h₁.interest, h₁.wakeFd, h₁.wakeCounter,
      h₁.kernel⟩,
    ⟨hkeep₁.links.trans hkeep (fun x hx hne => ⟨hx, hne⟩), hkeep₁.cell, hkeep₁.moved⟩⟩
  · have hrun : (l.construct (loc op) op).enqueue (.item (loc op))
        = .ok { l.construct (loc op) op with links := links } :=
      enqueue_ok hpush hheap (by simp)
    rw [act, hrun]
  · intro i x hx
    cases i with
    | completionQueue =>
      rcases List.mem_append.mp hx with hx | hx
      · exact h₁.cells .completionQueue x hx
      · -- the new cell is the constructed one, which is no I/O operation
        rw [List.mem_singleton.mp hx]
        refine ⟨by simp [Linked.construct, node], fun y hy => absurd hy (hplain y)⟩
    | operations => exact h₁.cells .operations x hx
    | batch u => exact h₁.cells (.batch u) x hx

/-- The splice at the start of `run_once`. -/
theorem Denotes.take (h : Denotes loc l io kernel queue batch) {t : Fin n} (hbatch : batch t = []) :
    ∃ l', l.Returns M (.take t) l' ∧
      Denotes loc l' io kernel [] (Function.update batch t queue) ∧
      Untouched loc io.operations queue batch none l l' := by
  have hcut : nodes (n := n) loc io.operations queue batch (.batch t) = [] ++ [] := by
    rw [nodes, lists, hbatch]
    rfl
  obtain ⟨links, hrun, hheap, hkeep⟩ := h.heap.spliceAll_ok (i := .batch t) (j := .completionQueue)
    (by simp) hcut
  -- the whole queue has moved behind the empty `tmp`
  have hlists : Function.update (Function.update (nodes (n := n) loc io.operations queue batch)
      .completionQueue []) (.batch t)
        ([] ++ (nodes loc io.operations queue batch .completionQueue ++ []))
      = nodes loc io.operations [] (Function.update batch t queue) := by
    rw [List.nil_append, List.append_nil,
      show ([] : List (Node n)) = ([] : List AnyAsyncOperation).map (node loc) from rfl,
      update_completionQueue, nodes, lists, update_batch]
  rw [hlists] at hheap
  refine ⟨{ l with links := links }, ⟨queue.length, fun fuel hfuel => ?_⟩,
    ⟨hheap, ?_, h.beginCancelled, h.pollQueueLength, h.interest, h.wakeFd, h.wakeCounter, h.kernel⟩,
    hkeep, fun _ _ _ => rfl, rfl⟩
  · have hrun' : IntrusiveList.splice fuel l.links (.sentinel (.batch t)) (.sentinel (.batch t))
        (.sentinel .completionQueue) (beginIt l.links (.sentinel .completionQueue))
        (.sentinel .completionQueue)
        = some (.ok (links, beginIt l.links (.sentinel .completionQueue))) :=
      hrun fuel (by simpa [nodes, lists] using hfuel)
    have hempty : IntrusiveList.empty links (.sentinel .completionQueue) = true := by
      rw [hheap.empty_eq]
      rfl
    rw [act, Linked.take, hrun']
    simp [Except.bind, hempty]
  · refine h.cells_of (fun i x hx => ?_)
    cases i with
    | operations => exact ⟨.operations, hx⟩
    | completionQueue => exact absurd hx (by simp [lists])
    | batch u =>
      -- the operations are where they were, or came from the queue
      rcases mem_update_batch hx with hx | hx
      · exact ⟨.completionQueue, hx⟩
      · exact ⟨.batch u, hx⟩

/-- The first item of a batch leaves it. -/
theorem Denotes.drain (h : Denotes loc l io kernel queue batch) {t : Fin n} {op : AnyAsyncOperation}
    {rest : List AnyAsyncOperation} (hbatch : batch t = op :: rest) :
    ∃ links, l.Returns M (.drain t)
        { l with links := links, moved := Function.update l.moved t (l.cell (node loc op)) } ∧
      Denotes loc
        { l with links := links, moved := Function.update l.moved t (l.cell (node loc op)) } io kernel
        queue (Function.update batch t rest) ∧
      KeepsUnlinked Node.sentinel (nodes loc io.operations queue batch) none l.links links := by
  have hcut : nodes (n := n) loc io.operations queue batch (.batch t)
      = node loc op :: rest.map (node loc) := by
    rw [nodes, lists, hbatch, List.map_cons]
  obtain ⟨links, hrun, hheap, hkeep⟩ := h.heap.popFront_ok hcut
  rw [update_batch] at hheap
  have hempty := h.heap.empty_eq (.batch t)
  have hbegin := h.heap.begin_eq (.batch t)
  rw [hcut] at hempty hbegin
  refine ⟨links, ⟨0, fun _ _ => ?_⟩,
    ⟨hheap, ?_, h.beginCancelled, h.pollQueueLength, h.interest, h.wakeFd, h.wakeCounter, h.kernel⟩,
    hkeep⟩
  · have hbegin' : beginIt l.links (.sentinel (.batch t)) = node loc op := hbegin
    rw [act, Linked.drain, hempty, hrun, hbegin']
    rfl
  · -- the object is moved out, its storage is in no list any more
    refine h.cells_of (fun i x hx => ?_)
    cases i with
    | operations => exact ⟨.operations, hx⟩
    | completionQueue => exact ⟨.completionQueue, hx⟩
    | batch u =>
      rcases mem_update_batch hx with hx | hx
      · exact ⟨.batch t, by rw [lists, hbatch]; exact List.mem_cons_of_mem _ hx⟩
      · exact ⟨.batch u, hx⟩

/-- `drain_list` ends on an empty batch. -/
theorem Denotes.drained (h : Denotes loc l io kernel queue batch) {t : Fin n}
    (hbatch : batch t = []) : l.Returns M (.drain t) l := by
  have hempty := h.heap.empty_eq (.batch t)
  rw [nodes, lists, hbatch] at hempty
  exact ⟨0, fun _ _ => by rw [act, Linked.drain, hempty]; rfl⟩

/-- The guard that puts the rest of a batch back in front of the queue. -/
theorem Denotes.putBack (h : Denotes loc l io kernel queue batch) (t : Fin n) :
    ∃ l', l.Returns M (.putBack t) l' ∧
      Denotes loc l' io kernel (batch t ++ queue) (Function.update batch t []) ∧
      Untouched loc io.operations queue batch none l l' := by
  have hempty := h.heap.empty_eq (.batch t)
  cases hbatch : batch t with
  | nil =>
    -- nothing to put back: the guard's test fails
    rw [nodes, lists, hbatch] at hempty
    refine ⟨l, ⟨0, fun _ _ => by rw [act, Linked.putBack, hempty]; rfl⟩, ?_, .refl l⟩
    rw [List.nil_append, ← hbatch, Function.update_eq_self]
    exact h
  | cons op rest =>
    have hcut : nodes (n := n) loc io.operations queue batch .completionQueue
        = [] ++ queue.map (node loc) := rfl
    obtain ⟨links, hrun, hheap, hkeep⟩ := h.heap.spliceAll_ok (i := .completionQueue) (j := .batch t)
      (by simp) hcut
    -- the rest of the batch has moved in front of the queue
    have hlists : Function.update (Function.update (nodes (n := n) loc io.operations queue batch)
        (.batch t) []) .completionQueue
          ([] ++ (nodes loc io.operations queue batch (.batch t) ++ queue.map (node loc)))
        = nodes loc io.operations (op :: rest ++ queue) (Function.update batch t []) := by
      rw [show ([] : List (Node n)) = ([] : List AnyAsyncOperation).map (node loc) from rfl,
        update_batch, nodes, lists, hbatch, List.map_nil, List.nil_append, ← List.map_append,
        update_completionQueue]
    rw [hlists] at hheap
    refine ⟨{ l with links := links }, ⟨(batch t).length, fun fuel hfuel => ?_⟩,
      ⟨hheap, ?_, h.beginCancelled, h.pollQueueLength, h.interest, h.wakeFd, h.wakeCounter, h.kernel⟩,
      hkeep, fun _ _ _ => rfl, rfl⟩
    · have hrun' := hrun fuel (by simpa [nodes, lists] using hfuel)
      have hbegin : beginIt l.links (.sentinel .completionQueue)
          = iter (.sentinel .completionQueue) (queue.map (node loc)).head? :=
        h.heap.begin_eq .completionQueue
      rw [nodes, lists, hbatch] at hempty
      rw [act, Linked.putBack, hempty, hbegin, hrun']
      rfl
    · refine h.cells_of (fun i x hx => ?_)
      cases i with
      | operations => exact ⟨.operations, hx⟩
      | completionQueue =>
        rcases List.mem_append.mp hx with hx | hx
        · exact ⟨.batch t, by rw [lists, hbatch]; exact hx⟩
        · exact ⟨.completionQueue, hx⟩
      | batch u =>
        rcases mem_update_batch hx with hx | hx
        · exact absurd hx (by simp)
        · exact ⟨.batch u, hx⟩

end Queue

/-! ### The destructors -/

/-- `drain_list(list, discard)` empties the list. -/
theorem drainAll_ok (l : Linked K n) {xs : ListName n → List (Node n)} (i : ListName n)
    (hw : WellFormed Node.sentinel l.links xs) :
    ∃ links, (∀ fuel, (xs i).length < fuel →
        drainAll i fuel l = some (.ok { l with links := links })) ∧
      WellFormed Node.sentinel links (Function.update xs i []) ∧
      KeepsUnlinked Node.sentinel xs none l.links links := by
  generalize hxs : xs i = ys
  induction ys generalizing l xs with
  | nil =>
    refine ⟨l.links, fun fuel hfuel => ?_, ?_, fun _ _ _ => ⟨rfl, rfl⟩⟩
    · obtain ⟨m, rfl⟩ : ∃ m, fuel = m + 1 := ⟨fuel - 1, by omega⟩
      have hempty := hw.empty_eq i
      rw [hxs] at hempty
      rw [drainAll, hempty]
      rfl
    · rw [← hxs, Function.update_eq_self]
      exact hw
  | cons y ys ih =>
    obtain ⟨links₁, hpop, hw₁, hkeep₁⟩ := hw.popFront_ok hxs
    obtain ⟨links, hrun, hw', hkeep⟩ :=
      ih { l with links := links₁ } hw₁ (Function.update_self i ys xs)
    rw [Function.update_idem] at hw'
    refine ⟨links, fun fuel hfuel => ?_, hw',
      hkeep₁.trans hkeep (fun x hx _ => ⟨fun j hj => ?_, by simp⟩)⟩
    · rw [List.length_cons] at hfuel
      obtain ⟨m, rfl⟩ : ∃ m, fuel = m + 1 := ⟨fuel - 1, by omega⟩
      have hempty := hw.empty_eq i
      rw [hxs] at hempty
      rw [drainAll, hempty, hpop]
      exact hrun m (by omega)
    · -- what was in no list is in no list without the item
      refine hx j ?_
      by_cases hji : j = i
      · subst hji
        rw [Function.update_self] at hj
        rw [hxs]
        simp only [List.mem_cons] at hj ⊢
        tauto
      · rwa [Function.update_of_ne hji] at hj

/-- `~ContextThread`, and the scheduler's destructor after it. -/
theorem destroy_ok {ops : List AsyncIoOperation} {queue : List AnyAsyncOperation}
    {batch : Fin n → List AnyAsyncOperation}
    (hw : WellFormed Node.sentinel l.links (nodes loc ops queue batch)) :
    ∃ links, l.Returns M .destroy { l with links := links } ∧
      WellFormed Node.sentinel links (nodes loc [] [] batch) ∧
      KeepsUnlinked Node.sentinel (nodes loc ops queue batch) none l.links links := by
  obtain ⟨links₁, hrun₁, hw₁, hkeep₁⟩ := l.drainAll_ok .completionQueue hw
  have hqueue : Function.update (nodes (n := n) loc ops queue batch) .completionQueue []
      = nodes loc ops [] batch := update_completionQueue ops queue [] batch
  rw [hqueue] at hw₁
  obtain ⟨links, hrun, hw', hkeep⟩ := ({ l with links := links₁ }).drainAll_ok .operations hw₁
  have hops : Function.update (nodes (n := n) loc ops [] batch) .operations []
      = nodes loc [] [] batch := update_operations ops [] [] batch
  rw [hops] at hw'
  refine ⟨links, ⟨queue.length + ops.length, fun fuel hfuel => ?_⟩, hw',
    hkeep₁.trans hkeep (fun x hx _ => ⟨NoneEnters.unlinked (fun i y hy => ?_) hx, by simp⟩)⟩
  · -- the first loop drains the queue, the second one the scheduler's list
    have hlen₁ : (nodes (n := n) loc ops queue batch .completionQueue).length < fuel := by
      simp only [nodes, lists, List.length_map]
      omega
    have hlen : (nodes (n := n) loc ops [] batch .operations).length < fuel := by
      simp only [nodes, lists, List.length_map]
      omega
    rw [act, Linked.destroy, hrun₁ fuel hlen₁]
    exact hrun fuel hlen
  · cases i with
    | operations => exact ⟨.operations, hy⟩
    | completionQueue => exact absurd hy (by simp [lists])
    | batch u => exact ⟨.batch u, hy⟩

/-! ### Steps -/

/-- Storage that a step makes its operation in is not that of a listed one. -/
theorem fresh_of_vacant (hplace : s.PlaceInv) {op : AnyAsyncOperation} (h : s.Vacant loc (loc op))
    (i : ListName n) : ∀ x ∈ lists s.sched.io.operations s.completionQueue
      (fun u => (s.threads u).batch) i, loc x ≠ loc op := by
  intro x hx he
  refine unlinked_of_vacant hplace h i (List.mem_cons_of_mem _ ?_)
  rw [← he]
  exact List.mem_map_of_mem hx

/-- A step that posts what the scheduler has completed. -/
theorem Simulates.posted {label : Label K n} {sched : Sched K} {ops : List AsyncIoOperation} {pc : Pc}
    (hreturns : l.Returns M (listAct loc s label) l')
    (hd : Denotes loc l' sched.io sched.kernel (s.completionQueue ++ ops.map .io)
      (fun u => (s.threads u).batch))
    (hkeep : Untouched loc s.sched.io.operations s.completionQueue (fun u => (s.threads u).batch)
      ((newStorage loc label).map .item) l l') :
    Simulates M loc s label ((({ s with sched := sched }).enqueue ops).goto t pc) l l' := by
  have hbatch : (fun u => ((((({ s with sched := sched }).enqueue ops).goto t pc).threads u).batch))
      = fun u => (s.threads u).batch := by
    funext u
    rw [ContextThread.goto_batch, ContextThread.enqueue_batch]
  have hsched : ((({ s with sched := sched }).enqueue ops).goto t pc).sched = sched :=
    ContextThread.enqueue_sched _ _
  have hqueue : ((({ s with sched := sched }).enqueue ops).goto t pc).completionQueue
      = s.completionQueue ++ ops.map .io := ContextThread.enqueue_completionQueue _ _
  exact .kept hreturns hbatch (by rw [hsched, hqueue]; exact hd) hkeep

/-- The steps inside `run`, `run_once` and `poll_once`. -/
theorem Simulates.run (hres : s.ResultInv) (hplace : s.PlaceInv) (hlive : s.destroyed = false)
    (hd : Denotes loc l s.sched.io s.sched.kernel s.completionQueue (fun u => (s.threads u).batch))
    {a : Act} (ha : a ≠ .drain) (hs : RunStep M s t a s') :
    ∃ l', Simulates M loc s (.thread t a) s' l l' := by
  have hinv := hres.live hlive
  cases hs with
  -- steps that touch no list
  | enterRun | enterRunOnce | handlerReturn =>
    exact ⟨l, .same hd rfl rfl rfl (batch_mapThread _ _ (fun _ => rfl))⟩
  | loop | testWait | testGo | evaluateTrue | evaluateFalse | sleep | spuriousWake | relock | invoke
  | handlerThrow | readMore | checkScheduler | announce | epollReturn | epollFail | retireThrow
  | retire =>
    exact ⟨l, .same hd rfl rfl rfl (batch_mapThread _ _ (fun _ => rfl))⟩
  | guardNotify | exitNotify =>
    exact ⟨l, .same hd rfl rfl rfl (batch_notifyAll _ _ (fun _ => rfl))⟩
  | exitWake => exact ⟨_, .wake hd rfl rfl rfl (batch_mapThread _ _ (fun _ => rfl))⟩
  | drained | popFront => exact absurd rfl ha
  -- the queue becomes the batch of the thread
  | take hpc hfree =>
    obtain ⟨l', hrun, hd', hkeep⟩ :=
      hd.take (M := M) (t := t) (hplace.batch_nil (by rw [hpc]; rfl))
    exact ⟨l', .exchanged hrun rfl (fun _ => rfl) hd' hkeep⟩
  -- operations move from the scheduler's list to the queue
  | @pollCancel block sched p hpc hfree hpoll hpost =>
    obtain ⟨hphase, rfl⟩ := Sched.pollCancellations_phase hpoll
    obtain ⟨l', hrun, hd', hkeep⟩ := hd.pollCancellations hinv.rep hphase
    refine ⟨l', .posted ⟨s.sched.io.operations.length, fun fuel hfuel => ?_⟩ hd' hkeep⟩
    rw [listAct, act, hrun fuel hfuel]
    rfl
  | @notifications block events sched r hpc hfree hpoll hpost =>
    obtain ⟨hphase, hio, hkernel⟩ := Sched.pollNotifications_phase hpoll
    obtain ⟨l', hrun, hd', hkeep⟩ := hd.pollNotifications hinv.rep hphase
    refine ⟨l', .posted ⟨s.sched.io.operations.length, fun fuel hfuel => ?_⟩
      (by rw [hio, hkernel]; exact hd') hkeep⟩
    simp only [listAct, hpc, act]
    exact hrun fuel hfuel
  -- the rest of the batch goes back in front of the queue
  | putBackNone hpc hbatch =>
    obtain ⟨l', hrun, hd', hkeep⟩ := hd.putBack (M := M) t
    have hself : Function.update (fun u => (s.threads u).batch) t [] =
        fun u => (s.threads u).batch := by
      rw [← hbatch]
      exact Function.update_eq_self t _
    rw [hbatch, List.nil_append, hself] at hd'
    exact ⟨l', .kept hrun (batch_mapThread _ _ (fun _ => rfl)) hd' hkeep⟩
  | putBack hpc hfree =>
    obtain ⟨l', hrun, hd', hkeep⟩ := hd.putBack (M := M) t
    exact ⟨l', .exchanged hrun rfl (fun _ => rfl) hd' hkeep⟩

/-- The first step of an API call. -/
theorem Simulates.call (hres : s.ResultInv) (hplace : s.PlaceInv) (hlive : s.destroyed = false)
    (hd : Denotes loc l s.sched.io s.sched.kernel s.completionQueue (fun u => (s.threads u).batch))
    {a : Act} (hnew : FreshStorage loc s (.thread t a))
    (hs : CallStep M s t a s') : ∃ l', Simulates M loc s (.thread t a) s' l l' := by
  have hinv := hres.live hlive
  cases hs with
  -- a new completion is made in vacant storage
  | @post addr hfree hfresh =>
    have hvacant := fresh_of_vacant hplace (hnew (loc (.plain addr)) (by simp [newStorage]))
    obtain ⟨l', hrun, hd', hkeep⟩ := hd.post (M := M) hvacant (by simp)
    exact ⟨l', .kept hrun (batch_mapThread _ _ (fun _ => rfl)) hd' hkeep⟩
  | @schedule op sched hfree hop hsched =>
    obtain ⟨io, hio, rfl⟩ := Sched.schedule_cases hsched
    obtain ⟨l', hrun, hd', hkeep⟩ :=
      hd.schedule hinv.rep (fresh_of_vacant hplace (hnew _ (by simp [newStorage])))
      (hinv.unscheduled op hop) hio
    refine ⟨l', .kept ⟨s.sched.io.operations.length, fun fuel hfuel => ?_⟩
      (batch_mapThread _ _ (fun _ => rfl)) hd' hkeep⟩
    rw [listAct, act, hd.kernel]
    exact hrun fuel hfuel
  | @cancel fd fuel' sched hfree hcancel =>
    obtain ⟨io, hio, rfl⟩ := Sched.cancel_cases hcancel
    obtain ⟨l', hrun, hd', hkeep⟩ := hd.cancel hinv.rep hio
    refine ⟨l', .kept ⟨s.sched.io.operations.length, fun fuel hfuel => ?_⟩
      (batch_mapThread _ _ (fun _ => rfl)) hd' hkeep⟩
    rw [listAct, act, hd.kernel]
    exact hrun fuel hfuel
  -- no operation on the descriptor: the lists stay, and so does the thread
  | @cancelNothing fd fuel' sched hcancel =>
    obtain ⟨io, hio, rfl⟩ := Sched.cancel_cases hcancel
    obtain ⟨l', hrun, hd', hkeep⟩ := hd.cancel hinv.rep hio
    refine ⟨l', .kept ⟨s.sched.io.operations.length, fun fuel hfuel => ?_⟩ rfl hd' hkeep⟩
    rw [listAct, act, hd.kernel]
    exact hrun fuel hfuel
  | latchWork => exact ⟨l, .same hd rfl rfl rfl rfl⟩
  | releaseWork => exact ⟨l, .same hd rfl rfl rfl (batch_mapThread _ _ (fun _ => rfl))⟩

/-- The later steps of an API call. -/
theorem Simulates.rest
    (hd : Denotes loc l s.sched.io s.sched.kernel s.completionQueue (fun u => (s.threads u).batch))
    {a : Act} (hs : CallRest s t a s') : ∃ l', Simulates M loc s (.thread t a) s' l l' := by
  cases hs with
  | postWake | cancelWake | releaseWake =>
    exact ⟨_, .wake hd rfl rfl rfl (batch_mapThread _ _ (fun _ => rfl))⟩
  | postNotify | scheduleNotify | cancelNotify | releaseNotify =>
    exact ⟨l, .same hd rfl rfl rfl (batch_notifyAll _ _ (fun _ => rfl))⟩

/-- A step writes to no storage without a live operation, except where it makes its own. -/
def Spares (loc : AnyAsyncOperation → Nat) (s : ContextThread K n) (label : Label K n)
    (l l' : Linked K n) : Prop :=
  ∀ a, s.Vacant loc a → newStorage loc label ≠ some a →
    l'.links.next (.item a) = l.links.next (.item a) ∧
    l'.links.prev (.item a) = l.links.prev (.item a) ∧ l'.cell (.item a) = l.cell (.item a)

/-- A call that writes to listed storage, and to its item. -/
theorem Spares.of_untouched (hplace : s.PlaceInv) {label : Label K n}
    (hlinks : KeepsUnlinked Node.sentinel (nodes loc s.sched.io.operations s.completionQueue
      (fun u => (s.threads u).batch)) ((newStorage loc label).map .item) l.links l'.links)
    (hcell : ∀ x, Unlinked Node.sentinel (nodes loc s.sched.io.operations s.completionQueue
      (fun u => (s.threads u).batch)) x → some x ≠ (newStorage loc label).map .item →
        l'.cell x = l.cell x) : Spares loc s label l l' := by
  intro a ha hne
  have hunlinked := unlinked_of_vacant hplace ha
  have hne' : some (.item a) ≠ (newStorage loc label).map (Node.item (n := n)) := by
    cases hnew : newStorage loc label with
    | none => simp
    | some b =>
      rw [hnew] at hne
      simpa using Ne.symm (by simpa using hne)
  exact ⟨(hlinks _ hunlinked hne').1, (hlinks _ hunlinked hne').2, hcell _ hunlinked hne'⟩

/-- What a step outside `drain_list` leaves. -/
theorem Simulates.finish {label : Label K n} (h : Represents loc l s) (hlive : s.destroyed = false)
    (hres : s.ResultInv) (hplace : s.PlaceInv) (hs : Step M s label s')
    (hinvoking : ∀ u op, (s'.threads u).pc = .invoke op → (s.threads u).pc = .invoke op)
    (hdestroy : label ≠ .destroy) (hsim : Simulates M loc s label s' l l') :
    l.Returns M (listAct loc s label) l' ∧ Represents loc l' s' ∧ Spares loc s label l l' := by
  refine ⟨hsim.returns, ⟨hsim.denotes.heap, fun _ => hsim.denotes, fun u op hop => ?_⟩,
    .of_untouched hplace hsim.untouched.links hsim.untouched.cell⟩
  rw [hsim.untouched.moved]
  have hpc := hinvoking u op hop
  refine ⟨(h.moved u op hpc).object, fun x hx => ?_⟩
  rw [(h.moved u op hpc).state x hx]
  -- what a thread is about to invoke has left the scheduler
  rcases hs.sched hdestroy with ⟨-, he⟩ | ⟨a, -, hstep⟩
  · rw [he]
  · exact (Sched.posted_state (hres.live hlive) hstep x (hres.invoke u x (hx ▸ hpc))).symm

/-- One round of `drain_list`, and `dispatch` up to the release of the storage. -/
theorem Represents.drain (h : Represents loc l s) (hlive : s.destroyed = false) (hres : s.ResultInv)
    (hplace : s.PlaceInv) (hcall : (s.threads t).call = .none) (hs : RunStep M s t .drain s') :
    ∃ l', l.Returns M (listAct loc s (.thread t .drain)) l' ∧ Represents loc l' s' ∧
      Spares loc s (.thread t .drain) l l' := by
  have hd := h.denotes hlive
  have hstep : Step M s (.thread t .drain) s' := .run hlive hcall hs
  cases hs with
  | drained hpc hbatch =>
    have hsim : Simulates M loc s (.thread t .drain) (s.goto t .readMore) l l :=
      .kept (hd.drained hbatch) (batch_mapThread _ _ (fun _ => rfl)) hd (.refl l)
    refine ⟨l, hsim.finish h hlive hres hplace hstep (fun u op hop => ?_) (by simp)⟩
    rw [ContextThread.goto_pc] at hop
    split at hop
    · exact absurd hop (by simp)
    · exact hop
  | @popFront op rest hpc hbatch =>
    obtain ⟨links, hrun, hd', hkeep⟩ := hd.drain (M := M) (t := t) hbatch
    have hrest : (fun u => ((ContextThread.mapThread { s with log := s.log ++ [.released op] } t
        fun th => { th with pc := .invoke op, batch := rest }).threads u).batch)
        = Function.update (fun u => (s.threads u).batch) t rest :=
      batch_exchanged rfl (fun _ => rfl)
    have hd'' := hd'
    rw [← hrest] at hd''
    refine ⟨_, hrun, ⟨hd''.heap, fun _ => hd'', fun u x hx => ?_⟩,
      .of_untouched hplace hkeep (fun _ _ _ => rfl)⟩
    rw [ContextThread.mapThread_threads] at hx
    show Holds (Function.update l.moved t (l.cell (node loc op)) u) s.sched.io.state x
    by_cases hu : u = t
    · -- the storage held the operation that the thread has moved out
      subst hu
      rw [if_pos rfl, Pc.invoke.injEq] at hx
      subst hx
      rw [Function.update_self]
      exact hd.cells (.batch u) op (by rw [lists, hbatch]; exact List.mem_cons_self)
    · rw [if_neg hu] at hx
      rw [Function.update_of_ne hu]
      exact h.moved u x hx

/-- **A step and its part in memory.** -/
theorem Represents.step {label : Label K n} (h : Represents loc l s) (hres : s.ResultInv)
    (hplace : s.PlaceInv) (hs : Step M s label s')
    (hnew : FreshStorage loc s label) :
    ∃ l', l.Returns M (listAct loc s label) l' ∧ Represents loc l' s' ∧ Spares loc s label l l' := by
  cases hs with
  | @run t a s' hlive hcall hrun =>
    -- `drain` takes an operation out of its storage, the other steps keep what was taken
    by_cases ha : a = .drain
    · subst ha
      exact h.drain hlive hres hplace hcall hrun
    · obtain ⟨l', hsim⟩ := Simulates.run hres hplace hlive (h.denotes hlive) ha hrun
      exact ⟨l', hsim.finish h hlive hres hplace (.run hlive hcall hrun)
        (fun u op => hrun.invoking ha) (by simp)⟩
  | @call t a s' hlive hcall huser hcallStep =>
    obtain ⟨l', hsim⟩ := Simulates.call hres hplace hlive (h.denotes hlive) hnew hcallStep
    exact ⟨l', hsim.finish h hlive hres hplace (.call hlive hcall huser hcallStep)
      (fun u op hop => by rwa [hcallStep.frame.1 u] at hop) (by simp)⟩
  | @rest t a s' hlive hrest =>
    obtain ⟨l', hsim⟩ := Simulates.rest (h.denotes hlive) hrest
    refine ⟨l', hsim.finish h hlive hres hplace (.rest hlive hrest) (fun u op hop => ?_) (by simp)⟩
    rcases hrest.frame.2.1 u with he | ⟨-, he⟩
    · exact he.symm.trans hop
    · rw [he] at hop
      exact absurd hop (by simp)
  | destroy hlive hout =>
    obtain ⟨links, hrun, hheap, hkeep⟩ := destroy_ok (M := M) h.heap
    refine ⟨_, hrun, ⟨hheap, fun hd => absurd hd (by simp [ContextThread.destroy]), ?_⟩,
      .of_untouched hplace hkeep (fun _ _ _ => rfl)⟩
    intro u op hop
    have hpc : (s.threads u).pc = .invoke op := hop
    rw [(hout u).1] at hpc
    exact absurd hpc (by simp)
  | @kernel k =>
    refine ⟨{ l with kernel := k }, ⟨0, fun _ _ => rfl⟩, ⟨h.heap, fun hlive => ?_, h.moved⟩,
      fun _ _ _ => ⟨rfl, rfl, rfl⟩⟩
    have hd := h.denotes hlive
    exact ⟨hd.heap, hd.cells, hd.beginCancelled, hd.pollQueueLength, hd.interest, hd.wakeFd,
      hd.wakeCounter, rfl⟩
  | @forget fd =>
    refine ⟨{ l with interest := Function.update l.interest fd none }, ⟨0, fun _ _ => rfl⟩,
      ⟨h.heap, fun hlive => ?_, h.moved⟩, fun _ _ _ => ⟨rfl, rfl, rfl⟩⟩
    have hd := h.denotes hlive
    exact ⟨hd.heap, hd.cells, hd.beginCancelled, hd.pollQueueLength,
      congrArg (Function.update · fd none) hd.interest, hd.wakeFd, hd.wakeCounter, hd.kernel⟩

/-! ### Runs -/

/-- The memory of a constructed context. -/
structure Init (l : Linked K n) (s : ContextThread K n) : Prop where
  sentinels : ∀ i, l.links.next (.sentinel i) = .sentinel i ∧
    l.links.prev (.sentinel i) = .sentinel i
  beginCancelled : l.beginCancelled = .sentinel .operations
  pollQueueLength : l.pollQueueLength = 0
  interest : l.interest = s.sched.io.interest
  wakeFd : l.wakeFd = s.sched.io.wakeFd
  wakeCounter : l.wakeCounter = 0
  kernel : l.kernel = s.sched.kernel

/-- The memory of a constructed context: three kinds of lists, all of them empty rings. -/
theorem Init.represents (h : l.Init s) (hs : ContextThread.Init s) : Represents loc l s := by
  obtain ⟨⟨wakeFd, k, hsched⟩, hs⟩ := hs
  have hlists : ∀ i, lists s.sched.io.operations s.completionQueue (fun u => (s.threads u).batch) i
      = [] := by
    intro i
    rw [hs, hsched]
    cases i <;> rfl
  have hnodes : ∀ i, nodes (n := n) loc s.sched.io.operations s.completionQueue
      (fun u => (s.threads u).batch) i = [] := fun i => by rw [nodes, hlists, List.map_nil]
  have hheap : WellFormed Node.sentinel l.links (nodes loc s.sched.io.operations s.completionQueue
      (fun u => (s.threads u).batch)) := by
    refine ⟨fun i => ?_, fun i j x hi hj => ?_⟩
    · rw [hnodes]
      exact Ring.isRing_nil.mpr (h.sentinels i)
    · rw [hnodes, List.mem_singleton] at hi hj
      exact Node.sentinel.inj (hi.symm.trans hj)
  have hio : s.sched.io = IoScheduler.init wakeFd := by rw [hs, hsched]
  refine ⟨hheap, fun _ => ⟨hheap, fun i op hop => ?_, ?_, ?_, h.interest, h.wakeFd, ?_, h.kernel⟩,
    fun u op hop => ?_⟩
  · rw [hlists] at hop
    exact absurd hop (by simp)
  · rw [h.beginCancelled, hio]
    rfl
  · rw [h.pollQueueLength, hio]
    rfl
  · rw [h.wakeCounter, hio]
    rfl
  · rw [hs] at hop
    exact absurd hop (by simp [ContextThread.idle])

/-- Storage in no list is written to by others. -/
theorem Represents.reuse (h : Represents loc l s) (hs : SameListed loc s.sched.io.operations
    s.completionQueue (fun u => (s.threads u).batch) l l') (hmoved : l'.moved = l.moved) :
    Represents loc l' s :=
  ⟨h.heap.congr hs.links, fun hlive => (h.denotes hlive).congr hs, by rw [hmoved]; exact h.moved⟩

end Linked

open Linked (Returns Represents Spares)

/-- **Runs of a context and of its memory.** -/
inductive LinkedReach (M : Kernel K) (loc : AnyAsyncOperation → Nat) :
    ContextThread K n → Linked K n → Prop
  | start {s : ContextThread K n} {l : Linked K n} (hs : ContextThread.Init s) (hl : l.Init s) :
    LinkedReach M loc s l
  /-- A step, and its part in memory. -/
  | step {s s' : ContextThread K n} {l l' : Linked K n} {label : Label K n}
    (h : LinkedReach M loc s l) (hnew : FreshStorage loc s label) (hs : s.next M label = some s')
    (hl : l.Returns M (listAct loc s label) l') : LinkedReach M loc s' l'
  /-- Other code writes to storage that is in no list. -/
  | reuse {s : ContextThread K n} {l l' : Linked K n} (h : LinkedReach M loc s l)
    (hsame : SameListed loc s.sched.io.operations s.completionQueue
      (fun u => (s.threads u).batch) l l') (hmoved : l'.moved = l.moved) : LinkedReach M loc s l'

namespace LinkedReach

/-- The states of a run in memory are those of a run of the context. -/
theorem reach (h : LinkedReach M loc s l) :
    ContextThread.Reach M (FreshStorage loc) s := by
  induction h with
  | start hs => exact .start hs
  | step _ hnew hs _ ih => exact .next ih hnew hs
  | reuse _ _ _ ih => exact ih

/-- **The memory always represents the state.** -/
theorem represents (h : LinkedReach M loc s l) : Represents loc l s := by
  induction h with
  | start hs hl => exact hl.represents hs
  | step h hnew hs hl ih =>
    obtain ⟨l', hrun, hrep, -⟩ := ih.step (ContextThread.reach_resultInv h.reach)
      (ContextThread.reach_placeInv h.reach) (ContextThread.next_cases hs) hnew
    exact (hl.det hrun) ▸ hrep
  | reuse _ hsame hmoved ih => exact ih.reuse hsame hmoved

/-- The next step of the memory. -/
theorem exists_next (h : LinkedReach M loc s l) {label : Label K n} (hnew : FreshStorage loc s label)
    (hs : s.next M label = some s') :
    ∃ l', l.Returns M (listAct loc s label) l' ∧ Spares loc s label l l' := by
  obtain ⟨l', hrun, -, hspares⟩ := h.represents.step (ContextThread.reach_resultInv h.reach)
    (ContextThread.reach_placeInv h.reach) (ContextThread.next_cases hs) hnew
  exact ⟨l', hrun, hspares⟩

end LinkedReach

/-- Memory in which a context has just been constructed. -/
def Linked.constructed (s : ContextThread K n) : Linked K n where
  links := ⟨id, id⟩
  cell := fun _ => ⟨.plain 0, .fresh⟩
  beginCancelled := .sentinel .operations
  pollQueueLength := 0
  interest := s.sched.io.interest
  wakeFd := s.sched.io.wakeFd
  wakeCounter := 0
  kernel := s.sched.kernel
  moved := fun _ => ⟨.plain 0, .fresh⟩

/-- A run of the context is a run of its memory. -/
theorem exists_linkedReach (h : ContextThread.Reach M (FreshStorage loc) s) :
    ∃ l, LinkedReach M loc s l := by
  induction h with
  | @start s hs =>
    exact ⟨.constructed s, .start hs ⟨fun _ => ⟨rfl, rfl⟩, rfl, rfl, rfl, rfl, rfl, rfl⟩⟩
  | next _ hnew hs ih =>
    obtain ⟨l, hl⟩ := ih
    obtain ⟨l', hrun, -⟩ := hl.exists_next hnew hs
    exact ⟨l', hl.step hnew hs hrun⟩

/-! ### The results -/

/-- **The lists in memory.**  Along every run, whatever other code writes to released storage:
    every list is a ring through the storage of its operations, no node is in two of them, they
    answer `empty()` as the sequences do, and a thread that is about to invoke a handler has moved
    out the very operation that it took, with its result, whose storage it has released. -/
theorem linked_lists (h : LinkedReach M loc s l) :
    (∀ i, IsRing l.links (.sentinel i) ((lists s.sched.io.operations s.completionQueue
      (fun u => (s.threads u).batch) i).map (node loc))) ∧
    (∀ i j, ∀ x ∈ lists s.sched.io.operations s.completionQueue (fun u => (s.threads u).batch) i,
      ∀ y ∈ lists s.sched.io.operations s.completionQueue (fun u => (s.threads u).batch) j,
        loc x = loc y → i = j ∧ x = y) ∧
    (∀ i, IntrusiveList.empty l.links (.sentinel i) = (lists s.sched.io.operations s.completionQueue
      (fun u => (s.threads u).batch) i).isEmpty) ∧
    (s.destroyed = false → decide (l.pollQueueLength = 0) = s.sched.io.empty) ∧
    ∀ u op, (s.threads u).pc = .invoke op →
      (l.moved u).op = op ∧ (l.moved u).deliver = s.deliver op := by
  have hrep := h.represents
  refine ⟨hrep.heap.ring, fun i j x hx y hy he => ?_, fun i => ?_, fun hlive => ?_, ?_⟩
  · exact Linked.listed_inj hrep.heap hx hy (congrArg Node.item he)
  · rw [hrep.heap.empty_eq, nodes, List.isEmpty_map]
  · have hlen := (hrep.denotes hlive).pollQueueLength
    exact congrArg (fun k => decide (k = 0)) hlen
  · intro u op hpc
    have hm := hrep.moved u op hpc
    refine ⟨hm.object, ?_⟩
    rw [Cell.deliver, hm.object]
    cases op with
    | plain addr => rfl
    | io x =>
      cases hresult : (s.sched.io.state x).result <;>
        simp [ContextThread.deliver, hm.state x rfl, hresult]

/-- A completion is posted, taken and released, and its handler posts another one, which is made in
    the same storage. -/
def postInHandler (t : Fin n) : List (Label K n) :=
  [.thread t (.post 1), .thread t .callWake, .thread t .callNotify, .thread t .enterRunOnce,
    .thread t .take, .thread t .drain, .thread t .invoke, .thread t (.post 2)]

/-- The two completions were made in one storage, and the queue is a ring through it. -/
theorem linked_lists_reused :
    ∃ (s : ContextThread Unit 1) (l : Linked Unit 1), s.handed = [.plain 1, .plain 2] ∧
      IsRing l.links (.sentinel .completionQueue) [.item 7] := by
  have hrun : ∃ s, ContextThread.Reach quietKernel (FreshStorage (fun _ => 7)) s ∧
      decide (s.handed = [.plain 1, .plain 2] ∧ s.completionQueue = [.plain 2]) = true :=
    Transition.exists_reach (ContextThread.quietContext_init 1) (postInHandler 0) _ (by decide)
  obtain ⟨s, hs, hp⟩ := hrun
  have hp' := of_decide_eq_true hp
  obtain ⟨l, hl⟩ := exists_linkedReach hs
  refine ⟨s, l, hp'.1, ?_⟩
  have hring := (linked_lists hl).1 .completionQueue
  rwa [lists, hp'.2] at hring

/-- **Memory safety of the lists.**  Along every run, a step that the context can make ends in
    memory too: no loop over the links runs on and no check of the lists fails.  The memory
    represents the state after the step, and storage without a live operation has not been written
    to, except where the step makes its own.  A `cancel` that does not return is no such step. -/
theorem linked_refines (h : LinkedReach M loc s l) {label : Label K n}
    (hnew : FreshStorage loc s label) (hs : s.next M label = some s') :
    ∃ l', l.Returns M (listAct loc s label) l' ∧ Represents loc l' s' ∧
      ∀ a, s.Vacant loc a → a ∉ newStorage loc label →
        l'.links.next (.item a) = l.links.next (.item a) ∧
        l'.links.prev (.item a) = l.links.prev (.item a) ∧ l'.cell (.item a) = l.cell (.item a) := by
  obtain ⟨l', hrun, hspares⟩ := h.exists_next hnew hs
  exact ⟨l', hrun, (h.step hnew hs hrun).represents,
    fun a ha hne => hspares a ha (fun he => hne (by simp [he]))⟩

/-- The released storage is written to by the second `post`, other storage is not. -/
theorem linked_refines_reused :
    ∃ l l' : Linked Unit 1, l.Returns quietKernel (.post 7 (.plain 2)) l' ∧
      l'.cell (.item 8) = l.cell (.item 8) := by
  have hrun : ∃ s : ContextThread Unit 1,
      ContextThread.Reach quietKernel (FreshStorage (fun _ => 7)) s ∧
      decide (FreshStorage (fun _ => 7) s (.thread 0 (.post 2)) ∧ s.Vacant (fun _ => 7) 8 ∧
        (s.next quietKernel (.thread 0 (.post 2))).isSome = true) = true :=
    Transition.exists_reach (ContextThread.quietContext_init 1) (postInHandler 0).dropLast _
      (by decide)
  obtain ⟨s, hs, hp⟩ := hrun
  obtain ⟨hnew, hvacant, hnext⟩ := of_decide_eq_true hp
  obtain ⟨s', hs'⟩ := Option.isSome_iff_exists.mp hnext
  obtain ⟨l, hl⟩ := exists_linkedReach hs
  obtain ⟨l', hreturns, -, hspares⟩ := linked_refines hl hnew hs'
  exact ⟨l, l', hreturns, (hspares 8 hvacant (by simp [newStorage])).2.2⟩

end Exios
