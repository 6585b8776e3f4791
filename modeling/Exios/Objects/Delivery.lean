import Exios.Objects.Stream
import Exios.Context.Accepting
import Exios.Context.Dispatch

namespace Exios

/-!
# Streams — the bytes that the handlers see

`Stream` says in which order bytes go into completed operations; the completed operations still
have to be queued, taken and dispatched.  When one thread drives the context, its handlers see the
bytes in the order of the stream.

* `StreamFd.bytes` — what an operation has moved;
* `handled` — what the operations have moved whose handlers were invoked, in the order in which
  they were invoked;
* `StreamOrder` — the invariant: the connection, the line of dispatch, and what joins them;
* `delivered_in_order` — what the handlers of reads have got is a prefix of what has arrived, and
  what the handlers of writes were told of is a prefix of what the peer gets.
-/

/-- The I/O operations among `ops`. -/
def ios (ops : List AnyAsyncOperation) : List AsyncIoOperation :=
  ops.filterMap (fun op =>
    match op with
    | .io op => some op
    | .plain _ => none)

@[simp] theorem ios_append (ops ops' : List AnyAsyncOperation) :
    ios (ops ++ ops') = ios ops ++ ios ops' := List.filterMap_append

@[simp] theorem ios_map (ops : List AsyncIoOperation) : ios (ops.map .io) = ops := by
  induction ops with
  | nil => rfl
  | cons op ops ih =>
    show op :: ios (ops.map .io) = op :: ops
    rw [ih]

/-- An initial piece has an initial piece of the I/O operations. -/
theorem ios_of_isPrefix {ops ops' : List AnyAsyncOperation} (h : ops <+: ops') :
    ios ops <+: ios ops' := by
  obtain ⟨rest, rfl⟩ := h
  rw [ios_append]
  exact List.prefix_append _ _

/-! ### What an operation has moved -/

/-- The bytes that `op` has moved. -/
def StreamFd.bytes (e : StreamFd) (op : AsyncIoOperation) : List UInt8 :=
  ((e.transfers.filter (fun p => decide (p.1 = op))).map Prod.snd).flatten

/-- The bytes that the operations have moved whose handlers were invoked, in this order. -/
def handled (e : StreamFd) (invoked : List AnyAsyncOperation) (readable : Bool) : List UInt8 :=
  ((ios invoked).filter (fun op => decide (op.isReadOperation = readable))).flatMap e.bytes

namespace StreamFd

variable {e : StreamFd}

/-- An operation without a transfer has moved nothing. -/
theorem bytes_eq_nil {op : AsyncIoOperation} (h : op ∉ e.transfers.map Prod.fst) :
    e.bytes op = [] := by
  have hnone : e.transfers.filter (fun p => decide (p.1 = op)) = [] := by
    apply List.filter_eq_nil_iff.mpr
    intro p hp heq
    exact h (of_decide_eq_true heq ▸ List.mem_map_of_mem hp)
  rw [bytes, hnone]
  rfl

/-- The first transfer is that of its operation. -/
theorem bytes_cons {p : AsyncIoOperation × List UInt8} {rest : List (AsyncIoOperation × List UInt8)}
    (h : e.transfers = p :: rest) (op : AsyncIoOperation) :
    e.bytes op = (if p.1 = op then p.2 else []) ++ ({ e with transfers := rest }).bytes op := by
  rw [bytes, h, List.filter_cons]
  by_cases hop : p.1 = op
  · rw [if_pos (by simpa using hop), if_pos hop]
    rfl
  · rw [if_neg (by simpa using hop), if_neg hop, List.nil_append]
    rfl

/-- **The transfers, operation by operation.**  When they are those of some operations `l`, each
    once and in this order, collecting the bytes of each of `l` gives all bytes in their order. -/
theorem flatMap_bytes {p : AsyncIoOperation → Bool} {l : List AsyncIoOperation} (hnd : l.Nodup)
    (h : e.transfers.map Prod.fst = l.filter p) (readable : Bool) :
    (l.filter (fun op => decide (op.isReadOperation = readable))).flatMap e.bytes
      = e.moved readable := by
  induction l generalizing e with
  | nil =>
    rw [List.filter_nil, List.map_eq_nil_iff] at h
    rw [moved, h]
    rfl
  | cons x xs ih =>
    have hx : x ∉ xs := (List.nodup_cons.mp hnd).1
    have hxs : xs.Nodup := (List.nodup_cons.mp hnd).2
    by_cases hp : p x = true
    · -- the first transfer is that of `x`, and there is no other one
      rw [List.filter_cons_of_pos hp, List.map_eq_cons_iff] at h
      obtain ⟨⟨y, bs⟩, rest, htransfers, hy, hrest⟩ := h
      obtain rfl : y = x := hy
      have hself : e.bytes y = bs := by
        rw [bytes_cons htransfers, if_pos rfl, bytes_eq_nil, List.append_nil]
        rw [hrest]
        exact fun hmem => hx (List.mem_filter.mp hmem).1
      have hothers : ∀ ops : List AsyncIoOperation, (∀ op ∈ ops, op ∈ xs) →
          ops.flatMap e.bytes = ops.flatMap ({ e with transfers := rest }).bytes := by
        intro ops hops
        rw [List.flatMap, List.flatMap]
        congr 1
        apply List.map_congr_left
        intro op hop
        rw [bytes_cons htransfers, if_neg, List.nil_append]
        rintro rfl
        exact hx (hops _ hop)
      have hih := ih (e := { e with transfers := rest }) hxs hrest
      have hmoved : e.moved readable = (if y.isReadOperation = readable then bs else [])
          ++ ({ e with transfers := rest }).moved readable := by
        rw [moved, htransfers, List.filter_cons]
        by_cases hread : y.isReadOperation = readable
        · rw [if_pos (by simpa using hread), if_pos hread]
          rfl
        · rw [if_neg (by simpa using hread), if_neg hread, List.nil_append]
          rfl
      rw [hmoved, List.filter_cons]
      by_cases hread : y.isReadOperation = readable
      · rw [if_pos (by simpa using hread), if_pos hread, List.flatMap_cons, hself,
          hothers _ (fun op hop => (List.mem_filter.mp hop).1), hih]
      · rw [if_neg (by simpa using hread), if_neg hread, List.nil_append,
          hothers _ (fun op hop => (List.mem_filter.mp hop).1), hih]
    · -- `x` has moved nothing
      rw [List.filter_cons_of_neg hp] at h
      have hself : e.bytes x = [] := by
        apply bytes_eq_nil
        rw [h]
        exact fun hmem => hx (List.mem_filter.mp hmem).1
      rw [List.filter_cons]
      split
      · rw [List.flatMap_cons, hself, List.nil_append]
        exact ih hxs h
      · exact ih hxs h

/-- A transfer that is the only one of its operation. -/
theorem bytes_of_mem {p : AsyncIoOperation × List UInt8} (hp : p ∈ e.transfers)
    (hnd : (e.transfers.map Prod.fst).Nodup) : e.bytes p.1 = p.2 := by
  obtain ⟨before, after, hsplit⟩ := List.append_of_mem hp
  rw [hsplit, List.map_append, List.map_cons, List.nodup_middle, List.nodup_cons] at hnd
  -- `p` is the only transfer of its operation, so the others are filtered out
  have hnone : ∀ l : List (AsyncIoOperation × List UInt8), (∀ q ∈ l, q ∈ before ++ after) →
      l.filter (fun q => decide (q.1 = p.1)) = [] := by
    intro l hl
    apply List.filter_eq_nil_iff.mpr
    intro q hq heq
    refine hnd.1 ?_
    rw [← of_decide_eq_true heq, ← List.map_append]
    exact List.mem_map_of_mem (hl q hq)
  rw [bytes, hsplit, List.filter_append, hnone before (fun q hq => List.mem_append_left _ hq),
    List.filter_cons_of_pos (by simp), hnone after (fun q hq => List.mem_append_right _ hq)]
  simp

end StreamFd

/-! ### What is pushed is what is posted -/

/-- The scheduler posts behind what it has posted. -/
theorem Sched.step_posted {K : Type} {M : Kernel K} {s s' : Sched K} (hinv : s.Inv)
    {a : SchedAct K} (hs : Sched.step M s a = some s') : s.posted <+: s'.posted := by
  cases a with
  | schedule op =>
    obtain ⟨-, hs⟩ := Sched.step_schedule.mp hs
    obtain ⟨io, -, rfl⟩ := Sched.schedule_cases hs
    -- scheduling posts nothing, and nor does a cancellation before the next poll
    exact List.prefix_rfl
  | cancel n fuel =>
    obtain ⟨found, hs⟩ := Sched.step_cancel.mp hs
    obtain ⟨io, -, rfl⟩ := Sched.cancel_cases hs
    exact List.prefix_rfl
  | pollCancellations tw =>
    obtain ⟨p, hs⟩ := Sched.step_pollCancellations.mp hs
    obtain ⟨w, rfl⟩ := Sched.pollCancellations_cases hinv hs
    -- both poll sections append to what was posted
    exact List.prefix_append _ _
  | pollNotifications events tw =>
    obtain ⟨n, hs⟩ := Sched.step_pollNotifications.mp hs
    obtain ⟨st, done, -, -, rfl, rfl⟩ := Sched.pollNotifications_cases hinv hs
    exact List.prefix_append _ _
  | wake tw | forget n | kernel k =>
    rw [Sched.step, Option.some.injEq] at hs
    subst hs
    exact List.prefix_rfl

namespace Dispatch

variable {K : Type} {n : Nat} {M : Kernel K} {h : Dispatch K n} {ctx : ContextThread K n}

/-- The I/O operations pushed to the completion queue are those that the scheduler has posted. -/
def Posted (h : Dispatch K n) : Prop := ios h.pushed = h.ctx.sched.posted

/-- Before the first step nothing is posted. -/
theorem init_posted (hi : Init h) : h.Posted := by
  obtain ⟨⟨⟨wakeFd, k, hsched⟩, -⟩, hh⟩ := hi
  rw [Posted, hh, hsched]
  rfl

/-- A step pushes, of the I/O operations, what the scheduler posts in it. -/
theorem step_posted (hres : h.ctx.ResultInv) (hposted : h.Posted) {l : Label K n}
    (hs : ContextThread.Step M h.ctx l ctx) : (h.record l ctx).Posted := by
  have hgrows : h.ctx.sched.posted <+: ctx.sched.posted := by
    by_cases hl : l = .destroy
    · subst hl
      cases hs with
      | destroy hlive hout => exact List.prefix_rfl
    · rcases hs.sched hl with ⟨-, heq⟩ | ⟨a, -, hstep⟩
      · rw [heq]
      · by_cases hd : h.ctx.destroyed = true
        · -- what is left to happen then posts nothing
          cases hs with
          | run hlive | call hlive | rest hlive => exact absurd (hlive.symm.trans hd) (by simp)
          | destroy => exact absurd rfl hl
          | kernel | forget => exact List.prefix_rfl
        · exact Sched.step_posted (hres.live (by simpa using hd)) hstep
  have hposts : ios (posts h.ctx ctx) = ctx.sched.posted.drop h.ctx.sched.posted.length :=
    ios_map _
  have hadvance : ios (h.pushed ++ posts h.ctx ctx) = ctx.sched.posted := by
    obtain ⟨new, hnew⟩ := hgrows
    rw [ios_append, hposts, hposted, ← hnew, List.drop_left]
  cases hs with
  | run hlive hcall hs =>
    cases hs with
    | take => exact hposted
    | _ => exact hadvance
  | call hlive hcall huser hs =>
    cases hs with
    | @post addr hfree hnew =>
      show ios (h.pushed ++ [.plain addr]) = h.ctx.sched.posted
      rw [ios_append, hposted]
      exact List.append_nil _
    | _ => exact hadvance
  | rest hlive hs => cases hs <;> exact hadvance
  | destroy | kernel | forget => exact hadvance

end Dispatch

/-! ### Runs -/

namespace Stream

variable {K : Type} {n : Nat} {fd : Int} {bufferSize : AsyncIoOperation → Nat}
  {payload : AsyncIoOperation → List UInt8} {M : Kernel K} {r : Fin n}
  {h h' : Dispatch (StreamFd × K) n}

/-- Only `r` drives the context, and its scheduler is run on one connection. -/
def Drives (r : Fin n) (fd : Int) (h : Dispatch (StreamFd × K) n)
    (l : Label (StreamFd × K) n) : Prop :=
  Dispatch.Drives r h l ∧ ∀ a ∈ h.ctx.schedAct l, OneConnection fd h.ctx.sched a

/-- A constructed context and a new connection. -/
def Begin (h : Dispatch (StreamFd × K) n) : Prop :=
  Dispatch.Init h ∧ h.ctx.sched.kernel.1 = StreamFd.init

/-- States reached by runs in which only `r` drives the context, on one connection. -/
def Driven (M : Kernel K) (fd : Int) (bufferSize : AsyncIoOperation → Nat)
    (payload : AsyncIoOperation → List UInt8) (r : Fin n) : Dispatch (StreamFd × K) n → Prop :=
  Transition.Reach Begin (Dispatch.next (streamKernel fd bufferSize payload M)) (Drives r fd)

/-- The connection, as the context uses it. -/
structure Connected (fd : Int) (bufferSize : AsyncIoOperation → Nat)
    (payload : AsyncIoOperation → List UInt8) (s : ContextThread (StreamFd × K) n) : Prop where
  live : s.destroyed = false → Inv fd bufferSize payload s.sched
  nodup : s.sched.posted.Nodup
  carried : Carried fd bufferSize payload s.sched.posted s.sched.io.state s.sched.kernel.1

/-- **The invariant.** -/
structure StreamOrder (fd : Int) (bufferSize : AsyncIoOperation → Nat)
    (payload : AsyncIoOperation → List UInt8) (r : Fin n) (h : Dispatch (StreamFd × K) n) :
    Prop where
  results : h.ctx.ResultInv
  places : h.ctx.PlaceInv
  line : Dispatch.InLine r h
  log : h.ctx.LogInv
  posted : h.Posted
  connected : Connected fd bufferSize payload h.ctx

/-- The invariant of the stream's scheduler connects it to the context's operations. -/
theorem Connected.of_inv {s : ContextThread (StreamFd × K) n}
    (hinv : Inv fd bufferSize payload s.sched) : Connected fd bufferSize payload s :=
  ⟨fun _ => hinv, (List.nodup_append'.mp (hinv.sched.split.nodup_iff.mp hinv.sched.nodup)).2.1,
    hinv.carried⟩

theorem begin_order (hi : Begin h) : StreamOrder fd bufferSize payload r h := by
  obtain ⟨hinit, hkernel⟩ := hi
  refine ⟨ContextThread.init_resultInv hinit.1, ContextThread.init_placeInv hinit.1,
    Dispatch.init_inLine hinit, ContextThread.init_logInv hinit.1, Dispatch.init_posted hinit,
    .of_inv ?_⟩
  obtain ⟨wakeFd, k, hsched⟩ := hinit.1.1
  refine start_inv ⟨wakeFd, k.2, ?_⟩
  rw [hsched] at hkernel ⊢
  rw [← show k.1 = StreamFd.init from hkernel]

/-- Every step of the context keeps the books of the connection. -/
theorem Connected.step {s s' : ContextThread (StreamFd × K) n}
    (h : Connected fd bufferSize payload s) {l : Label (StreamFd × K) n}
    (hok : ∀ a ∈ s.schedAct l, OneConnection fd s.sched a)
    (hs : ContextThread.Step (streamKernel fd bufferSize payload M) s l s') :
    Connected fd bufferSize payload s' := by
  by_cases hl : l = .destroy
  · subst hl
    cases hs with
    | destroy hlive hout =>
      exact ⟨fun hd => absurd hd (by simp [ContextThread.destroy]), h.nodup, h.carried⟩
  by_cases hd : s.destroyed = true
  · -- the kernel goes on without the context
    have hdead : ¬ s.destroyed = false := by simp [hd]
    cases hs with
    | run hlive | call hlive | rest hlive => exact absurd hlive hdead
    | destroy => exact absurd rfl hl
    | @kernel k =>
      exact ⟨fun hlive => absurd hlive hdead, h.nodup, h.carried.peer (hok (.kernel k) rfl)⟩
    | forget => exact ⟨fun hlive => absurd hlive hdead, h.nodup, h.carried⟩
  · have hinv := h.live (by simpa using hd)
    rcases hs.sched hl with ⟨-, heq⟩ | ⟨a, ha, hstep⟩
    · exact .of_inv (heq ▸ hinv)
    · exact .of_inv (step_inv hinv (hok a ha) hstep)

/-- **The step lemma** for the order in which the results are handed out. -/
theorem step_order (hord : StreamOrder fd bufferSize payload r h) {l : Label (StreamFd × K) n}
    (hok : Drives r fd h l) (hs : h.next (streamKernel fd bufferSize payload M) l = some h') :
    StreamOrder fd bufferSize payload r h' := by
  obtain ⟨ctx, hctx, rfl⟩ := Option.map_eq_some_iff.mp hs
  have hs' := ContextThread.next_cases hctx
  -- the record next to the context does not change the context
  have hrec : (h.record l ctx).ctx = ctx := by
    unfold Dispatch.record
    split <;> rfl
  refine ⟨?_, ?_, Dispatch.step_inLine hord.results hord.places hord.line hok.1 hs', ?_,
    Dispatch.step_posted hord.results hord.posted hs', ?_⟩ <;> rw [hrec]
  · exact ContextThread.step_resultInv hord.results hs'
  · exact ContextThread.step_placeInv hord.results hord.places hs'
  · exact ContextThread.step_logInv hord.results hord.log hs'
  · exact hord.connected.step hok.2 hs'

/-- **Handlers see the stream in order.**  In every run in which one thread drives the context
    (any threads post, start reads and writes and cancel them, handlers throw, calls move few bytes
    or fail): what the invoked reads have got, one after the other, is the beginning of what has
    arrived; what the invoked writes have been told of is the beginning of what the peer has taken
    or will; a handler that gets an `Ok` result is told how many bytes its operation moved; and the
    operation of a handler that gets an error or a cancellation has moved none. -/
theorem delivered_in_order (hr : Driven M fd bufferSize payload r h) :
    handled h.ctx.sched.kernel.1 h.ctx.invoked true <+: h.ctx.sched.kernel.1.arrived ∧
    handled h.ctx.sched.kernel.1 h.ctx.invoked false
      <+: h.ctx.sched.kernel.1.sent ++ h.ctx.sched.kernel.1.outbound ∧
    (∀ op v, op.fd = fd → .invoked (.io op) (some (.ok v)) ∈ h.ctx.log →
      v.count = (h.ctx.sched.kernel.1.bytes op).length) ∧
    ∀ op e, .invoked (.io op) (some (.error e)) ∈ h.ctx.log →
      h.ctx.sched.kernel.1.bytes op = [] := by
  have hord : StreamOrder fd bufferSize payload r h :=
    Transition.Reach.invariant (StreamOrder fd bufferSize payload r) (fun _ => begin_order)
      (fun _ _ _ hi hok hs => step_order hi hok hs) hr
  have hcarried := hord.connected.carried
  -- the invoked operations are the first ones that were posted
  have hfirst : ∀ readable : Bool, handled h.ctx.sched.kernel.1 h.ctx.invoked readable
      <+: h.ctx.sched.kernel.1.moved readable := by
    intro readable
    have hios : ios h.ctx.invoked <+: h.ctx.sched.posted := by
      rw [← hord.posted]
      exact ios_of_isPrefix hord.line.dispatched
    obtain ⟨rest, hrest⟩ := hios.filter (fun op => decide (op.isReadOperation = readable))
    rw [← StreamFd.flatMap_bytes hord.connected.nodup hcarried.order, ← hrest, List.flatMap_append]
    exact List.prefix_append _ _
  refine ⟨?_, ?_, ?_, ?_⟩
  · exact (hfirst true).trans (hcarried.arrived ▸ List.prefix_append _ _)
  · exact hcarried.accepted ▸ hfirst false
  · intro op v hfd hmem
    have hresult := hord.log.results op _ hmem
    have hposted := (hord.results.delivered op _ hmem).1
    have htransfer : op ∈ h.ctx.sched.kernel.1.transfers.map Prod.fst := by
      rw [hcarried.order]
      refine List.mem_filter.mpr ⟨hposted, ?_⟩
      rw [succeeded, ← hresult]
      simp [IoResult.isOk, hfd]
    obtain ⟨p, hp, rfl⟩ := List.mem_map.mp htransfer
    obtain ⟨w, hw, hcount⟩ := (hcarried.exact p hp).result
    obtain rfl : v = w := by simpa [hw] using hresult
    rw [hcount, StreamFd.bytes_of_mem hp]
    rw [hcarried.order]
    exact hord.connected.nodup.filter _
  · intro op e hmem
    have hresult := hord.log.results op _ hmem
    apply StreamFd.bytes_eq_nil
    rw [hcarried.order]
    intro hop
    have hsucc := (List.mem_filter.mp hop).2
    rw [succeeded, ← hresult] at hsucc
    simp [IoResult.isOk] at hsucc

instance (r : Fin n) (fd : Int) (h : Dispatch (StreamFd × Unit) n) (l : Label (StreamFd × Unit) n) :
    Decidable (Drives r fd h l) :=
  inferInstanceAs (Decidable (_ ∧ ∀ a ∈ h.ctx.schedAct l, OneConnection fd h.ctx.sched a))

/-- A constructed context and a new connection, with nothing pushed yet. -/
def beginning (n : Nat) : Dispatch (StreamFd × Unit) n :=
  ⟨⟨⟨IoScheduler.init 0, (StreamFd.init, ()), [], [], [], []⟩, none, [], 0, none, 0,
    fun _ => ContextThread.idle, [], [], false⟩, [], [], 0, []⟩

theorem beginning_begin (n : Nat) : Begin (beginning n) :=
  ⟨⟨⟨⟨0, (StreamFd.init, ()), rfl⟩, rfl⟩, rfl⟩, rfl⟩

/-- Two reads are started while three bytes arrive; both get some of them in one poll, and the
    handler of the first one is invoked. -/
theorem delivered_in_order_first :
    ∃ h : Dispatch (StreamFd × Unit) 1, h.ctx.sched.kernel.1.arrived = [1, 2, 3] ∧
      h.ctx.invoked = [.io ⟨1, 5, .ioRead⟩] ∧ h.ctx.sched.kernel.1.bytes ⟨1, 5, .ioRead⟩ = [1, 2] ∧
      handled h.ctx.sched.kernel.1 h.ctx.invoked true <+: h.ctx.sched.kernel.1.arrived ∧
      (IoValue.size 2).count = (h.ctx.sched.kernel.1.bytes ⟨1, 5, .ioRead⟩).length := by
  have hrun : ∀ t : Fin 1, t = 0 → ∃ h, Driven shortKernel 5 (fun _ => 4) (fun _ => []) t h ∧
      decide (h.ctx.sched.kernel.1.arrived = [1, 2, 3] ∧ h.ctx.invoked = [.io ⟨1, 5, .ioRead⟩] ∧
        h.ctx.sched.kernel.1.bytes ⟨1, 5, .ioRead⟩ = [1, 2] ∧
        .invoked (.io ⟨1, 5, .ioRead⟩) (some (.ok (.size 2))) ∈ h.ctx.log) = true := by
    rintro t rfl
    exact Transition.exists_reach (beginning_begin 1)
      (.kernel (⟨[1, 2, 3], [], false, [1, 2, 3], [], []⟩, ()) ::
        [.schedule ⟨1, 5, .ioRead⟩, .callNotify, .schedule ⟨2, 5, .ioRead⟩, .callNotify,
          .enterRunOnce, .take, .drain, .readMore, .checkScheduler, .pollCancel, .announce,
          .epollReturn [⟨5, EPOLLIN⟩], .retire, .notifications, .guardNotify,
          .enterRunOnce, .take, .drain, .invoke].map (Label.thread 0)) _ (by decide)
  obtain ⟨h, hh, hend⟩ := hrun 0 rfl
  obtain ⟨harrived, hinvoked, hbytes, hlog⟩ := of_decide_eq_true hend
  have horder := delivered_in_order hh
  exact ⟨h, harrived, hinvoked, hbytes, horder.1, horder.2.2.1 _ _ rfl hlog⟩

end Stream

end Exios
