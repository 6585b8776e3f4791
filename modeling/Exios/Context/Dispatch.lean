import Exios.Context.Places

namespace Exios

/-!
# Context — the order of dispatch

When only one thread drives the context, completions are dispatched in the order in which they
were pushed to the completion queue, whatever the handlers post and wherever they throw.  Other
threads may post, schedule and cancel all the time.

* `Dispatch` — the context with the history of the queue: what was pushed, what the runner took
  last, and what was pushed since then;
* `InLine` — the invariant: what was pushed is what was dispatched, followed by the operation
  being dispatched, the rest of the batch, and the queue;
* `dispatch_in_order` — the result, in every state of every run.
-/

/-- The operation that is taken from the batch but not yet dispatched. -/
def Pc.inflight : Pc → List AnyAsyncOperation
  | .invoke op => [op]
  | _ => []

/-- The phases of a batch. -/
inductive Phase
  | idle
  /-- From the `splice` to the return, outside of handlers. -/
  | batch
  /-- Inside a handler of the batch. -/
  | handler
  /-- An exception is on its way out of `run_once`. -/
  | unwind
  /-- The guard has put the rest of the batch back. -/
  | thrown

/-- The phase that a position is in. -/
def Pc.phase : Pc → Phase
  | .out | .runLoop | .runTest | .waitEvaluate | .waitSleep | .asleep | .woken | .takeQueue
  | .exitWake | .exitNotify => .idle
  | .handler _ => .handler
  | .putBack => .unwind
  | .guardNotify true => .thrown
  | _ => .batch

/-- The actions that enter `run` or `run_once`. -/
def Act.enters : Act → Bool
  | .enterRun | .enterRunOnce => true
  | _ => false

/-- A thread that is outside makes no other step of a runner than to enter. -/
theorem ContextThread.RunStep.enters {K : Type} {n : Nat} {M : Kernel K}
    {s s' : ContextThread K n} {t : Fin n} {a : Act} (hs : RunStep M s t a s')
    (hout : (s.threads t).pc = .out) : a.enters = true := by
  cases hs with
  | enterRun | enterRunOnce => rfl
  | _ hpc => exact absurd (hout.symm.trans hpc) (by simp)

/-- `ContextThread` with the history of `completion_queue_`. -/
structure Dispatch (K : Type) (n : Nat) where
  ctx : ContextThread K n
  /-- The operations pushed by `post`, from user code and from the scheduler, oldest first. -/
  pushed : List AnyAsyncOperation
  /-- The batch that `run_once` took last. -/
  taken : List AnyAsyncOperation
  /-- The number of operations dispatched before that batch. -/
  start : Nat
  /-- The operations pushed since that batch was taken. -/
  since : List AnyAsyncOperation

namespace Dispatch

variable {K : Type} {n : Nat}

/-- What the scheduler pushes in a step. -/
def posts (s s' : ContextThread K n) : List AnyAsyncOperation :=
  (s'.sched.posted.drop s.sched.posted.length).map .io

/-- What a step pushes to the completion queue. -/
def pushes (s s' : ContextThread K n) : Label K n → List AnyAsyncOperation
  | .thread _ (.post addr) => [.plain addr]
  | _ => posts s s'

/-- A step that pushes `new`. -/
def advance (h : Dispatch K n) (ctx : ContextThread K n) (new : List AnyAsyncOperation) :
    Dispatch K n :=
  { h with ctx := ctx, pushed := h.pushed ++ new, since := h.since ++ new }

/-- The history after a step. -/
def record (h : Dispatch K n) (l : Label K n) (ctx : ContextThread K n) : Dispatch K n :=
  match l with
  | .thread _ .take =>
    { h with ctx := ctx, taken := h.ctx.completionQueue, start := h.ctx.invoked.length, since := [] }
  | _ => h.advance ctx (pushes h.ctx ctx l)

/-- One step. -/
def next (M : Kernel K) (h : Dispatch K n) (l : Label K n) : Option (Dispatch K n) :=
  (h.ctx.next M l).map (h.record l)

/-- A run starts with a constructed context. -/
def Init (h : Dispatch K n) : Prop :=
  ContextThread.Init h.ctx ∧ h = ⟨h.ctx, [], [], 0, []⟩

/-- Only `r` enters `run` and `run_once`. -/
def Drives (r : Fin n) (_ : Dispatch K n) : Label K n → Prop
  | .thread t a => a.enters = true → t = r
  | _ => True

instance (r : Fin n) (h : Dispatch K n) (l : Label K n) : Decidable (Drives r h l) :=
  match l with
  | .thread t a => inferInstanceAs (Decidable (a.enters = true → t = r))
  | .destroy => isTrue trivial
  | .kernel _ => isTrue trivial
  | .forget _ => isTrue trivial

/-- States reached by runs in which only `r` drives the context. -/
def Reach (M : Kernel K) (r : Fin n) : Dispatch K n → Prop :=
  Transition.Reach Init (next M) (Drives r)

/-! ### The invariant -/

/-- While a batch is being dispatched: what is left of it is what was not dispatched yet, and
    the queue is what was pushed since it was taken. -/
structure InBatch (h : Dispatch K n) (th : Thread) : Prop where
  start : h.start ≤ h.ctx.invoked.length
  rest : th.pc.inflight ++ th.batch = h.taken.drop (h.ctx.invoked.length - h.start)
  queue : h.ctx.completionQueue = h.since

/-- What is known in each phase of the runner. -/
def Known (h : Dispatch K n) (th : Thread) : Prop :=
  match th.pc.phase with
  | .idle => True
  | .batch => h.InBatch th ∧ h.start + th.numProcessedOnce = h.ctx.invoked.length
  | .handler => h.InBatch th ∧ h.start + th.numProcessedOnce + 1 = h.ctx.invoked.length
  | .unwind => h.InBatch th
  | .thrown => h.ctx.completionQueue = h.taken.drop (h.ctx.invoked.length - h.start) ++ h.since

/-- The invariant. -/
structure InLine (r : Fin n) (h : Dispatch K n) : Prop where
  others : ∀ u, u ≠ r → (h.ctx.threads u).pc = .out
  dispatched : h.ctx.invoked <+: h.pushed
  whole : h.ctx.destroyed = false → h.pushed = h.ctx.invoked ++
    (((h.ctx.threads r).pc.inflight ++ (h.ctx.threads r).batch) ++ h.ctx.completionQueue)
  known : h.Known (h.ctx.threads r)

variable {M : Kernel K} {r : Fin n} {h : Dispatch K n} {ctx : ContextThread K n}

/-- Nothing is handed over before the first step. -/
theorem init_inLine (hi : Init h) : InLine r h := by
  obtain ⟨⟨-, hctx⟩, hh⟩ := hi
  rw [hh, hctx]
  exact ⟨fun _ _ => rfl, List.prefix_rfl, fun _ => rfl, trivial⟩

/-- The thread goes on within a phase, with the same operations left. -/
structure Goes (th th' : Thread) : Prop where
  phase : th'.pc.phase = th.pc.phase
  rest : th'.pc.inflight ++ th'.batch = th.pc.inflight ++ th.batch
  count : th'.numProcessedOnce = th.numProcessedOnce

/-- A thread that stays goes on as it was. -/
theorem Goes.refl (th : Thread) : Goes th th := ⟨rfl, rfl, rfl⟩

/-- Pushed operations go behind the batch. -/
theorem InBatch.push {th th' : Thread} (hb : h.InBatch th)
    (hrest : th'.pc.inflight ++ th'.batch = th.pc.inflight ++ th.batch)
    {new : List AnyAsyncOperation} (hinvoked : ctx.invoked = h.ctx.invoked)
    (hqueue : ctx.completionQueue = h.ctx.completionQueue ++ new) :
    (h.advance ctx new).InBatch th' := by
  refine ⟨?_, ?_, ?_⟩
  · show h.start ≤ ctx.invoked.length
    rw [hinvoked]
    exact hb.start
  · show _ = h.taken.drop (ctx.invoked.length - h.start)
    rw [hinvoked, hrest]
    exact hb.rest
  · show ctx.completionQueue = h.since ++ new
    rw [hqueue, hb.queue]

/-- What is known in a phase is kept when operations are pushed. -/
theorem Known.push {th th' : Thread} (hk : h.Known th) (hgoes : Goes th th')
    {new : List AnyAsyncOperation} (hinvoked : ctx.invoked = h.ctx.invoked)
    (hqueue : ctx.completionQueue = h.ctx.completionQueue ++ new) :
    (h.advance ctx new).Known th' := by
  -- what goes to the back of the queue leaves the rest of the batch as it is
  have hbatch : h.InBatch th → (h.advance ctx new).InBatch th' :=
    fun hb => hb.push hgoes.rest hinvoked hqueue
  unfold Known at hk ⊢
  rw [hgoes.phase]
  cases hphase : th.pc.phase <;> simp only [hphase] at hk ⊢
  case batch =>
    refine ⟨hbatch hk.1, ?_⟩
    show h.start + th'.numProcessedOnce = ctx.invoked.length
    rw [hgoes.count, hinvoked]
    exact hk.2
  case handler =>
    refine ⟨hbatch hk.1, ?_⟩
    show h.start + th'.numProcessedOnce + 1 = ctx.invoked.length
    rw [hgoes.count, hinvoked]
    exact hk.2
  case unwind => exact hbatch hk
  case thrown =>
    show ctx.completionQueue = h.taken.drop (ctx.invoked.length - h.start) ++ (h.since ++ new)
    rw [hqueue, hinvoked, hk, List.append_assoc]

/-- A live state is in line when nothing is lost and the position's facts are known. -/
theorem InLine.of_whole {d : Dispatch K n} (hothers : ∀ u, u ≠ r → (d.ctx.threads u).pc = .out)
    (hwhole : d.pushed = d.ctx.invoked ++
      (((d.ctx.threads r).pc.inflight ++ (d.ctx.threads r).batch) ++ d.ctx.completionQueue))
    (hknown : d.Known (d.ctx.threads r)) : InLine r d :=
  ⟨hothers, ⟨_, hwhole.symm⟩, fun _ => hwhole, hknown⟩

/-- The same after a step that pushes nothing. -/
theorem InLine.of_advance (hothers : ∀ u, u ≠ r → (ctx.threads u).pc = .out)
    (hwhole : h.pushed = ctx.invoked ++
      (((ctx.threads r).pc.inflight ++ (ctx.threads r).batch) ++ ctx.completionQueue))
    (hknown : (h.advance ctx []).Known (ctx.threads r)) : InLine r (h.advance ctx []) :=
  .of_whole hothers ((List.append_nil _).trans hwhole) hknown

/-- A step that pushes, and moves the runner within its phase. -/
theorem InLine.push (hin : InLine r h) (hlive : h.ctx.destroyed = false)
    {new : List AnyAsyncOperation} (hothers : ∀ u, u ≠ r → (ctx.threads u).pc = .out)
    (hinvoked : ctx.invoked = h.ctx.invoked)
    (hqueue : ctx.completionQueue = h.ctx.completionQueue ++ new)
    (hgoes : Goes (h.ctx.threads r) (ctx.threads r)) : InLine r (h.advance ctx new) := by
  refine .of_whole hothers ?_ (hin.known.push hgoes hinvoked hqueue)
  show h.pushed ++ new = ctx.invoked ++
    (((ctx.threads r).pc.inflight ++ (ctx.threads r).batch) ++ ctx.completionQueue)
  rw [hin.whole hlive, hinvoked, hgoes.rest, hqueue]
  simp only [List.append_assoc]

/-- A step that posts nothing adds nothing to the line. -/
theorem posts_eq_nil {s s' : ContextThread K n} (hposted : s'.sched.posted = s.sched.posted) :
    posts s s' = [] := by
  simp [posts, hposted]

/-- What a step posts joins the line in the order of the posts. -/
theorem posts_eq {s s' : ContextThread K n} {ops : List AsyncIoOperation}
    (hposted : s'.sched.posted = s.sched.posted ++ ops) : posts s s' = ops.map .io := by
  simp [posts, hposted]

/-- The scheduler posted nothing. -/
theorem InLine.of_quiet (hposted : ctx.sched.posted = h.ctx.sched.posted)
    (hin : InLine r (h.advance ctx [])) : InLine r (h.advance ctx (posts h.ctx ctx)) := by
  rw [posts_eq_nil hposted]
  exact hin

/-- A step that pushes nothing, and moves the runner within its phase. -/
theorem InLine.quiet (hin : InLine r h) (hlive : h.ctx.destroyed = false)
    (hothers : ∀ u, u ≠ r → (ctx.threads u).pc = .out) (hinvoked : ctx.invoked = h.ctx.invoked)
    (hqueue : ctx.completionQueue = h.ctx.completionQueue)
    (hposted : ctx.sched.posted = h.ctx.sched.posted)
    (hgoes : Goes (h.ctx.threads r) (ctx.threads r)) :
    InLine r (h.advance ctx (posts h.ctx ctx)) :=
  .of_quiet hposted
    (hin.push hlive hothers hinvoked (by rw [hqueue, List.append_nil]) hgoes)

/-! ### Steps of the runner -/

/-- The runner's thread is updated. -/
theorem Goes.mapThread {s : ContextThread K n} {th : Thread} {f : Thread → Thread}
    (hgoes : Goes th (f (s.threads r))) : Goes th ((s.mapThread r f).threads r) := by
  rw [ContextThread.mapThread_threads, if_pos rfl]
  exact hgoes

/-- The runner goes on within its phase. -/
theorem Goes.goto {s : ContextThread K n} {th : Thread} {pc : Pc} (hth : s.threads r = th)
    (hphase : pc.phase = th.pc.phase) (hinflight : pc.inflight = th.pc.inflight) :
    Goes th ((s.goto r pc).threads r) := by
  refine Goes.mapThread (f := fun th => { th with pc := pc }) ⟨hphase, ?_, by rw [hth]⟩
  dsimp only
  rw [hinflight, hth]

/-- A thread that is not asleep does not notice a notification. -/
theorem notifyAll_threads {s : ContextThread K n} {u : Fin n} (hpc : (s.threads u).pc ≠ .asleep) :
    s.notifyAll.threads u = s.threads u := if_neg hpc

/-- An operation that enters the queue moves no thread but a sleeping one. -/
theorem enqueue_threads {s : ContextThread K n} {u : Fin n} {ops : List AsyncIoOperation}
    (hpc : (s.threads u).pc ≠ .asleep) : (s.enqueue ops).threads u = s.threads u := by
  unfold ContextThread.enqueue
  split
  · rfl
  · exact notifyAll_threads hpc

/-- A critical section of `poll_once` that pushes what the scheduler posts. -/
theorem InLine.poll (hin : InLine r h) (hlive : h.ctx.destroyed = false) {sched : Sched K}
    {ops : List AsyncIoOperation} (hposted : sched.posted = h.ctx.sched.posted ++ ops) {pc : Pc}
    (hothers : ∀ u, u ≠ r →
      (((({ h.ctx with sched := sched }).enqueue ops).goto r pc).threads u).pc = .out)
    (hawake : (h.ctx.threads r).pc ≠ .asleep)
    (hphase : pc.phase = (h.ctx.threads r).pc.phase)
    (hinflight : pc.inflight = (h.ctx.threads r).pc.inflight) :
    InLine r (h.advance ((({ h.ctx with sched := sched }).enqueue ops).goto r pc)
      (posts h.ctx ((({ h.ctx with sched := sched }).enqueue ops).goto r pc))) := by
  -- what the scheduler has posted since is what the section enqueued
  have hposts : posts h.ctx ((({ h.ctx with sched := sched }).enqueue ops).goto r pc)
      = ops.map .io := by
    apply posts_eq
    show (({ h.ctx with sched := sched }).enqueue ops).sched.posted = _
    rw [ContextThread.enqueue_sched]
    exact hposted
  rw [hposts]
  refine hin.push hlive hothers ?_ (ContextThread.enqueue_completionQueue _ ops)
    (.goto ?_ hphase hinflight)
  · show (({ h.ctx with sched := sched }).enqueue ops).log.filterMap _ = _
    rw [ContextThread.enqueue_log]
    rfl
  · exact enqueue_threads (s := { h.ctx with sched := sched }) hawake

/-- The runner takes the whole queue. -/
theorem take_inLine (hplace : h.ctx.PlaceInv) (hlive : h.ctx.destroyed = false) (hin : InLine r h)
    (hpc : (h.ctx.threads r).pc = .takeQueue)
    (hothers : ∀ u, u ≠ r → (ctx.threads u).pc = .out)
    (hctx : ctx = ({ h.ctx with completionQueue := [] }).mapThread r (fun th =>
      { th with pc := .drain, batch := h.ctx.completionQueue, numProcessedOnce := 0 })) :
    InLine r (h.record (.thread r .take) ctx) := by
  have hwhole := hin.whole hlive
  -- at the `splice` the thread has nothing in hand, so the line is what is in the queue
  rw [hplace.batch_nil (by rw [hpc]; rfl), hpc] at hwhole
  have hth : ctx.threads r
      = { h.ctx.threads r with
          pc := .drain, batch := h.ctx.completionQueue, numProcessedOnce := 0 } := by
    rw [hctx, ContextThread.mapThread_threads, if_pos rfl]
  have hinvoked : ctx.invoked = h.ctx.invoked := by rw [hctx]; rfl
  have hqueue : ctx.completionQueue = [] := by rw [hctx]; rfl
  refine .of_whole hothers ?_ ?_
  · show h.pushed = ctx.invoked ++ (((ctx.threads r).pc.inflight ++ (ctx.threads r).batch)
      ++ ctx.completionQueue)
    rw [hth, hinvoked, hqueue, hwhole]
    simp [Pc.inflight]
  · show Known _ (ctx.threads r)
    rw [hth]
    refine ⟨⟨?_, ?_, hqueue⟩, ?_⟩
    · show h.ctx.invoked.length ≤ ctx.invoked.length
      rw [hinvoked]
    · show [] ++ h.ctx.completionQueue
        = h.ctx.completionQueue.drop (ctx.invoked.length - h.ctx.invoked.length)
      rw [hinvoked, Nat.sub_self]
      rfl
    · show h.ctx.invoked.length + 0 = ctx.invoked.length
      rw [hinvoked]
      rfl

/-- The operation taken from the batch is dispatched. -/
theorem invoke_inLine (hlive : h.ctx.destroyed = false) (hin : InLine r h) {op : AnyAsyncOperation}
    {result : Option IoResult} (hpc : (h.ctx.threads r).pc = .invoke op)
    (hothers : ∀ u, u ≠ r → (ctx.threads u).pc = .out)
    (hctx : ctx = ({ h.ctx with log := h.ctx.log ++ [Consumption.invoked op result] }).goto r
      (.handler op)) :
    InLine r (h.advance ctx []) := by
  have hwhole := hin.whole hlive
  have hknown := hin.known
  unfold Known at hknown
  rw [hpc] at hwhole hknown
  obtain ⟨hb, hcount⟩ := hknown
  have hth : ctx.threads r = { h.ctx.threads r with pc := .handler op } := by
    rw [hctx, ContextThread.goto, ContextThread.mapThread_threads, if_pos rfl]
  have hinvoked : ctx.invoked = h.ctx.invoked ++ [op] := by
    rw [hctx]
    exact ContextThread.invoked_append h.ctx [.invoked op result]
  have hqueue : ctx.completionQueue = h.ctx.completionQueue := by rw [hctx]; rfl
  -- the operation is the first of what is left of the batch
  have hrest : op :: (h.ctx.threads r).batch
      = h.taken.drop (h.ctx.invoked.length - h.start) := by
    have hrest := hb.rest
    rw [hpc] at hrest
    exact hrest
  refine .of_advance hothers ?_ ?_
  · rw [hth, hinvoked, hqueue, hwhole]
    simp [Pc.inflight]
  · rw [hth]
    have hlen : ctx.invoked.length = h.ctx.invoked.length + 1 := by rw [hinvoked]; simp
    refine ⟨⟨?_, ?_, ?_⟩, ?_⟩
    · show h.start ≤ ctx.invoked.length
      have := hb.start
      omega
    · show [] ++ (h.ctx.threads r).batch = h.taken.drop (ctx.invoked.length - h.start)
      have hsub : ctx.invoked.length - h.start = (h.ctx.invoked.length - h.start) + 1 := by
        have := hb.start
        omega
      rw [hsub, ← List.drop_drop, ← hrest]
      rfl
    · show ctx.completionQueue = h.since ++ []
      rw [hqueue, List.append_nil]
      exact hb.queue
    · show h.start + (h.ctx.threads r).numProcessedOnce + 1 = ctx.invoked.length
      rw [hlen, hcount]

/-- The guard puts the rest of the batch in front of the queue. -/
theorem putBack_inLine (hlive : h.ctx.destroyed = false) (hin : InLine r h)
    (hpc : (h.ctx.threads r).pc = .putBack) (hothers : ∀ u, u ≠ r → (ctx.threads u).pc = .out)
    (hth : ctx.threads r = { h.ctx.threads r with pc := .guardNotify true, batch := [] })
    (hlog : ctx.log = h.ctx.log)
    (hqueue : ctx.completionQueue = (h.ctx.threads r).batch ++ h.ctx.completionQueue) :
    InLine r (h.advance ctx []) := by
  have hwhole := hin.whole hlive
  have hknown := hin.known
  unfold Known at hknown
  rw [hpc] at hwhole hknown
  have hb : h.InBatch (h.ctx.threads r) := hknown
  have hrest : (h.ctx.threads r).batch = h.taken.drop (h.ctx.invoked.length - h.start) := by
    have hrest := hb.rest
    rw [hpc] at hrest
    exact hrest
  -- the guard puts the rest of the batch in front of what was posted since
  have hinvoked : ctx.invoked = h.ctx.invoked := by rw [ContextThread.invoked, hlog]; rfl
  refine .of_advance hothers ?_ ?_
  · rw [hth, hinvoked, hqueue, hwhole]
    simp [Pc.inflight]
  · rw [hth]
    show ctx.completionQueue = h.taken.drop (ctx.invoked.length - h.start) ++ (h.since ++ [])
    rw [hqueue, hinvoked, hrest, hb.queue, List.append_nil]

/-- A step of the runner that changes nothing but its phase. -/
theorem InLine.shift (hin : InLine r h) (hlive : h.ctx.destroyed = false)
    (hothers : ∀ u, u ≠ r → (ctx.threads u).pc = .out) (hinvoked : ctx.invoked = h.ctx.invoked)
    (hqueue : ctx.completionQueue = h.ctx.completionQueue)
    (hrest : (ctx.threads r).pc.inflight ++ (ctx.threads r).batch
      = (h.ctx.threads r).pc.inflight ++ (h.ctx.threads r).batch)
    (hknown : (h.advance ctx []).Known (ctx.threads r)) : InLine r (h.advance ctx []) := by
  refine .of_advance hothers ?_ hknown
  rw [hrest, hinvoked, hqueue]
  exact hin.whole hlive

/-- The steps of the runner. -/
theorem run_inLine (hres : h.ctx.ResultInv) (hplace : h.ctx.PlaceInv)
    (hlive : h.ctx.destroyed = false) (hin : InLine r h) {a : Act}
    (hs : ContextThread.RunStep M h.ctx r a ctx) : InLine r (h.record (.thread r a) ctx) := by
  have hothers : ∀ u, u ≠ r → (ctx.threads u).pc = .out := by
    intro u hu
    -- another thread could only have been woken, and none is asleep
    rcases hs.frame.others u hu with heq | ⟨heq, -⟩
    · rw [heq]
      exact hin.others u hu
    · rw [hin.others u hu] at heq
      exact absurd heq (by simp)
  have hknown := hin.known
  unfold Known at hknown
  cases hs with
  | take hpc hfree => exact take_inLine hplace hlive hin hpc hothers rfl
  | enterRun hpc | enterRunOnce hpc =>
    refine hin.quiet hlive hothers rfl rfl rfl (.mapThread ⟨?_, ?_, rfl⟩) <;> rw [hpc] <;> rfl
  | loop hpc =>
    refine hin.quiet hlive hothers rfl rfl rfl (.goto rfl ?_ ?_) <;> rw [hpc] <;> split <;> rfl
  | checkScheduler hpc =>
    refine hin.quiet hlive hothers rfl rfl rfl (.goto rfl ?_ ?_) <;> rw [hpc] <;> split <;> rfl
  | testWait hpc | testGo hpc | evaluateTrue hpc | evaluateFalse hpc | sleep hpc | spuriousWake hpc
  | relock hpc | readMore hpc | announce hpc | epollReturn hpc | epollFail hpc | retire hpc
  | exitWake hpc =>
    refine hin.quiet hlive hothers rfl rfl rfl (.goto rfl ?_ ?_) <;> rw [hpc] <;> rfl
  | drained hpc hbatch =>
    refine hin.quiet hlive hothers rfl rfl rfl (.goto rfl ?_ ?_) <;> rw [hpc] <;> rfl
  -- the operation is in the hands of the thread now, still at the head of the line
  | @popFront op rest hpc hbatch =>
    refine hin.quiet hlive hothers ?_ rfl rfl (.mapThread ⟨?_, ?_, rfl⟩)
    · exact (ContextThread.invoked_append h.ctx [.released op]).trans (List.append_nil _)
    · rw [hpc]
      rfl
    · rw [hpc, hbatch]
      rfl
  | invoke hpc hdeliver =>
    refine InLine.of_quiet rfl ?_
    exact invoke_inLine hlive hin hpc hothers rfl
  | handlerReturn hpc =>
    refine InLine.of_quiet rfl ?_
    -- one more handler has returned, and is counted
    rw [hpc] at hknown
    obtain ⟨hb, hcount⟩ := hknown
    have hrest : ∀ th : Thread, th.pc = .drain → th.batch = (h.ctx.threads r).batch →
        th.pc.inflight ++ th.batch = (h.ctx.threads r).pc.inflight ++ (h.ctx.threads r).batch := by
      intro th hth hbatch
      rw [hth, hbatch, hpc]
      rfl
    refine hin.shift hlive hothers rfl rfl ?_ ?_ <;>
      rw [ContextThread.mapThread_threads, if_pos rfl]
    · exact hrest _ rfl rfl
    · refine ⟨InBatch.push hb ?_ rfl (List.append_nil _).symm, ?_⟩
      · exact hrest _ rfl rfl
      · show h.start + ((h.ctx.threads r).numProcessedOnce + 1) = h.ctx.invoked.length
        omega
  | handlerThrow hpc | retireThrow hpc =>
    refine InLine.of_quiet rfl ?_
    -- the operation that threw was invoked; the rest stays in the batch
    rw [hpc] at hknown
    have hrest : ∀ th : Thread, th.pc = .putBack → th.batch = (h.ctx.threads r).batch →
        th.pc.inflight ++ th.batch = (h.ctx.threads r).pc.inflight ++ (h.ctx.threads r).batch := by
      intro th hth hbatch
      rw [hth, hbatch, hpc]
      rfl
    refine hin.shift hlive hothers rfl rfl ?_ ?_ <;>
      rw [ContextThread.goto, ContextThread.mapThread_threads, if_pos rfl]
    · exact hrest _ rfl rfl
    · refine InBatch.push hknown.1 ?_ rfl (List.append_nil _).symm
      exact hrest _ rfl rfl
  | @pollCancel block sched p hpc hfree hpoll hpost =>
    refine hin.poll hlive (Sched.pollCancellations_extends hpoll).2.1 hothers (by simp [hpc])
        ?_ ?_ <;>
      rw [hpc] <;> split <;> rfl
  | @notifications block events sched n hpc hfree hpoll hpost =>
    refine hin.poll hlive (Sched.pollNotifications_extends (hres.live hlive) hpoll).2.1 hothers
      (by simp [hpc]) ?_ ?_ <;> rw [hpc] <;> split <;> rfl
  | putBackNone hpc hbatch =>
    refine InLine.of_quiet rfl ?_
    refine putBack_inLine hlive hin hpc hothers ?_ rfl (by rw [hbatch]; rfl)
    rw [ContextThread.goto, ContextThread.mapThread_threads, if_pos rfl, ← hbatch]
  | putBack hpc hfree =>
    refine InLine.of_quiet rfl ?_
    refine putBack_inLine hlive hin hpc hothers ?_ rfl rfl
    rw [ContextThread.mapThread_threads, if_pos rfl]
  | @guardNotify thrown hpc =>
    refine InLine.of_quiet rfl ?_
    refine hin.shift hlive hothers rfl rfl ?_ ?_ <;>
      rw [ContextThread.mapThread_threads, if_pos rfl, notifyAll_threads (by simp [hpc])]
    · dsimp only
      rw [hpc]
      split <;> rfl
    · unfold Known
      dsimp only
      split
      · trivial
      all_goals
        rename_i hphase
        split at hphase <;> exact absurd hphase (by simp [Pc.phase])
  | exitNotify hpc =>
    refine hin.quiet hlive hothers rfl rfl rfl (.goto (notifyAll_threads (by simp [hpc])) ?_ ?_) <;>
      rw [hpc] <;> rfl

/-! ### Other steps -/

/-- Calls push at most what `post` is given. -/
theorem call_inLine (hlive : h.ctx.destroyed = false) (hin : InLine r h) {t : Fin n} {a : Act}
    (hs : ContextThread.CallStep M h.ctx t a ctx) : InLine r (h.record (.thread t a) ctx) := by
  have hothers : ∀ u, u ≠ r → (ctx.threads u).pc = .out := by
    intro u hu
    rw [hs.frame.1]
    exact hin.others u hu
  -- the rest of a call is all that changes in a thread
  have hcall : ∀ (s : ContextThread K n) (c : Call), s.threads = h.ctx.threads →
      Goes (h.ctx.threads r) ((s.setCall t c).threads r) := by
    intro s c hth
    rw [ContextThread.setCall, ContextThread.mapThread_threads, hth]
    split
    · exact ⟨rfl, rfl, rfl⟩
    · exact .refl _
  cases hs with
  | post hfree hnew => exact hin.push hlive hothers rfl rfl (hcall _ _ rfl)
  | schedule hfree hnew hsched =>
    obtain ⟨io, -, rfl⟩ := Sched.schedule_cases hsched
    exact hin.quiet hlive hothers rfl rfl rfl (hcall _ _ rfl)
  | cancel hfree hcancel =>
    obtain ⟨io, -, rfl⟩ := Sched.cancel_cases hcancel
    exact hin.quiet hlive hothers rfl rfl rfl (hcall _ _ rfl)
  | cancelNothing hcancel =>
    obtain ⟨io, -, rfl⟩ := Sched.cancel_cases hcancel
    exact hin.quiet hlive hothers rfl rfl rfl (.refl _)
  | latchWork => exact hin.quiet hlive hothers rfl rfl rfl (.refl _)
  | releaseWork hpos => exact hin.quiet hlive hothers rfl rfl rfl (hcall _ _ rfl)

/-- A notification moves the runner within its phase. -/
theorem Goes.notifyAll (s : ContextThread K n) : Goes (s.threads r) (s.notifyAll.threads r) := by
  by_cases hpc : (s.threads r).pc = .asleep
  · have hth : s.notifyAll.threads r = { s.threads r with pc := .woken } := if_pos hpc
    rw [hth]
    exact ⟨by rw [hpc]; rfl, by rw [hpc]; rfl, rfl⟩
  · rw [notifyAll_threads hpc]
    exact .refl _

/-- The rest of a call moves nothing in the line. -/
theorem rest_inLine (hlive : h.ctx.destroyed = false) (hin : InLine r h) {t : Fin n} {a : Act}
    (hs : ContextThread.CallRest h.ctx t a ctx) : InLine r (h.record (.thread t a) ctx) := by
  have hothers : ∀ u, u ≠ r → (ctx.threads u).pc = .out := by
    intro u hu
    rcases hs.frame.2.1 u with heq | ⟨heq, -⟩
    · rw [heq]
      exact hin.others u hu
    · rw [hin.others u hu] at heq
      exact absurd heq (by simp)
  -- a call keeps the thread's place
  have hcall : ∀ (s : ContextThread K n) (c : Call), Goes (h.ctx.threads r) (s.threads r) →
      Goes (h.ctx.threads r) ((s.setCall t c).threads r) := by
    intro s c hth
    rw [ContextThread.setCall, ContextThread.mapThread_threads]
    split
    · exact ⟨hth.phase, hth.rest, hth.count⟩
    · exact hth
  cases hs with
  | postWake | cancelWake | releaseWake =>
    exact hin.quiet hlive hothers rfl rfl rfl (hcall _ _ (.refl _))
  | postNotify | scheduleNotify | cancelNotify =>
    refine hin.quiet hlive hothers rfl rfl rfl (hcall _ _ ?_)
    exact Goes.notifyAll _
  | releaseNotify => exact hin.quiet hlive hothers rfl rfl rfl (hcall _ _ (.notifyAll _))

/-- **The step lemma** for the line of one driving thread. -/
theorem step_inLine (hres : h.ctx.ResultInv) (hplace : h.ctx.PlaceInv) (hin : InLine r h)
    {l : Label K n} (hok : Drives r h l) (hs : ContextThread.Step M h.ctx l ctx) :
    InLine r (h.record l ctx) := by
  cases hs with
  | @run t a _ hlive hcall hs =>
    by_cases ht : t = r
    · subst ht
      exact run_inLine hres hplace hlive hin hs
    · -- the other threads are outside, and stay there
      exact absurd (hok (hs.enters (hin.others t ht))) ht
  | call hlive hcall huser hs => exact call_inLine hlive hin hs
  | rest hlive hs => exact rest_inLine hlive hin hs
  | destroy hlive hout =>
    refine .of_quiet rfl ⟨hin.others, ?_,
      fun hd => absurd hd (by simp [advance, ContextThread.destroy]), ?_⟩
    · show h.ctx.destroy.invoked <+: h.pushed ++ []
      rw [ContextThread.destroy_invoked, List.append_nil]
      exact hin.dispatched
    · show Known _ (h.ctx.threads r)
      unfold Known
      rw [(hout r).1]
      trivial
  | kernel | forget =>
    refine .of_quiet rfl ⟨hin.others, ?_, fun hd => ?_, ?_⟩
    · show h.ctx.invoked <+: h.pushed ++ []
      rw [List.append_nil]
      exact hin.dispatched
    · show h.pushed ++ [] = _
      rw [List.append_nil]
      exact hin.whole hd
    · exact hin.known.push (.refl _) rfl (List.append_nil _).symm

/-! ### Runs -/

/-- **Dispatch is in order, and survives exceptions.**  In every run in which one thread drives
    the context (and any threads post, schedule and cancel), the operations dispatched so far
    are a prefix of those pushed; when an exception has left `run_once` and the guard has run,
    the queue is the part of the batch that was not dispatched, followed by what was pushed
    since the batch was taken; and when `run_once` returns, its count is the number of
    operations it dispatched. -/
theorem dispatch_in_order (hr : Reach M r h) :
    h.ctx.invoked <+: h.pushed ∧
    ((h.ctx.threads r).pc = .guardNotify true →
      h.ctx.completionQueue = h.taken.drop (h.ctx.invoked.length - h.start) ++ h.since) ∧
    ((h.ctx.threads r).pc = .guardNotify false →
      (h.ctx.threads r).numProcessedOnce = h.ctx.invoked.length - h.start) := by
  have hall : h.ctx.ResultInv ∧ h.ctx.PlaceInv ∧ InLine r h := by
    refine Transition.Reach.invariant
      (fun h => h.ctx.ResultInv ∧ h.ctx.PlaceInv ∧ InLine r h) ?_ ?_ hr
    · exact fun h hi =>
        ⟨ContextThread.init_resultInv hi.1, ContextThread.init_placeInv hi.1, init_inLine hi⟩
    · rintro h l h' ⟨hres, hplace, hin⟩ hok hs
      obtain ⟨ctx, hctx, rfl⟩ := Option.map_eq_some_iff.mp hs
      have hs' := ContextThread.next_cases hctx
      -- the record is beside the step, not in it
      have hrec : (h.record l ctx).ctx = ctx := by
        unfold record
        split <;> rfl
      rw [hrec]
      exact ⟨ContextThread.step_resultInv hres hs', ContextThread.step_placeInv hres hplace hs',
        step_inLine hres hplace hin hok hs'⟩
  obtain ⟨-, -, hin⟩ := hall
  have hknown := hin.known
  unfold Known at hknown
  refine ⟨hin.dispatched, fun hpc => ?_, fun hpc => ?_⟩
  · rw [hpc] at hknown
    exact hknown
  · rw [hpc] at hknown
    -- every operation of the batch was invoked and counted
    have hcount := hknown.2
    omega

/-- Three completions are posted; the handler of the second posts another and throws; the first
    run of the guard leaves the third and the new one, and the next `run_once` dispatches both
    and returns 2. -/
theorem dispatch_in_order_after_throw :
    ∃ h : Dispatch Unit 1, (h.ctx.threads 0).pc = .guardNotify false ∧
      h.ctx.invoked = [.plain 1, .plain 2, .plain 3, .plain 4] ∧ h.ctx.invoked <+: h.pushed ∧
      (h.ctx.threads 0).numProcessedOnce = h.ctx.invoked.length - h.start ∧ h.start = 2 := by
  have hrun : ∃ h, Reach quietKernel 0 h ∧ decide ((h.ctx.threads 0).pc = .guardNotify false ∧
      h.ctx.invoked = [.plain 1, .plain 2, .plain 3, .plain 4] ∧ h.start = 2) = true :=
    Transition.exists_reach (s := ⟨ContextThread.quietContext 1, [], [], 0, []⟩)
      ⟨ContextThread.quietContext_init 1, rfl⟩
      ([.post 1, .callWake, .callNotify, .post 2, .callWake, .callNotify,
        .post 3, .callWake, .callNotify,
        .enterRunOnce, .take, .drain, .invoke, .handlerReturn, .drain, .invoke,
        .post 4, .callWake, .callNotify, .handlerThrow, .putBack, .guardNotify,
        .enterRunOnce, .take, .drain, .invoke, .handlerReturn, .drain, .invoke, .handlerReturn,
        .drain, .readMore, .checkScheduler].map (Label.thread 0)) _ (by decide)
  obtain ⟨h, hh, hend⟩ := hrun
  obtain ⟨hpc, hinvoked, hstart⟩ := of_decide_eq_true hend
  have horder := dispatch_in_order hh
  exact ⟨h, hpc, hinvoked, horder.1, horder.2.2 hpc, hstart⟩

end Dispatch

end Exios
