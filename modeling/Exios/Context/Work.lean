import Exios.Base.Tokens
import Exios.Context.Places

namespace Exios

/-!
# Context — `Work` and the count of remaining work

`remaining_count_` is raised by the constructor of `Work` and lowered once for each `Work` that
is still active, by `reset` or by the destructor.  The system `Works` runs a context together
with the `Work` objects of a program, at the places where they live: variables of the program,
the closure that `wrap_work` returns, the closure inside an operation, and the closure that
`dispatch` has moved into its frame.

* `Works.step` — constructions, moves, resets and destructions of `Work` objects by any thread,
  interleaved with the steps of the context; `latch_work` and `release_work` are called by `Work`
  only;
* `Step.sameDispatch`, `Step.remainingCount` — what the other steps of the context leave alone;
* `work_cases` — a step of the system is an instance of `WorkStep`.

A `Work` counts as active until the decrement of its `release_work`: the flag `active_` is
cleared when that call returns, and nothing reads it in between.
-/

/-- Where a `Work` object lives. -/
inductive WorkPlace (n : Nat)
  /-- A variable of the program, of any kind. -/
  | object (addr : Nat)
  /-- The closure that `wrap_work` has returned to a thread, not yet moved into an operation. -/
  | temporary (t : Fin n)
  /-- The closure of an operation.  Slot 0 is the `work` of the outermost `wrap_work`; the other
      slots are captured by the function that it wraps, as in a completion wrapped twice. -/
  | operation (op : AnyAsyncOperation) (slot : Nat)
  /-- The closure in the frame of `dispatch`, with the same slots. -/
  | frame (t : Fin n) (slot : Nat)
deriving DecidableEq

/-- The operation whose closure `dispatch` has moved into the thread's frame. -/
def Pc.dispatching : Pc → Option AnyAsyncOperation
  | .invoke op => some op
  | .handler op => some op
  | _ => none

/-- A context with the `Work` objects of its program, and their history. -/
structure Works (K : Type) (n : Nat) where
  ctx : ContextThread K n
  works : Tokens (WorkPlace n)
  /-- Operations created by `post(F)` or by an asynchronous method, oldest first. -/
  made : List AnyAsyncOperation
  /-- The handler that the thread was running has returned or thrown; the frame of `dispatch` is
      being left. -/
  ended : Fin n → Bool
  /-- Operations whose handler has returned or thrown, oldest first. -/
  finished : List AnyAsyncOperation
  /-- Operations discarded by the destructor. -/
  discarded : List AnyAsyncOperation

/-- The labels of a run. -/
inductive WorkAct (K : Type) (n : Nat)
  /-- A step of the context. -/
  | ctx (l : Label K n)
  /-- `wrap_work` constructs its closure. -/
  | wrapWork (t : Fin n)
  /-- `make_async_operation` and `make_async_io_operation`: the closure of `wrap_work` is moved
      into the new operation, and the moved-from one is destroyed. -/
  | makeAsyncOperation (t : Fin n) (op : AnyAsyncOperation)
  | construct (t : Fin n) (p : WorkPlace n)
  | move (t : Fin n) (p q : WorkPlace n)
  | reset (t : Fin n) (p : WorkPlace n)
  | destroy (t : Fin n) (p : WorkPlace n)
  /-- The handler returns or throws. -/
  | handlerEnd (t : Fin n)

/-- `release_work`, called once for each of `k` destroyed objects. -/
def releaseAll : Nat → Nat → Except Contract Nat
  | 0, count => .ok count
  | k + 1, count => if 0 < count then releaseAll k (count - 1) else .error .releaseWithoutWork

/-- `dispatch` moves the closure of the operation into its frame, slot by slot. -/
def moveOut {n : Nat} (op : AnyAsyncOperation) (t : Fin n) : WorkPlace n → WorkPlace n
  | .operation x i => if x = op then .frame t i else .operation x i
  | .frame u i => if u = t then .operation op i else .frame u i
  | p => p

/-- Moving an operation's closure into the frame and back again is doing nothing. -/
theorem moveOut_involutive {n : Nat} (op : AnyAsyncOperation) (t : Fin n) :
    Function.Involutive (moveOut op t) := by
  intro p
  cases p with
  | object | temporary => rfl
  | operation x i =>
    by_cases hx : x = op
    · simp [moveOut, hx]
    · simp [moveOut, hx]
  | frame u i =>
    by_cases hu : u = t
    · simp [moveOut, hu]
    · simp [moveOut, hu]

/-- Where the `Work` objects are once `dispatch` has moved the closure. -/
theorem mem_active_moveOut {n : Nat} {T : Tokens (WorkPlace n)} {op : AnyAsyncOperation}
    {t : Fin n} {p : WorkPlace n} :
    p ∈ (T.relocate (moveOut_involutive op t).toPerm).active ↔ moveOut op t p ∈ T.active :=
  Tokens.mem_active_relocate

/-- What is alive after the move was alive at the place it came from. -/
theorem mem_live_moveOut {n : Nat} {T : Tokens (WorkPlace n)} {op : AnyAsyncOperation}
    {t : Fin n} {p : WorkPlace n} :
    p ∈ (T.relocate (moveOut_involutive op t).toPerm).live ↔ moveOut op t p ∈ T.live :=
  Tokens.mem_live_relocate

/-- The place is in the closure of one of the operations. -/
def WorkPlace.inside {n : Nat} (ops : List AnyAsyncOperation) : WorkPlace n → Bool
  | .operation op _ => decide (op ∈ ops)
  | _ => false

/-- The place is in the frame of `dispatch` of the thread. -/
def WorkPlace.inFrame {n : Nat} (t : Fin n) : WorkPlace n → Bool
  | .frame u _ => decide (u = t)
  | _ => false

namespace Works

variable {K : Type} {n : Nat}

/-- A run starts with a constructed context and no `Work`. -/
def Init (s : Works K n) : Prop :=
  ContextThread.Init s.ctx ∧ s = ⟨s.ctx, .empty, [], fun _ => false, [], []⟩

/-- The thread runs code of the program, and not a call of the context. -/
def inUser (s : Works K n) (t : Fin n) : Prop :=
  (s.ctx.threads t).call = .none ∧ (s.ctx.threads t).pc.isUser = true

instance (s : Works K n) (t : Fin n) : Decidable (s.inUser t) :=
  inferInstanceAs (Decidable (_ ∧ _))

/-- The `Work` objects that the program can name: its own variables, those captured by a function
    that is not handed to the context yet, and, in a handler, those captured by the handler.  The
    `work` of `wrap_work` is not among them. -/
def accessible (s : Works K n) (t : Fin n) : WorkPlace n → Bool
  | .object _ => true
  | .temporary _ => false
  | .operation op i => decide (0 < i ∧ op ∉ s.ctx.handed)
  | .frame u i => decide (u = t ∧ 0 < i ∧ (s.ctx.threads t).pc.dispatching.isSome)

/-- The objects that a thread can destroy: also the closure of `wrap_work`, when the allocation of
    the operation throws, and the rest of the closure in the frame, when the handler has ended. -/
def destructible (s : Works K n) (t : Fin n) : WorkPlace n → Bool
  | .temporary u => decide (u = t)
  | .frame u 0 => decide (u = t ∧ s.ended t = true)
  | p => s.accessible t p

/-- A step of the context, with what else changes in it. -/
def lift (M : Kernel K) (s : Works K n) (l : Label K n) (f : ContextThread K n → Works K n) :
    Option (Except Contract (Works K n)) :=
  (s.ctx.step M l).map (Except.map f)

/-- `Work::reset` of the object at `p`, which leaves the objects `works`. -/
def release (M : Kernel K) (s : Works K n) (t : Fin n) (p : WorkPlace n)
    (works : Tokens (WorkPlace n)) : Option (Except Contract (Works K n)) :=
  if p ∈ s.works.active then
    s.lift M (.thread t .releaseWork) (fun ctx => { s with ctx := ctx, works := works })
  else some (.ok { s with works := works })

/-- What the destructor of the context discards. -/
def leftOver (s : Works K n) : List AnyAsyncOperation :=
  s.ctx.completionQueue ++ s.ctx.sched.io.operations.map AnyAsyncOperation.io

/-- The steps of the context. -/
def ctxStep (M : Kernel K) (s : Works K n) : Label K n → Option (Except Contract (Works K n))
  | .thread _ .latchWork => none
  | .thread _ .releaseWork => none
  | .thread t .drain =>
    s.lift M (.thread t .drain) (fun ctx =>
      match (s.ctx.threads t).batch with
      | [] => { s with ctx := ctx }
      | op :: _ =>
        { s with
          ctx := ctx
          works := s.works.relocate (moveOut_involutive op t).toPerm })
  | .thread t .handlerReturn =>
    -- `dispatch` is left when its closure is destroyed
    if s.ended t = true ∧ ∀ p ∈ s.works.live, p.inFrame t = false then
      s.lift M (.thread t .handlerReturn) (fun ctx =>
        { s with ctx := ctx, ended := Function.update s.ended t false })
    else none
  | .thread t .handlerThrow =>
    if s.ended t = true ∧ ∀ p ∈ s.works.live, p.inFrame t = false then
      s.lift M (.thread t .handlerThrow) (fun ctx =>
        { s with ctx := ctx, ended := Function.update s.ended t false })
    else none
  | .destroy =>
    -- the closures of the discarded operations are destroyed, each `Work` with its own check
    (s.ctx.step M .destroy).map (fun r => r.bind (fun ctx =>
      (releaseAll (s.works.countAt (WorkPlace.inside s.leftOver)) ctx.remainingCount).map
        (fun count =>
          { s with
            ctx := { ctx with remainingCount := count }
            works := s.works.discard (WorkPlace.inside s.leftOver)
            discarded := s.discarded ++ s.leftOver })))
  | l => s.lift M l (fun ctx => { s with ctx := ctx })

/-- One step. -/
def step (M : Kernel K) (s : Works K n) : WorkAct K n → Option (Except Contract (Works K n))
  | .ctx l => s.ctxStep M l
  | .wrapWork t =>
    if .temporary t ∉ s.works.live then
      s.lift M (.thread t .latchWork) (fun ctx =>
        { s with ctx := ctx, works := s.works.construct (.temporary t) })
    else none
  | .makeAsyncOperation t op =>
    if s.inUser t ∧ .temporary t ∈ s.works.live ∧ op ∉ s.made ∧ op ∉ s.ctx.handed then
      some (.ok { s with
        works := (s.works.move (.temporary t) (.operation op 0)).destroy (.temporary t)
        made := s.made ++ [op] })
    else none
  | .construct t p =>
    if s.accessible t p = true ∧ p ∉ s.works.live then
      s.lift M (.thread t .latchWork) (fun ctx =>
        { s with ctx := ctx, works := s.works.construct p })
    else none
  | .move t p q =>
    if s.inUser t ∧ s.accessible t p = true ∧ s.accessible t q = true ∧ p ∈ s.works.live ∧
        q ∉ s.works.live then
      some (.ok { s with works := s.works.move p q })
    else none
  | .reset t p =>
    if s.inUser t ∧ s.accessible t p = true ∧ p ∈ s.works.live then
      s.release M t p (s.works.reset p)
    else none
  | .destroy t p =>
    if s.inUser t ∧ s.destructible t p = true ∧ p ∈ s.works.live then
      s.release M t p (s.works.destroy p)
    else none
  | .handlerEnd t =>
    match (s.ctx.threads t).pc with
    | .handler op =>
      if (s.ctx.threads t).call = .none ∧ s.ended t = false then
        some (.ok { s with
          ended := Function.update s.ended t true
          finished := s.finished ++ [op] })
      else none
    | _ => none

/-- The successor state, when there is one. -/
def next (M : Kernel K) (s : Works K n) (a : WorkAct K n) : Option (Works K n) :=
  (s.step M a).bind Except.toOption

/-- States reached by runs. -/
def Reach (M : Kernel K) : Works K n → Prop :=
  Transition.Reach Init (next M) Transition.always

end Works

/-! ### Steps of the context that leave the closures where they are -/

/-- The steps of the context at which no closure is moved or destroyed and no work is counted. -/
def Label.passes {K : Type} {n : Nat} : Label K n → Bool
  | .thread _ .latchWork | .thread _ .releaseWork | .thread _ .drain | .thread _ .handlerReturn
  | .thread _ .handlerThrow | .destroy => false
  | _ => true

namespace ContextThread

variable {K : Type} {n : Nat} {M : Kernel K} {s s' : ContextThread K n} {t : Fin n}

/-- The same operations are released and being dispatched. -/
structure SameDispatch (s s' : ContextThread K n) : Prop where
  released : s'.released = s.released
  dispatching : ∀ u, (s'.threads u).pc.dispatching = (s.threads u).pc.dispatching

/-- A thread that only wakes up dispatches nothing. -/
theorem dispatching_of_wakes {u : Fin n} (h : (s'.threads u).pc = (s.threads u).pc ∨
    ((s.threads u).pc = .asleep ∧ (s'.threads u).pc = .woken)) :
    (s'.threads u).pc.dispatching = (s.threads u).pc.dispatching := by
  rcases h with heq | ⟨hs, hs'⟩
  · rw [heq]
  · rw [hs, hs']
    rfl

/-- A step that passes the work by takes nothing from a batch and ends no handler. -/
theorem RunStep.sameDispatch {a : Act} (hs : RunStep M s t a s')
    (hl : (Label.thread t a : Label K n).passes = true) : SameDispatch s s' := by
  have hothers : ∀ u, u ≠ t → (s'.threads u).pc.dispatching = (s.threads u).pc.dispatching :=
    fun u hu => dispatching_of_wakes (hs.frame.others u hu)
  -- so the thread itself is left
  have hself : (s'.threads t).pc.dispatching = (s.threads t).pc.dispatching →
      ∀ u, (s'.threads u).pc.dispatching = (s.threads u).pc.dispatching := by
    intro ht u
    by_cases hu : u = t
    · exact hu ▸ ht
    · exact hothers u hu
  cases hs with
  | drained | popFront | handlerReturn | handlerThrow => exact absurd hl (by simp [Label.passes])
  | enterRun hpc | enterRunOnce hpc | take hpc | putBack hpc =>
    refine ⟨rfl, hself ?_⟩
    rw [mapThread_threads, if_pos rfl, hpc]
    rfl
  | loop hpc | checkScheduler hpc =>
    refine ⟨rfl, hself ?_⟩
    rw [goto_pc, if_pos rfl, hpc]
    split <;> rfl
  | testWait hpc | testGo hpc | evaluateTrue hpc | evaluateFalse hpc | sleep hpc | spuriousWake hpc
  | relock hpc | readMore hpc | announce hpc | epollReturn hpc | epollFail hpc | retireThrow hpc
  | retire hpc | putBackNone hpc | exitWake hpc | exitNotify hpc =>
    refine ⟨rfl, hself ?_⟩
    rw [goto_pc, if_pos rfl, hpc]
    rfl
  | @invoke op result hpc hdeliver =>
    refine ⟨?_, hself ?_⟩
    · show ({ s with log := s.log ++ [Consumption.invoked op result] }).released = _
      rw [released_append]
      simp [Consumption.released?]
    · rw [goto_pc, if_pos rfl, hpc]
      rfl
  | pollCancel hpc | notifications hpc =>
    refine ⟨?_, hself ?_⟩
    · rw [released, goto, mapThread, enqueue_log]
      rfl
    · rw [goto_pc, if_pos rfl, hpc]
      split <;> rfl
  | guardNotify hpc =>
    refine ⟨rfl, hself ?_⟩
    rw [mapThread_threads, if_pos rfl, hpc]
    dsimp only
    split <;> rfl

/-- Nor does a call. -/
theorem CallStep.sameDispatch {a : Act} (hs : CallStep M s t a s') : SameDispatch s s' := by
  refine ⟨?_, fun u => by rw [hs.frame.1 u]⟩
  cases hs <;> rfl

/-- Nor does any other step of the context that is not about work. -/
theorem Step.sameDispatch {l : Label K n} (hs : Step M s l s')
    (hl : l.passes = true ∨ ∃ t, l = .thread t .latchWork ∨ l = .thread t .releaseWork) :
    SameDispatch s s' := by
  cases hs with
  | run hlive hcall hs =>
    rcases hl with hl | ⟨t, hl | hl⟩
    · exact hs.sameDispatch hl
    · injection hl with ht ha
      subst ha
      cases hs
    · injection hl with ht ha
      subst ha
      cases hs
  | call hlive hcall huser hs => exact hs.sameDispatch
  | rest hlive hs =>
    refine ⟨?_, fun u => dispatching_of_wakes (hs.frame.2.1 u)⟩
    cases hs <;> rfl
  | destroy => exact absurd hl (by simp [Label.passes])
  | kernel | forget => exact ⟨rfl, fun _ => rfl⟩

/-- No step of a runner touches the count. -/
theorem RunStep.remainingCount {a : Act} (hs : RunStep M s t a s') :
    s'.remainingCount = s.remainingCount := by
  cases hs with
  | pollCancel | notifications => exact enqueue_remainingCount _ _
  | _ => rfl

/-- Only `latch_work` and `release_work` change the count. -/
theorem Step.remainingCount {l : Label K n} (hs : Step M s l s')
    (hlatch : ∀ t, l ≠ .thread t .latchWork) (hrelease : ∀ t, l ≠ .thread t .releaseWork) :
    s'.remainingCount = s.remainingCount := by
  cases hs with
  | run hlive hcall hs => exact hs.remainingCount
  | @call t a s' hlive hcall huser hs =>
    cases hs with
    | latchWork => exact absurd rfl (hlatch t)
    | releaseWork => exact absurd rfl (hrelease t)
    | post | schedule | cancel | cancelNothing => rfl
  | rest hlive hs => cases hs <;> rfl
  | destroy | kernel | forget => rfl

/-- `latch_work` counts one more. -/
theorem Step.latchWork (hs : Step M s (.thread t .latchWork) s') :
    s'.remainingCount = s.remainingCount + 1 := by
  cases hs with
  | run hlive hcall hs => cases hs
  | call hlive hcall huser hs => cases hs; rfl
  | rest hlive hs => cases hs

/-- `release_work` counts one less. -/
theorem Step.releaseWork (hs : Step M s (.thread t .releaseWork) s') :
    s'.remainingCount = s.remainingCount - 1 := by
  cases hs with
  | run hlive hcall hs => cases hs
  | call hlive hcall huser hs => cases hs; rfl
  | rest hlive hs => cases hs

/-- A step of the loop of `drain_list` ends it, or takes the first operation of the batch. -/
theorem Step.drain (hs : Step M s (.thread t .drain) s') :
    (s.threads t).pc = .drain ∧
      (((s.threads t).batch = [] ∧ s' = s.goto t .readMore) ∨
        ∃ op rest, (s.threads t).batch = op :: rest ∧
          s' = ({ s with log := s.log ++ [Consumption.released op] }).mapThread t (fun th =>
            { th with pc := .invoke op, batch := rest })) := by
  cases hs with
  | run hlive hcall hs =>
    cases hs with
    | drained hpc hbatch => exact ⟨hpc, Or.inl ⟨hbatch, rfl⟩⟩
    | popFront hpc hbatch => exact ⟨hpc, Or.inr ⟨_, _, hbatch, rfl⟩⟩
  | call hlive hcall huser hs => cases hs
  | rest hlive hs => cases hs

/-- The end of `drain_list` takes nothing from a batch. -/
theorem Step.drained (hs : Step M s (.thread t .drain) s') (hbatch : (s.threads t).batch = []) :
    SameDispatch s s' := by
  obtain ⟨hpc, ⟨-, rfl⟩ | ⟨op, rest, hcons, -⟩⟩ := hs.drain
  · refine ⟨rfl, fun u => ?_⟩
    rw [goto_pc]
    split
    · rename_i hu
      rw [hu, hpc]
      rfl
    · rfl
  · rw [hbatch] at hcons
    exact absurd hcons (by simp)

/-- When `dispatch` is entered, the thread dispatched nothing before. -/
theorem Step.popFront (hs : Step M s (.thread t .drain) s') {op : AnyAsyncOperation}
    {rest : List AnyAsyncOperation} (hbatch : (s.threads t).batch = op :: rest) :
    (s.threads t).pc.dispatching = none ∧ s'.released = s.released ++ [op] ∧
      ∀ u, (s'.threads u).pc.dispatching
        = if u = t then some op else (s.threads u).pc.dispatching := by
  obtain ⟨hpc, ⟨hnil, -⟩ | ⟨x, xs, hcons, hs'⟩⟩ := hs.drain
  · rw [hbatch] at hnil
    exact absurd hnil (by simp)
  obtain ⟨rfl, rfl⟩ : op = x ∧ rest = xs := by simpa [hbatch] using hcons
  subst hs'
  refine ⟨by rw [hpc]; rfl, released_append s [.released op], fun u => ?_⟩
  rw [mapThread_threads]
  split <;> rfl

/-- When `dispatch` is left, the thread dispatches nothing. -/
theorem Step.leave {a : Act} (hs : Step M s (.thread t a) s')
    (ha : a = .handlerReturn ∨ a = .handlerThrow) :
    s'.released = s.released ∧ ∀ u, (s'.threads u).pc.dispatching
      = if u = t then none else (s.threads u).pc.dispatching := by
  cases hs with
  | run hlive hcall hs =>
    have hothers := hs.frame.others
    have hleft : s'.released = s.released ∧ (s'.threads t).pc.dispatching = none := by
      rcases ha with rfl | rfl
      · cases hs
        refine ⟨rfl, ?_⟩
        rw [mapThread_threads, if_pos rfl]
        rfl
      · cases hs
        refine ⟨rfl, ?_⟩
        rw [goto_pc, if_pos rfl]
        rfl
    refine ⟨hleft.1, fun u => ?_⟩
    by_cases hu : u = t
    · rw [if_pos hu, hu]
      exact hleft.2
    · rw [if_neg hu]
      exact dispatching_of_wakes (hothers u hu)
  | call hlive hcall huser hs => rcases ha with rfl | rfl <;> cases hs
  | rest hlive hs => rcases ha with rfl | rfl <;> cases hs

end ContextThread

namespace Works

open ContextThread (Step)

variable {K : Type} {n : Nat} {M : Kernel K} {s s' : Works K n} {t : Fin n}

/-! ### What a step can do -/

/-- What a thread gives up by `reset` or by the destructor. -/
inductive GivesUp (s : Works K n) (t : Fin n) (p : WorkPlace n) :
    WorkAct K n → Tokens (WorkPlace n) → Prop
  | reset (h : s.accessible t p = true) : GivesUp s t p (.reset t p) (s.works.reset p)
  | destroy (h : s.destructible t p = true) : GivesUp s t p (.destroy t p) (s.works.destroy p)

/-- One step of the system. -/
inductive WorkStep (M : Kernel K) (s : Works K n) : WorkAct K n → Works K n → Prop
  | pass {l : Label K n} {ctx : ContextThread K n} (hl : l.passes = true)
    (h : Step M s.ctx l ctx) : WorkStep M s (.ctx l) { s with ctx := ctx }
  | drained {t : Fin n} {ctx : ContextThread K n} (hbatch : (s.ctx.threads t).batch = [])
    (h : Step M s.ctx (.thread t .drain) ctx) :
    WorkStep M s (.ctx (.thread t .drain)) { s with ctx := ctx }
  | moveOut {t : Fin n} {op : AnyAsyncOperation} {rest : List AnyAsyncOperation}
    {ctx : ContextThread K n} (hbatch : (s.ctx.threads t).batch = op :: rest)
    (h : Step M s.ctx (.thread t .drain) ctx) :
    WorkStep M s (.ctx (.thread t .drain))
      { s with ctx := ctx, works := s.works.relocate (moveOut_involutive op t).toPerm }
  | leave {t : Fin n} {a : Act} {ctx : ContextThread K n}
    (ha : a = .handlerReturn ∨ a = .handlerThrow)
    (hclosed : ∀ p ∈ s.works.live, p.inFrame t = false)
    (hended : s.ended t = true) (h : Step M s.ctx (.thread t a) ctx) :
    WorkStep M s (.ctx (.thread t a))
      { s with ctx := ctx, ended := Function.update s.ended t false }
  | discard {ctx : ContextThread K n} {count : Nat} (h : Step M s.ctx .destroy ctx)
    (hcount : releaseAll (s.works.countAt (WorkPlace.inside s.leftOver)) ctx.remainingCount
      = .ok count) :
    WorkStep M s (.ctx .destroy)
      { s with
        ctx := { ctx with remainingCount := count }
        works := s.works.discard (WorkPlace.inside s.leftOver)
        discarded := s.discarded ++ s.leftOver }
  | wrapWork {t : Fin n} {ctx : ContextThread K n} (hfree : .temporary t ∉ s.works.live)
    (h : Step M s.ctx (.thread t .latchWork) ctx) :
    WorkStep M s (.wrapWork t) { s with ctx := ctx, works := s.works.construct (.temporary t) }
  | makeAsyncOperation {t : Fin n} {op : AnyAsyncOperation} (hlive : .temporary t ∈ s.works.live)
    (hmade : op ∉ s.made) (hhanded : op ∉ s.ctx.handed) :
    WorkStep M s (.makeAsyncOperation t op)
      { s with
        works := (s.works.move (.temporary t) (.operation op 0)).destroy (.temporary t)
        made := s.made ++ [op] }
  | construct {t : Fin n} {p : WorkPlace n} {ctx : ContextThread K n}
    (hp : s.accessible t p = true) (hfree : p ∉ s.works.live)
    (h : Step M s.ctx (.thread t .latchWork) ctx) :
    WorkStep M s (.construct t p) { s with ctx := ctx, works := s.works.construct p }
  | move {t : Fin n} {p q : WorkPlace n} (hp : s.accessible t p = true)
    (hq : s.accessible t q = true) (hfree : q ∉ s.works.live) :
    WorkStep M s (.move t p q) { s with works := s.works.move p q }
  | release {t : Fin n} {p : WorkPlace n} {a : WorkAct K n} {works : Tokens (WorkPlace n)}
    {ctx : ContextThread K n} (hgive : GivesUp s t p a works) (hactive : p ∈ s.works.active)
    (h : Step M s.ctx (.thread t .releaseWork) ctx) :
    WorkStep M s a { s with ctx := ctx, works := works }
  | inactive {t : Fin n} {p : WorkPlace n} {a : WorkAct K n} {works : Tokens (WorkPlace n)}
    (hgive : GivesUp s t p a works) (hinactive : p ∉ s.works.active) :
    WorkStep M s a { s with works := works }
  | handlerEnd {t : Fin n} {op : AnyAsyncOperation} (hpc : (s.ctx.threads t).pc = .handler op) :
    WorkStep M s (.handlerEnd t)
      { s with ended := Function.update s.ended t true, finished := s.finished ++ [op] }

/-- A lifted step is a step of the context. -/
theorem lift_ok {l : Label K n} {f : ContextThread K n → Works K n}
    (h : s.lift M l f = some (.ok s')) : ∃ ctx, Step M s.ctx l ctx ∧ s' = f ctx := by
  unfold lift at h
  rw [Option.map_eq_some_iff] at h
  obtain ⟨r, hr, hok⟩ := h
  cases r with
  | error e => exact absurd hok (by simp [Except.map])
  | ok ctx =>
    refine ⟨ctx, ContextThread.step_cases hr, ?_⟩
    simpa [Except.map, eq_comm] using hok

/-- A lifted step fails only where the context's does. -/
theorem lift_error {l : Label K n} {f : ContextThread K n → Works K n} {c : Contract}
    (h : s.lift M l f = some (.error c)) : s.ctx.step M l = some (.error c) := by
  unfold lift at h
  rw [Option.map_eq_some_iff] at h
  obtain ⟨r, hr, herr⟩ := h
  cases r with
  | error e =>
    rw [hr]
    simpa [Except.map] using herr
  | ok ctx => exact absurd herr (by simp [Except.map])

/-- The labels that pass are the ones that the step function only lifts. -/
theorem ctxStep_passes {l : Label K n} (hl : l.passes = true) :
    s.ctxStep M l = s.lift M l (fun ctx => { s with ctx := ctx }) := by
  cases l with
  | thread t a => cases a <;> first | rfl | exact absurd hl (by simp [Label.passes])
  | destroy => exact absurd hl (by simp [Label.passes])
  | kernel | forget => rfl

/-- A release that passes its check is one of the steps with work. -/
theorem release_cases {p : WorkPlace n} {a : WorkAct K n} {works : Tokens (WorkPlace n)}
    (hgive : GivesUp s t p a works) (h : s.release M t p works = some (.ok s')) :
    WorkStep M s a s' := by
  unfold release at h
  split at h
  · rename_i hactive
    obtain ⟨ctx, hs, rfl⟩ := lift_ok h
    exact .release hgive hactive hs
  · rename_i hinactive
    rw [Option.some.injEq, Except.ok.injEq] at h
    exact h ▸ .inactive hgive hinactive

/-- So is the end of a handler. -/
theorem leave_cases {a : Act} (ha : a = .handlerReturn ∨ a = .handlerThrow)
    (h : (if s.ended t = true ∧ ∀ p ∈ s.works.live, p.inFrame t = false then
      s.lift M (.thread t a) (fun ctx =>
        { s with ctx := ctx, ended := Function.update s.ended t false }) else none)
      = some (.ok s')) : WorkStep M s (.ctx (.thread t a)) s' := by
  rw [Option.ite_none_right_eq_some] at h
  obtain ⟨⟨hended, hclosed⟩, h⟩ := h
  obtain ⟨ctx, hs, rfl⟩ := lift_ok h
  exact .leave ha hclosed hended hs

/-- So is a step of the context alone. -/
theorem ctxStep_cases {l : Label K n} (h : s.ctxStep M l = some (.ok s')) :
    WorkStep M s (.ctx l) s' := by
  by_cases hl : l.passes = true
  · rw [ctxStep_passes hl] at h
    obtain ⟨ctx, hs, rfl⟩ := lift_ok h
    exact .pass hl hs
  · cases l with
    | thread t a =>
      cases a with
      | latchWork | releaseWork => exact absurd h (by simp [ctxStep])
      | handlerReturn => exact leave_cases (Or.inl rfl) h
      | handlerThrow => exact leave_cases (Or.inr rfl) h
      | drain =>
        obtain ⟨ctx, hs, hs'⟩ := lift_ok h
        cases hbatch : (s.ctx.threads t).batch with
        | nil =>
          rw [hbatch] at hs'
          exact hs' ▸ .drained hbatch hs
        | cons op rest =>
          rw [hbatch] at hs'
          exact hs' ▸ .moveOut hbatch hs
      | _ => exact absurd rfl hl
    | destroy =>
      simp only [ctxStep, Option.map_eq_some_iff] at h
      obtain ⟨r, hr, hok⟩ := h
      cases r with
      | error e => exact absurd hok (by simp [Except.bind])
      | ok ctx =>
        simp only [Except.bind] at hok
        cases hcount : releaseAll (s.works.countAt (WorkPlace.inside s.leftOver))
            ctx.remainingCount with
        | error e => exact absurd hok (by simp [hcount, Except.map])
        | ok count =>
          simp only [hcount, Except.map, Except.ok.injEq] at hok
          exact hok ▸ .discard (ContextThread.step_cases hr) hcount
    | kernel | forget => exact absurd rfl hl

/-- **Inversion of the step function.** -/
theorem work_cases {a : WorkAct K n} (h : s.next M a = some s') : WorkStep M s a s' := by
  unfold next at h
  rw [Option.bind_eq_some_iff] at h
  obtain ⟨r, hr, hok⟩ := h
  rw [Transition.toOption_eq_some] at hok
  subst hok
  cases a with
  | ctx l => exact ctxStep_cases hr
  | wrapWork t =>
    simp only [step, Option.ite_none_right_eq_some] at hr
    obtain ⟨ctx, hs, rfl⟩ := lift_ok hr.2
    exact .wrapWork hr.1 hs
  | makeAsyncOperation t op =>
    simp only [step, Option.ite_none_right_eq_some, Option.some.injEq, Except.ok.injEq] at hr
    obtain ⟨⟨huser, hlive, hmade, hhanded⟩, rfl⟩ := hr
    exact .makeAsyncOperation hlive hmade hhanded
  | construct t p =>
    simp only [step, Option.ite_none_right_eq_some] at hr
    obtain ⟨ctx, hs, rfl⟩ := lift_ok hr.2
    exact .construct hr.1.1 hr.1.2 hs
  | move t p q =>
    simp only [step, Option.ite_none_right_eq_some, Option.some.injEq, Except.ok.injEq] at hr
    obtain ⟨⟨huser, hp, hq, hlive, hfree⟩, rfl⟩ := hr
    exact .move hp hq hfree
  | reset t p =>
    simp only [step, Option.ite_none_right_eq_some] at hr
    exact release_cases (.reset hr.1.2.1) hr.2
  | destroy t p =>
    simp only [step, Option.ite_none_right_eq_some] at hr
    exact release_cases (.destroy hr.1.2.1) hr.2
  | handlerEnd t =>
    simp only [step] at hr
    split at hr
    · rename_i op hpc
      simp only [Option.ite_none_right_eq_some, Option.some.injEq, Except.ok.injEq] at hr
      exact hr.2 ▸ .handlerEnd hpc
    · exact absurd hr (by simp)

end Works

end Exios
