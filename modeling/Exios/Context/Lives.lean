import Exios.Base.Executor
import Exios.Context.Work
import Exios.Scheduler.Attempts

namespace Exios

open Executor (Stage Rules)
open Transition (Steps Traced ForwardSimulation)

/-!
# Context — the lives of the operations

`Base/Executor.lean` says what an executor of asynchronous operations is for, one event at a time
and without threads, lists or mutexes.  A context refines it: `observe` is what a step shows,
`executor` what a state means.

* `stage` — the stage of an operation, from the place that holds it and the log;
* `Step.executor` — every step of the context makes the events that it shows, between the meanings
  of its two states;
* `executor_refined` — so every trace of a context is a trace of an executor;
* `life_cycle` — the life of each operation, in any interleaving.
-/

namespace ContextThread

variable {K : Type} {n : Nat} {M : Kernel K} {s s' : ContextThread K n} {t : Fin n}

/-! ### What a state means -/

/-- The result that an operation has so far; a posted completion never gets one. -/
def outcome (s : ContextThread K n) : AnyAsyncOperation → Option IoResult
  | .plain _ => none
  | .io op => (s.sched.io.state op).result

/-- The stage of an operation. -/
def stage (s : ContextThread K n) (op : AnyAsyncOperation) : Stage (Option IoResult) :=
  if op ∉ s.handed then .absent
  else if op ∈ s.released then
    if op ∈ s.invoked then
      if ∃ u, (s.threads u).pc.dispatching = some op then .running (s.outcome op)
      else .finished (s.outcome op)
    else if ∃ u, (s.threads u).pc.dispatching = some op then .ready (s.outcome op)
    else .discarded
  else if op ∈ s.place .scheduler then
    if (s.outcome op).isNone then .waiting else .struck
  else .ready (s.outcome op)

/-- The executor that a context is. -/
def executor (s : ContextThread K n) : Executor.State AnyAsyncOperation (Option IoResult) :=
  ⟨s.stage, s.destroyed⟩

/-- An I/O operation waits for its descriptor, whose system calls give its result. -/
def rules : Rules AnyAsyncOperation Int (Option IoResult) where
  source
    | .plain _ => none
    | .io op => some op.fd
  yields
    | .plain _, r => r = none
    | .io op, r => ∃ out res, io op.kind out none = .ok (true, some res) ∧ r = some res
  cancelled := some cancelledResult
  yields_ne := by
    rintro (addr | op) r hr
    · rw [hr]
      simp
    · obtain ⟨out, res, hio, rfl⟩ := hr
      rcases io_unset op.kind out with h | ⟨r, h, hne⟩
      · rw [h] at hio
        exact absurd hio (by simp)
      · rw [h] at hio
        simpa using (by simpa using hio : r = res) ▸ hne

/-! ### What a step shows -/

/-- The events of a step. -/
def observe (s : ContextThread K n) (l : Label K n) (s' : ContextThread K n) :
    List (Executor.Event AnyAsyncOperation Int (Option IoResult)) :=
  match l with
  -- a posted completion waits for nothing
  | .thread _ (.post addr) => [.submit (.plain addr), .complete (.plain addr) none]
  | .thread _ (.schedule op) => [.submit (.io op)]
  | .thread _ (.cancel fd _) => [.cancel fd]
  -- the operations that a section of `poll_once` posts
  | .thread _ .pollCancel | .thread _ .notifications =>
    ((s'.sched.posted.drop s.sched.posted.length).map AnyAsyncOperation.io).map
      (fun op => .complete op (s'.outcome op))
  -- the handler is invoked with what `dispatch` delivers
  | .thread t .invoke =>
    match (s.threads t).pc with
    | .invoke op => ((s.deliver op).toOption.map (Executor.Event.start op)).toList
    | _ => []
  | .thread t .handlerReturn | .thread t .handlerThrow =>
    match (s.threads t).pc with
    | .handler op => [.finish op]
    | _ => []
  | .destroy => [.shutdown]
  | _ => []

/-! ### Dispatched operations -/

/-- An operation is being dispatched by one thread at a time, after its release; a handler runs after
    its invocation. -/
structure DispatchInv (s : ContextThread K n) : Prop where
  released : ∀ u op, (s.threads u).pc.dispatching = some op → op ∈ s.released
  inj : ∀ u v op, (s.threads u).pc.dispatching = some op →
    (s.threads v).pc.dispatching = some op → u = v
  handled : ∀ u op, (s.threads u).pc = .handler op → op ∈ s.invoked

/-- Before the first step nothing is being dispatched. -/
theorem init_dispatchInv (h : Init s) : s.DispatchInv := by
  obtain ⟨-, hs⟩ := h
  rw [hs]
  exact ⟨by simp [idle, Pc.dispatching], by simp [idle, Pc.dispatching], by simp [idle]⟩

/-- The step into a handler invokes it. -/
theorem RunStep.handled {a : Act} (hs : RunStep M s t a s') {op : AnyAsyncOperation}
    (hpc : (s'.threads t).pc = .handler op) : op ∈ s'.invoked := by
  cases hs with
  | @invoke x result hx hdeliver =>
    rw [goto_pc, if_pos rfl, Pc.handler.injEq] at hpc
    subst hpc
    have hinvoked : (({ s with log := s.log ++ [Consumption.invoked x result] }).goto t
        (.handler x)).invoked = s.invoked ++ [x] := invoked_append s [.invoked x result]
    rw [hinvoked]
    simp
  | enterRun | enterRunOnce | take | popFront | handlerReturn | putBack =>
    rw [mapThread_threads, if_pos rfl] at hpc
    exact absurd hpc (by simp)
  | guardNotify =>
    rw [mapThread_threads, if_pos rfl] at hpc
    dsimp only at hpc
    split at hpc <;> exact absurd hpc (by simp)
  | loop | checkScheduler | pollCancel | notifications =>
    rw [goto_pc, if_pos rfl] at hpc
    split at hpc <;> exact absurd hpc (by simp)
  | _ =>
    rw [goto_pc, if_pos rfl] at hpc
    exact absurd hpc (by simp)

/-- Invocations stay in the log. -/
theorem Step.invoked_sub {l : Label K n} (hs : Step M s l s') :
    ∀ op ∈ s.invoked, op ∈ s'.invoked := by
  intro op hop
  cases hs with
  | run _ _ hs =>
    cases hs with
    | @popFront x rest hpc hbatch =>
      have hmem := List.mem_append_left ([Consumption.released x].filterMap Consumption.invoked?) hop
      exact (invoked_append s [Consumption.released x]).symm ▸ hmem
    | @invoke x result hpc hdeliver =>
      have hmem := List.mem_append_left
        ([Consumption.invoked x result].filterMap Consumption.invoked?) hop
      exact (invoked_append s [Consumption.invoked x result]).symm ▸ hmem
    | pollCancel | notifications =>
      rw [invoked, goto, mapThread, enqueue_log]
      exact hop
    | _ => exact hop
  | call _ _ _ hs => cases hs <;> exact hop
  | rest _ hs => cases hs <;> exact hop
  | destroy => exact s.destroy_invoked ▸ hop
  | kernel | forget => exact hop

/-- A handler that runs was invoked. -/
theorem step_handled (h : s.DispatchInv) {l : Label K n} (hs : Step M s l s') (u : Fin n)
    (op : AnyAsyncOperation) (hpc : (s'.threads u).pc = .handler op) : op ∈ s'.invoked := by
  -- a thread that has not moved was in the handler before
  have hkept : (s'.threads u).pc = (s.threads u).pc ∨
      ((s.threads u).pc = .asleep ∧ (s'.threads u).pc = .woken) → op ∈ s'.invoked := by
    rintro (heq | ⟨-, hwoken⟩)
    · exact hs.invoked_sub op (h.handled u op (heq ▸ hpc))
    · exact absurd (hpc.symm.trans hwoken) (by simp)
  cases hs with
  | @run t a _ hlive hcall hrun =>
    by_cases hu : u = t
    · subst hu
      exact hrun.handled hpc
    · exact hkept (hrun.frame.others u hu)
  | call hlive hcall huser hcall' => exact hkept (.inl (hcall'.frame.1 u))
  | rest hlive hrest => exact hkept (hrest.frame.2.1 u)
  | destroy | kernel | forget => exact hkept (.inl rfl)

/-- **The step lemma** for operations that are being dispatched. -/
theorem step_dispatchInv (hplace : s.PlaceInv) (h : s.DispatchInv) {l : Label K n}
    (hs : Step M s l s') : s'.DispatchInv := by
  have hhandled := step_handled h hs
  have hsame : SameDispatch s s' → s'.DispatchInv := by
    intro hsame
    refine ⟨fun u op hu => ?_, fun u v op hu hv => ?_, hhandled⟩
    · rw [hsame.dispatching] at hu
      rw [hsame.released]
      exact h.released u op hu
    · rw [hsame.dispatching] at hu hv
      exact h.inj u v op hu hv
  by_cases hl : l.passes = true ∨ ∃ t, l = .thread t .latchWork ∨ l = .thread t .releaseWork
  · exact hsame (hs.sameDispatch hl)
  rw [not_or] at hl
  cases l with
  | kernel | forget => exact absurd rfl hl.1
  | destroy =>
    cases hs with
    | destroy hlive hout =>
      have hnone : ∀ u op, (s.threads u).pc.dispatching ≠ some op := by
        intro u op
        rw [(hout u).1]
        simp [Pc.dispatching]
      exact ⟨fun u op hu => absurd hu (hnone u op), fun u v op hu => absurd hu (hnone u op), hhandled⟩
  | thread t a =>
    have hcases : a = .drain ∨ a = .handlerReturn ∨ a = .handlerThrow := by
      cases a <;> simp_all [Label.passes]
    rcases hcases with rfl | ha
    · cases hbatch : (s.threads t).batch with
      | nil => exact hsame (hs.drained hbatch)
      | cons op rest =>
        obtain ⟨-, hreleased, hpc⟩ := hs.popFront hbatch
        -- the operation was in the batch, so nobody was dispatching it
        have hnot : op ∉ s.released := by
          refine hplace.placed.not_mem (p := .batch t) (q := .consumed) (by simp) ?_
          show op ∈ (s.threads t).batch
          rw [hbatch]
          exact List.mem_cons_self
        have hfresh : ∀ u, (s.threads u).pc.dispatching ≠ some op :=
          fun u hu => hnot (h.released u op hu)
        refine ⟨fun u x hu => ?_, fun u v x hu hv => ?_, hhandled⟩
        · rw [hpc] at hu
          rw [hreleased, List.mem_append, List.mem_singleton]
          split at hu
          · exact .inr (Option.some.inj hu).symm
          · exact .inl (h.released u x hu)
        · rw [hpc] at hu hv
          split at hu <;> split at hv
          · rename_i hut hvt
            exact hut.trans hvt.symm
          · exact absurd (Option.some.inj hu ▸ hv) (hfresh v)
          · exact absurd (Option.some.inj hv ▸ hu) (hfresh u)
          · exact h.inj u v x hu hv
    · obtain ⟨hreleased, hpc⟩ := hs.leave ha
      have hkeep : ∀ u x, (s'.threads u).pc.dispatching = some x →
          (s.threads u).pc.dispatching = some x := by
        intro u x hu
        rw [hpc] at hu
        split at hu
        · exact absurd hu (by simp)
        · exact hu
      exact ⟨fun u x hu => hreleased ▸ h.released u x (hkeep u x hu),
        fun u v x hu hv => h.inj u v x (hkeep u x hu) (hkeep v x hv), hhandled⟩

/-! ### Stages, by place -/

/-- What was never handed over has no stage yet. -/
theorem stage_absent {op : AnyAsyncOperation} (hop : op ∉ s.handed) : s.stage op = .absent :=
  if_pos hop

/-- An operation in a place was handed over; it was released only if it is consumed. -/
theorem PlaceInv.of_place (h : s.PlaceInv) {op : AnyAsyncOperation} {p : Place n}
    (hp : p ≠ .consumed) (hop : op ∈ s.place p) :
    op ∈ s.handed ∧ op ∉ s.released ∧ op ∉ s.invoked := by
  have hnot : op ∉ s.released := h.placed.not_mem (q := .consumed) hp hop
  exact ⟨(h.placed.mem_iff op).mpr ⟨p, hop⟩, hnot, fun hi => hnot (h.invoked_sub op hi)⟩

/-- An operation in the scheduler waits, or is struck if it has a result already. -/
theorem stage_scheduler (h : s.PlaceInv) {op : AnyAsyncOperation} (hop : op ∈ s.place .scheduler) :
    s.stage op = if (s.outcome op).isNone then .waiting else .struck := by
  obtain ⟨hhanded, hreleased, -⟩ := h.of_place (by simp) hop
  rw [stage, if_neg (not_not.mpr hhanded), if_neg hreleased, if_pos hop]

/-- An operation in the queue, in a batch or about to be invoked is ready with its result. -/
theorem stage_queue (h : s.PlaceInv) {op : AnyAsyncOperation} {p : Place n} (hp : p ≠ .consumed)
    (hq : p ≠ .scheduler) (hop : op ∈ s.place p) : s.stage op = .ready (s.outcome op) := by
  obtain ⟨hhanded, hreleased, -⟩ := h.of_place hp hop
  rw [stage, if_neg (not_not.mpr hhanded), if_neg hreleased, if_neg (h.placed.not_mem hq hop)]

/-- An operation that was released. -/
theorem stage_released (h : s.PlaceInv) {op : AnyAsyncOperation} (hop : op ∈ s.released) :
    s.stage op = if op ∈ s.invoked then
        if ∃ u, (s.threads u).pc.dispatching = some op then .running (s.outcome op)
        else .finished (s.outcome op)
      else if ∃ u, (s.threads u).pc.dispatching = some op then .ready (s.outcome op)
      else .discarded := by
  have hhanded : op ∈ s.handed := (h.placed.mem_iff op).mpr ⟨.consumed, hop⟩
  rw [stage, if_neg (not_not.mpr hhanded), if_pos hop]

/-- The active operations wait. -/
theorem stage_active (hinv : s.sched.Inv) (h : s.PlaceInv) {op : AsyncIoOperation}
    (hop : op ∈ s.sched.io.activeSegment) : s.stage (.io op) = .waiting := by
  have hlist : op ∈ s.sched.io.operations := by
    rw [← s.sched.io.segments_append]
    exact List.mem_append_left _ hop
  rw [stage_scheduler h (List.mem_map_of_mem hlist), outcome, hinv.rep.active op hop]
  rfl

/-- The cancelled operations are struck. -/
theorem stage_cancelled (hinv : s.sched.Inv) (h : s.PlaceInv) {op : AsyncIoOperation}
    (hop : op ∈ s.sched.io.cancelledSegment) : s.stage (.io op) = .struck := by
  have hlist : op ∈ s.sched.io.operations := by
    rw [← s.sched.io.segments_append]
    exact List.mem_append_right _ hop
  rw [stage_scheduler h (List.mem_map_of_mem hlist), outcome, hinv.rep.cancelled op hop]
  rfl

/-- Only active operations wait. -/
theorem active_of_waiting (hinv : s.sched.Inv) {op : AsyncIoOperation}
    (hop : s.stage (.io op) = .waiting) : op ∈ s.sched.io.activeSegment := by
  rw [stage] at hop
  split at hop
  · exact absurd hop (by simp)
  · split at hop
    · split at hop <;> split at hop <;> exact absurd hop (by simp)
    · split at hop
      · rename_i hlist
        obtain ⟨x, hx, hxop⟩ := List.mem_map.mp hlist
        rw [AnyAsyncOperation.io.injEq] at hxop
        subst hxop
        apply hinv.active_of_unset (hinv.mem_operations hx)
        by_contra hset
        rw [if_neg (by simpa [outcome] using hset)] at hop
        exact absurd hop (by simp)
      · exact absurd hop (by simp)

/-- The stage of an operation depends on these only. -/
theorem stage_congr {op : AnyAsyncOperation} (hhanded : op ∈ s'.handed ↔ op ∈ s.handed)
    (hreleased : op ∈ s'.released ↔ op ∈ s.released) (hinvoked : op ∈ s'.invoked ↔ op ∈ s.invoked)
    (hdispatching : (∃ u, (s'.threads u).pc.dispatching = some op) ↔
      ∃ u, (s.threads u).pc.dispatching = some op)
    (hscheduled : op ∈ s'.place .scheduler ↔ op ∈ s.place .scheduler)
    (houtcome : s'.outcome op = s.outcome op) : s'.stage op = s.stage op := by
  simp only [stage, hhanded, hreleased, hinvoked, hdispatching, hscheduled, houtcome]

/-- Nothing is seen of a step that changes none of it. -/
theorem executor_congr (hsame : SameDispatch s s') (hhanded : s'.handed = s.handed)
    (hlog : s'.log = s.log) (hops : s'.sched.io.operations = s.sched.io.operations)
    (hstate : s'.sched.io.state = s.sched.io.state) (hdestroyed : s'.destroyed = s.destroyed) :
    s'.executor = s.executor := by
  rw [executor, executor, hdestroyed]
  congr 1
  funext op
  apply stage_congr
  · rw [hhanded]
  · rw [hsame.released]
  · rw [invoked, hlog, ← invoked]
  · simp only [hsame.dispatching]
  · rw [place, place, hops]
  · cases op with
    | plain addr => rfl
    | io x => rw [outcome, outcome, hstate]

/-! ### Steps -/

/-- A step that takes one operation from a stage to another. -/
theorem executor_set {op : AnyAsyncOperation} {p : Stage (Option IoResult)}
    (hdestroyed : s'.destroyed = s.destroyed) (hop : s'.stage op = p)
    (hother : ∀ x, x ≠ op → s'.stage x = s.stage x) : s'.executor = s.executor.set op p := by
  ext x
  · by_cases hx : x = op
    · rw [hx, Executor.State.set_stage_self]
      exact hop
    · rw [Executor.State.set_stage_of_ne hx]
      exact hother x hx
  · exact hdestroyed

/-- Taking an operation off the batch and releasing it shows nothing. -/
theorem drain_executor (h : s.PlaceInv) (h' : s'.PlaceInv) (hs : Step M s (.thread t .drain) s') :
    s'.executor = s.executor := by
  cases hbatch : (s.threads t).batch with
  | nil =>
    obtain ⟨-, ⟨-, hs'⟩ | ⟨op, rest, hcons, -⟩⟩ := hs.drain
    · exact executor_congr (hs.drained hbatch) (by rw [hs']; rfl) (by rw [hs']; rfl)
        (by rw [hs']; rfl) (by rw [hs']; rfl) (by rw [hs']; rfl)
    · exact absurd (hbatch.symm.trans hcons) (by simp)
  | cons op rest =>
    obtain ⟨hidle, hreleased, hpc⟩ := hs.popFront hbatch
    obtain ⟨hhanded, hinvoked, hplace, hstate, hdestroyed⟩ : s'.handed = s.handed ∧
        s'.invoked = s.invoked ∧ s'.place .scheduler = s.place .scheduler ∧
        s'.sched.io.state = s.sched.io.state ∧ s'.destroyed = s.destroyed := by
      obtain ⟨-, ⟨hnil, -⟩ | ⟨y, ys, -, rfl⟩⟩ := hs.drain
      · exact absurd (hbatch.symm.trans hnil) (by simp)
      · refine ⟨rfl, ?_, rfl, rfl, rfl⟩
        refine (invoked_append s [Consumption.released y]).trans ?_
        simp [Consumption.invoked?]
    have houtcome : ∀ x, s'.outcome x = s.outcome x := by
      intro x
      cases x with
      | plain addr => rfl
      | io y => rw [outcome, outcome, hstate]
    have hmem : op ∈ s.place (.batch t) := by
      show op ∈ (s.threads t).batch
      rw [hbatch]
      exact List.mem_cons_self
    rw [executor, executor, hdestroyed]
    congr 1
    funext x
    by_cases hx : x = op
    · -- it was in the batch, and is in the thread's frame now
      subst hx
      have hni : x ∉ s'.invoked := hinvoked ▸ (h.of_place (by simp) hmem).2.2
      rw [stage_queue h (by simp) (by simp) hmem, stage_released h' (by rw [hreleased]; simp),
        if_neg hni, if_pos ⟨t, by rw [hpc, if_pos rfl]⟩, houtcome]
    · refine stage_congr (by rw [hhanded]) ?_ (by rw [hinvoked]) ?_ (by rw [hplace]) (houtcome x)
      · rw [hreleased, List.mem_append, List.mem_singleton]
        exact or_iff_left hx
      · -- the thread dispatched nothing before, and dispatches another operation now
        constructor
        · rintro ⟨u, hu⟩
          rw [hpc] at hu
          split at hu
          · exact absurd (Option.some.inj hu).symm hx
          · exact ⟨u, hu⟩
        · rintro ⟨u, hu⟩
          have hut : u ≠ t := by
            rintro rfl
            rw [hidle] at hu
            exact absurd hu (by simp)
          exact ⟨u, by rw [hpc, if_neg hut]; exact hu⟩

/-- What is delivered is the result. -/
theorem outcome_of_deliver {op : AnyAsyncOperation} {result : Option IoResult}
    (h : s.deliver op = .ok result) : s.outcome op = result := by
  cases op with
  | plain addr => simpa [deliver, outcome] using h
  | io x =>
    rw [deliver] at h
    cases hx : (s.sched.io.state x).result with
    | none => simp [hx] at h
    | some r => simpa [hx, outcome] using h

/-- The handler of an operation is invoked with its result. -/
theorem invoke_executor (h : s.PlaceInv) (h' : s'.PlaceInv) (hsame : SameDispatch s s')
    (hlive : s.destroyed = false) {op : AnyAsyncOperation} {result : Option IoResult}
    (hpc : (s.threads t).pc = .invoke op) (hdeliver : s.deliver op = .ok result)
    (hs' : s' = ({ s with log := s.log ++ [Consumption.invoked op result] }).goto t (.handler op)) :
    Executor.Step rules s.executor (.start op result) s'.executor := by
  obtain ⟨hreleased, hnot⟩ := h.invoking t op hpc
  have hdisp : (s.threads t).pc.dispatching = some op := by
    rw [hpc]
    rfl
  have hinvoked : s'.invoked = s.invoked ++ [op] := by
    rw [hs']
    exact invoked_append s [.invoked op result]
  have houtcome : ∀ x, s'.outcome x = s.outcome x := by
    intro x
    cases x <;> rw [hs'] <;> rfl
  have hready : s.executor.stage op = .ready result := by
    show s.stage op = _
    rw [stage_released h hreleased, if_neg hnot, if_pos ⟨t, hdisp⟩, outcome_of_deliver hdeliver]
  have hrunning : s'.stage op = .running result := by
    rw [stage_released h' (hsame.released ▸ hreleased), if_pos (by rw [hinvoked]; simp),
      if_pos ⟨t, (hsame.dispatching t).trans hdisp⟩, houtcome, outcome_of_deliver hdeliver]
  have hset : s'.executor = s.executor.set op (.running result) := by
    apply executor_set (by rw [hs']; rfl) hrunning
    intro x hx
    refine stage_congr (by rw [hs']; rfl) (by rw [hsame.released]) ?_
      (by simp only [hsame.dispatching]) (by rw [hs']; rfl) (houtcome x)
    rw [hinvoked, List.mem_append, List.mem_singleton]
    exact or_iff_left hx
  rw [hset]
  exact .start hlive hready

/-- A handler returns or throws. -/
theorem finish_executor (h : s.PlaceInv) (h' : s'.PlaceInv) (hd : s.DispatchInv)
    (hlive : s.destroyed = false) {a : Act} (ha : a = .handlerReturn ∨ a = .handlerThrow)
    {op : AnyAsyncOperation} (hpc : (s.threads t).pc = .handler op)
    (hs : Step M s (.thread t a) s') :
    Executor.Step rules s.executor (.finish op) s'.executor := by
  obtain ⟨hreleased, hpc'⟩ := hs.leave ha
  have hdisp : (s.threads t).pc.dispatching = some op := by
    rw [hpc]
    rfl
  obtain ⟨hhanded, hlog, hsched, hdestroyed⟩ : s'.handed = s.handed ∧ s'.log = s.log ∧
      s'.sched = s.sched ∧ s'.destroyed = s.destroyed := by
    cases hs with
    | run _ _ hs => rcases ha with rfl | rfl <;> cases hs <;> exact ⟨rfl, rfl, rfl, rfl⟩
    | call _ _ _ hs => rcases ha with rfl | rfl <;> cases hs
    | rest _ hs => rcases ha with rfl | rfl <;> cases hs
  have hinvoked : s'.invoked = s.invoked := congrArg (List.filterMap Consumption.invoked?) hlog
  have houtcome : ∀ x, s'.outcome x = s.outcome x := by
    intro x
    cases x with
    | plain addr => rfl
    | io y => rw [outcome, outcome, hsched]
  have hop := hd.handled t op hpc
  have hrel := h.invoked_sub op hop
  have hrunning : s.executor.stage op = .running (s.outcome op) := by
    show s.stage op = _
    rw [stage_released h hrel, if_pos hop, if_pos ⟨t, hdisp⟩]
  -- no other thread dispatches it
  have hnone : ¬ ∃ u, (s'.threads u).pc.dispatching = some op := by
    rintro ⟨u, hu⟩
    rw [hpc'] at hu
    split at hu
    · exact absurd hu (by simp)
    · rename_i hut
      exact hut (hd.inj u t op hu hdisp)
  have hfinished : s'.stage op = .finished (s.outcome op) := by
    rw [stage_released h' (hreleased ▸ hrel), if_pos (hinvoked ▸ hop), if_neg hnone, houtcome]
  have hset : s'.executor = s.executor.set op (.finished (s.outcome op)) := by
    apply executor_set hdestroyed hfinished
    intro x hx
    refine stage_congr (by rw [hhanded]) (by rw [hreleased]) (by rw [hinvoked])
      (exists_congr fun u => ?_) (by rw [place, place, hsched]) (houtcome x)
    rw [hpc']
    split
    · rename_i hut
      rw [hut, hdisp, Option.some.injEq]
      exact iff_of_false (by simp) (fun he => hx he.symm)
    · exact Iff.rfl
  rw [hset]
  exact .finish hlive hrunning

/-- `post` submits a completion that waits for nothing. -/
theorem post_executor (h : s.PlaceInv) (hlive : s.destroyed = false) {addr : Nat}
    (hnew : AnyAsyncOperation.plain addr ∉ s.handed) :
    Steps (Executor.Step rules) s.executor
      [.submit (.plain addr), .complete (.plain addr) none]
      (({ s with
        completionQueue := s.completionQueue ++ [AnyAsyncOperation.plain addr]
        handed := s.handed ++ [AnyAsyncOperation.plain addr]
        dataMutex := some t }).setCall t .postWake).executor := by
  generalize hs' : ({ s with
    completionQueue := s.completionQueue ++ [AnyAsyncOperation.plain addr]
    handed := s.handed ++ [AnyAsyncOperation.plain addr]
    dataMutex := some t } : ContextThread K n).setCall t .postWake = s'
  obtain ⟨hhanded, hlog, hsched, hdestroyed, hpc⟩ :
      s'.handed = s.handed ++ [.plain addr] ∧ s'.log = s.log ∧ s'.sched = s.sched ∧
      s'.destroyed = s.destroyed ∧ ∀ u, (s'.threads u).pc = (s.threads u).pc := by
    subst hs'
    exact ⟨rfl, rfl, rfl, rfl, fun u => setCall_pc _ _ _ _⟩
  -- a posted completion is ready at once
  have hreleased : s'.released = s.released := congrArg (List.filterMap _) hlog
  have hinvoked : s'.invoked = s.invoked := congrArg (List.filterMap _) hlog
  have habsent : s.executor.stage (.plain addr) = .absent := stage_absent hnew
  have hready : s'.stage (.plain addr) = .ready none := by
    have hnot : AnyAsyncOperation.plain addr ∉ s'.released := by
      rw [hreleased]
      exact fun hm => hnew ((h.placed.mem_iff _).mpr ⟨.consumed, hm⟩)
    have hsched : AnyAsyncOperation.plain addr ∉ s'.place .scheduler := by
      rw [place, List.mem_map]
      rintro ⟨x, -, hx⟩
      exact absurd hx (by simp)
    rw [stage, if_neg (not_not.mpr (by rw [hhanded]; simp)), if_neg hnot, if_neg hsched]
    rfl
  have hset : s'.executor
      = (s.executor.set (.plain addr) .waiting).set (.plain addr) (.ready none) := by
    rw [executor_set (p := .ready none) hdestroyed hready]
    · simp [Executor.State.set]
    · intro x hx
      refine stage_congr ?_ (by rw [hreleased]) (by rw [hinvoked]) (by simp only [hpc])
        (by rw [place, place, hsched]) (by cases x <;> simp only [outcome, hsched])
      rw [hhanded, List.mem_append, List.mem_singleton]
      exact or_iff_left hx
  rw [hset]
  refine .cons (.submit hlive habsent) (.single (.complete hlive ?_ rfl))
  exact Executor.State.set_stage_self _ _ _

/-- `schedule` submits an operation that waits for its descriptor. -/
theorem schedule_executor (hinv : s.sched.Inv) (h : s.PlaceInv) (h' : s'.PlaceInv)
    (hlive : s.destroyed = false) {op : AsyncIoOperation} {sched : Sched K}
    (hnew : op ∉ s.sched.scheduled) (hsched : s.sched.schedule M op = .ok sched)
    (hs' : s' = ({ s with
      sched := sched
      handed := s.handed ++ [AnyAsyncOperation.io op]
      schedMutex := some t }).setCall t .scheduleNotify) :
    Executor.Step rules s.executor (.submit (.io op)) s'.executor := by
  obtain ⟨io, hio, rfl⟩ := Sched.schedule_cases hsched
  obtain ⟨hperm, hstate⟩ := IoScheduler.schedule_perm hinv.rep hio
  obtain ⟨hhanded, hlog, hops, hstate', hdestroyed, hpc⟩ :
      s'.handed = s.handed ++ [.io op] ∧ s'.log = s.log ∧ s'.sched.io.operations = io.operations ∧
      s'.sched.io.state = s.sched.io.state ∧ s'.destroyed = s.destroyed ∧
      ∀ u, (s'.threads u).pc = (s.threads u).pc := by
    subst hs'
    exact ⟨rfl, rfl, rfl, hstate, rfl, fun u => setCall_pc _ _ _ _⟩
  have hreleased : s'.released = s.released := congrArg (List.filterMap _) hlog
  have hinvoked : s'.invoked = s.invoked := congrArg (List.filterMap _) hlog
  have hfresh : AnyAsyncOperation.io op ∉ s.handed := fun hm => hnew ((h.scheduled op).mp hm)
  -- the new operation is in the scheduler, beside those that were
  have hmem : ∀ x, x ∈ s'.place .scheduler ↔ x = .io op ∨ x ∈ s.place .scheduler := by
    intro x
    rw [place, place, hops, (hperm.map AnyAsyncOperation.io).mem_iff, List.map_cons, List.mem_cons]
  have hwaiting : s'.stage (.io op) = .waiting := by
    rw [stage_scheduler h' ((hmem _).mpr (.inl rfl)), outcome, hstate', hinv.unscheduled op hnew]
    rfl
  have hset : s'.executor = s.executor.set (.io op) .waiting := by
    apply executor_set hdestroyed hwaiting
    intro x hx
    refine stage_congr ?_ (by rw [hreleased]) (by rw [hinvoked]) (by simp only [hpc]) ?_
      (by cases x <;> simp only [outcome, hstate'])
    · rw [hhanded, List.mem_append, List.mem_singleton]
      exact or_iff_left hx
    · rw [hmem]
      exact or_iff_right hx
  rw [hset]
  exact .submit hlive (stage_absent hfresh)

/-- `cancel` strikes the operations that wait for the descriptor, all at once. -/
theorem cancel_executor (hinv : s.sched.Inv) (h : s.PlaceInv) (h' : s'.PlaceInv)
    (hlive : s.destroyed = false) {fd : Int} {fuel : Nat} {found : Bool} {sched : Sched K}
    (hcancel : s.sched.cancel M fuel fd = some (.ok (sched, found)))
    (hs' : s'.sched = sched ∧ s'.handed = s.handed ∧ s'.log = s.log ∧
      s'.destroyed = s.destroyed ∧ ∀ u, (s'.threads u).pc = (s.threads u).pc) :
    Executor.Step rules s.executor (.cancel fd) s'.executor := by
  obtain ⟨rfl, hhanded, hlog, hdestroyed, hpc⟩ := hs'
  have hinv' := Sched.cancel_inv hinv hcancel
  obtain ⟨io, hio, hsched⟩ := Sched.cancel_cases hcancel
  have hspec := (IoScheduler.cancelSection_spec hinv.rep hio).2
  have hio' : s'.sched.io = io := by rw [hsched]
  have hreleased : s'.released = s.released := congrArg (List.filterMap _) hlog
  have hinvoked : s'.invoked = s.invoked := congrArg (List.filterMap _) hlog
  have hperm : s.sched.io.operations.Perm s'.sched.io.operations := by
    have hposted : s'.sched.posted = s.sched.posted ++ [] := by
      rw [hsched, List.append_nil]
    simpa using hinv.operations_perm hinv' (by rw [hsched]) hposted
  have hkeep : ∀ x, s'.outcome x = s.outcome x → s'.stage x = s.stage x := by
    intro x hx
    refine stage_congr (by rw [hhanded]) (by rw [hreleased]) (by rw [hinvoked]) (by simp only [hpc])
      ?_ hx
    exact ((hperm.map AnyAsyncOperation.io).mem_iff).symm
  have hset : s'.executor = s.executor.strike rules fd := by
    ext x
    · show s'.stage x = _
      cases x with
      | plain addr =>
        rw [Executor.State.strike_other (by simp [rules])]
        exact hkeep _ rfl
      | io op =>
        by_cases hop : op ∈ s.sched.io.activeOn fd
        · -- it waited on the descriptor, and has the cancelled result now
          obtain ⟨hact, hfd⟩ := List.mem_filter.mp hop
          have hcan : op ∈ s'.sched.io.cancelledSegment := by
            rw [hio', hspec.cancelled]
            exact List.mem_append_left _ hop
          rw [stage_cancelled hinv' h' hcan]
          exact (Executor.State.strike_waiting (by simpa [rules] using hfd)
            (stage_active hinv h hact)).symm
        · rw [Executor.State.strike_other]
          · apply hkeep
            rw [outcome, outcome, hio', hspec.others op hop]
          · intro hfd hw
            apply hop
            refine List.mem_filter.mpr ⟨active_of_waiting hinv hw, ?_⟩
            simpa [rules] using hfd
    · exact hdestroyed
  rw [hset]
  exact .cancel hlive

/-- The operations `ops` have left the scheduler with their results: the active ones with what a
    system call gave, the cancelled ones with what `cancel` gave. -/
structure Completes (s s' : ContextThread K n) (ops : List AsyncIoOperation) : Prop where
  posted : s'.sched.posted = s.sched.posted ++ ops
  scheduled : s'.sched.scheduled = s.sched.scheduled
  queue : s'.completionQueue = s.completionQueue ++ ops.map .io
  state_other : ∀ x, x ∉ ops → s'.sched.io.state x = s.sched.io.state x
  done : ∀ x ∈ ops,
    (x ∈ s.sched.io.activeSegment ∧ rules.yields (.io x) (s'.outcome (.io x))) ∨
      (x ∈ s.sched.io.cancelledSegment ∧ s'.sched.io.state x = s.sched.io.state x)

/-- A section of `poll_once` completes the operations that it posts. -/
theorem Completes.executor {ops : List AsyncIoOperation} (hc : Completes s s' ops)
    (hinv : s.sched.Inv) (hinv' : s'.sched.Inv) (h : s.PlaceInv) (h' : s'.PlaceInv)
    (hsame : SameDispatch s s') (hlive : s.destroyed = false)
    (hdestroyed : s'.destroyed = s.destroyed)
    (hhanded : s'.handed = s.handed) (hlog : s'.log = s.log) :
    Steps (Executor.Step rules) s.executor
      (((s'.sched.posted.drop s.sched.posted.length).map AnyAsyncOperation.io).map
        (fun op => .complete op (s'.outcome op))) s'.executor := by
  have hinvoked : s'.invoked = s.invoked := congrArg (List.filterMap _) hlog
  have hperm := hinv.operations_perm hinv' hc.scheduled hc.posted
  have hnd : (s'.sched.io.operations ++ ops).Nodup := hperm.nodup_iff.mp hinv.rep.nodup
  rw [hc.posted, List.drop_left]
  -- what was posted is ready with its result, everything else stays where it was
  have hsettle : s'.executor = s.executor.settle (ops.map AnyAsyncOperation.io) s'.outcome := by
    ext x
    · show s'.stage x = if x ∈ ops.map AnyAsyncOperation.io then _ else s.stage x
      split
      · rename_i hx
        refine stage_queue h' (p := .queue) (by simp) (by simp) ?_
        show x ∈ s'.completionQueue
        rw [hc.queue]
        exact List.mem_append_right _ hx
      · -- not posted: in the scheduler if it was there before
        rename_i hx
        refine stage_congr (by rw [hhanded]) (by rw [hsame.released]) (by rw [hinvoked])
          (by simp only [hsame.dispatching]) ?_ ?_
        · rw [place, place, (hperm.map AnyAsyncOperation.io).mem_iff, List.map_append,
            List.mem_append]
          exact (or_iff_left hx).symm
        · cases x with
          | plain addr => rfl
          | io y =>
            have hy : y ∉ ops := fun hm => hx (List.mem_map_of_mem hm)
            rw [outcome, outcome, hc.state_other y hy]
    · exact hdestroyed
  rw [hsettle]
  refine Executor.steps_complete s'.outcome hlive ?_ ?_
  · exact (List.nodup_append'.mp hnd).2.1.map (fun a b he => by simpa using he)
  · intro x hx
    obtain ⟨y, hy, rfl⟩ := List.mem_map.mp hx
    -- a performed operation was waiting, a cancelled one was struck
    rcases hc.done y hy with ⟨hact, hyields⟩ | ⟨hcan, hstate⟩
    · exact .inl ⟨stage_active hinv h hact, hyields⟩
    · refine .inr ⟨stage_cancelled hinv h hcan, ?_⟩
      rw [outcome, hstate, hinv.rep.cancelled y hcan]
      rfl

/-- The cancellation phase completes the cancelled operations. -/
theorem pollCancellations_completes (hinv : s.sched.Inv) {sched : Sched K}
    {p : IoScheduler.CancelPhase} {tw : Nat} (hpoll : s.sched.pollCancellations tw = .ok (sched, p))
    (hsched : s'.sched = sched)
    (hqueue : s'.completionQueue = s.completionQueue ++ p.posted.map .io) :
    Completes s s' p.posted := by
  obtain ⟨-, hposted, hscheduled⟩ := Sched.pollCancellations_extends hpoll
  obtain ⟨w, hw⟩ := Sched.pollCancellations_cases hinv hpoll
  subst hsched
  have hstate : s'.sched.io.state = s.sched.io.state := by rw [hw]
  have hops : p.posted = s.sched.io.cancelledSegment := by
    rw [hw] at hposted
    exact (List.append_cancel_left hposted).symm
  exact ⟨hposted, hscheduled, hqueue, fun x _ => by rw [hstate],
    fun x hx => .inr ⟨hops ▸ hx, by rw [hstate]⟩⟩

/-- The results of a batch of notifications are those of system calls. -/
theorem notifications_yield (hinv : s.sched.Inv) {st : IoScheduler.Notify K} {tw : Nat}
    {events : List EpollEvent} (h : IoScheduler.processNotifications M tw events
      (.start s.sched.io s.sched.kernel) = .ok st) (x : AsyncIoOperation) :
    st.sched.state x = s.sched.io.state x ∨
      ∃ out r, io x.kind out none = .ok (true, some r) ∧ st.sched.state x = ⟨false, some r⟩ := by
  refine IoScheduler.processNotifications_items
    (fun st => st.sched.state x = s.sched.io.state x ∨
      ∃ out r, io x.kind out none = .ok (true, some r) ∧ st.sched.state x = ⟨false, some r⟩)
    ?_ (fun _ _ _ _ hst => hst) events (hinv.rep.start s.sched.kernel) (.inl rfl) h
  intro mask item st₀ st₁ hfresh hmem hP hitem
  cases hitem with
  | skipped | pending => exact hP
  | @stored r tw hsel hio =>
    -- an operation is completed by its own item only
    by_cases hx : x = item
    · subst hx
      exact .inr ⟨_, r, hio, Function.update_self _ _ _⟩
    · have hother : (st₀.completed M tw item r).sched.state x = st₀.sched.state x :=
        Function.update_of_ne hx _ _
      rw [hother]
      exact hP

/-- The notification phase completes the active operations that it posts. -/
theorem pollNotifications_completes (hinv : s.sched.Inv) {sched : Sched K}
    {r : IoScheduler.Notify K} {events : List EpollEvent} {tw : Nat}
    (hpoll : s.sched.pollNotifications M tw events = .ok (sched, r)) (hsched : s'.sched = sched)
    (hqueue : s'.completionQueue = s.completionQueue ++ r.posted.map .io) :
    Completes s s' r.posted := by
  obtain ⟨-, hposted, hscheduled⟩ := Sched.pollNotifications_extends hinv hpoll
  obtain ⟨st, done, hst, hdone, rfl, rfl⟩ := Sched.pollNotifications_cases hinv hpoll
  have hops : st.posted = done := by
    rw [hdone.posted]
    rfl
  have hstate : s'.sched.io.state = st.sched.state := by rw [hsched]
  refine ⟨by rw [hsched], by rw [hsched], hqueue, fun x hx => ?_, fun x hx => .inl ?_⟩
  · rw [hstate, hdone.state_other x (hops ▸ hx)]
    rfl
  · have hact : x ∈ s.sched.io.activeSegment := hdone.done_sub x (hops ▸ hx)
    refine ⟨hact, ?_⟩
    show ∃ out res, io x.kind out none = .ok (true, some res) ∧
      (s'.sched.io.state x).result = some res
    rw [hstate]
    obtain ⟨res, -, hres⟩ := hdone.state_done x (hops ▸ hx)
    -- it has got a result in this batch, as it had none before
    rcases notifications_yield hinv hst x with hsame | ⟨out, r, hio, hr⟩
    · rw [hsame, hinv.rep.active x hact] at hres
      exact absurd hres (by simp [OpState.fresh])
    · exact ⟨out, r, hio, by rw [hr]⟩

/-- The destructor discards what is left. -/
theorem destroy_executor (h : s.PlaceInv) (h' : s.destroy.PlaceInv) (hlive : s.destroyed = false)
    (hout : ∀ u, (s.threads u).pc = .out) :
    Executor.Step rules s.executor .shutdown s.destroy.executor := by
  have hdisp : ∀ op, ¬ ∃ u, (s.threads u).pc.dispatching = some op := by
    rintro op ⟨u, hu⟩
    rw [hout u] at hu
    exact absurd hu (by simp [Pc.dispatching])
  have hrest : ∀ op ∈ s.handed, op ∉ s.released → op ∈ s.destroy.released := by
    intro op hop hnot
    obtain ⟨p, hp⟩ := (h.placed.mem_iff op).mp hop
    rw [destroy_released, List.mem_append, List.mem_append]
    cases p with
    | scheduler => exact .inr (.inr hp)
    | queue => exact .inr (.inl hp)
    | consumed => exact absurd hp hnot
    | batch u =>
      have hnil : s.place (.batch u) = [] := h.batch_nil (by rw [hout u]; rfl)
      rw [hnil] at hp
      exact absurd hp (by simp)
  have hdone : ∀ op ∈ s.released, s.stage op
      = if op ∈ s.invoked then .finished (s.outcome op) else .discarded := by
    intro op hop
    rw [stage_released h hop, if_neg (hdisp op), if_neg (hdisp op)]
  have hdone' : ∀ op ∈ s.destroy.released, s.destroy.stage op
      = if op ∈ s.invoked then .finished (s.outcome op) else .discarded := by
    intro op hop
    have hnone : ¬ ∃ u, (s.destroy.threads u).pc.dispatching = some op := hdisp op
    rw [stage_released h' hop, destroy_invoked, if_neg hnone, if_neg hnone]
    cases op <;> rfl
  have hset : s.destroy.executor = ⟨fun op => (s.executor.stage op).discard, true⟩ := by
    ext op
    · show s.destroy.stage op = (s.stage op).discard
      by_cases hop : op ∈ s.handed
      · by_cases hrel : op ∈ s.released
        · have hrel' : op ∈ s.destroy.released := by
            rw [destroy_released]
            exact List.mem_append_left _ hrel
          rw [hdone op hrel, hdone' op hrel']
          split <;> rfl
        · -- it was in the queue or in the scheduler's list, and its handler is not invoked
          have hnot : op ∉ s.invoked := fun hi => hrel (h.invoked_sub op hi)
          rw [hdone' op (hrest op hop hrel), if_neg hnot, stage, if_neg (not_not.mpr hop),
            if_neg hrel]
          split
          · split <;> rfl
          · rfl
      · rw [stage_absent hop, stage_absent (show op ∉ s.destroy.handed from hop)]
        rfl
    · rfl
  rw [hset]
  refine .shutdown hlive (fun op r hrun => ?_)
  -- nothing runs
  have hrun' : s.stage op = .running r := hrun
  rw [stage] at hrun'
  split at hrun'
  · exact absurd hrun' (by simp)
  · split at hrun'
    · rename_i hrel
      rw [if_neg (hdisp op), if_neg (hdisp op)] at hrun'
      split at hrun' <;> exact absurd hrun' (by simp)
    · split at hrun'
      · split at hrun' <;> exact absurd hrun' (by simp)
      · exact absurd hrun' (by simp)

/-- What a section of `poll_once` leaves, besides the scheduler. -/
theorem poll_rest {sched : Sched K} (ops : List AsyncIoOperation) (pc : Pc)
    (hs' : s' = (({ s with sched := sched } : ContextThread K n).enqueue ops).goto t pc) :
    s'.sched = sched ∧ s'.completionQueue = s.completionQueue ++ ops.map .io ∧
      s'.destroyed = s.destroyed ∧ s'.handed = s.handed ∧ s'.log = s.log := by
  subst hs'
  refine ⟨enqueue_sched _ _, enqueue_completionQueue _ _, ?_, ?_, enqueue_log _ _⟩ <;>
    rw [goto, mapThread, enqueue] <;> split <;> rfl

/-! ### Every step -/

/-- **A step of the context makes the events that it shows.** -/
theorem Step.executor (hres : s.ResultInv) (h : s.PlaceInv) (hd : s.DispatchInv) {l : Label K n}
    (hs : Step M s l s') :
    Steps (Executor.Step rules) s.executor (observe s l s') s'.executor := by
  have h' := step_placeInv hres h hs
  have hres' := step_resultInv hres hs
  -- most steps show nothing
  have hquiet : l.passes = true ∨ (∃ t, l = .thread t .latchWork ∨ l = .thread t .releaseWork) →
      observe s l s' = [] → s'.handed = s.handed → s'.log = s.log →
      s'.sched.io.operations = s.sched.io.operations → s'.sched.io.state = s.sched.io.state →
      s'.destroyed = s.destroyed →
      Steps (Executor.Step rules) s.executor (observe s l s') s'.executor := by
    intro hl hnone hhanded hlog hops hstate hdestroyed
    rw [hnone, executor_congr (hs.sameDispatch hl) hhanded hlog hops hstate hdestroyed]
    exact .nil _
  have hs₀ := hs
  cases hs with
  | @run t a _ hlive hcall hrun =>
    have hinv := hres.live hlive
    cases hrun with
    | drained | popFront =>
      rw [drain_executor h h' hs₀]
      exact .nil _
    | @invoke op result hpc hdeliver =>
      have hobserve : observe s (.thread t .invoke) (({ s with
          log := s.log ++ [Consumption.invoked op result] }).goto t (.handler op))
          = [.start op result] := by
        simp [observe, hpc, hdeliver, Except.toOption]
      rw [hobserve]
      exact .single (invoke_executor h h' (hs₀.sameDispatch (.inl rfl)) hlive hpc hdeliver rfl)
    | handlerReturn hpc =>
      have hstep := finish_executor h h' hd hlive (.inl rfl) hpc hs₀
      simp only [observe, hpc]
      exact .single hstep
    | handlerThrow hpc =>
      have hstep := finish_executor h h' hd hlive (.inr rfl) hpc hs₀
      simp only [observe, hpc]
      exact .single hstep
    | @pollCancel block sched p hpc hfree hpoll hpost =>
      obtain ⟨hsched, hqueue, hdestroyed, hhanded, hlog⟩ := poll_rest p.posted _ rfl
      have hc := pollCancellations_completes hinv hpoll hsched hqueue
      exact hc.executor hinv (hres'.live (hdestroyed.trans hlive)) h h'
        (hs₀.sameDispatch (.inl rfl)) hlive hdestroyed hhanded hlog
    | @notifications block events sched r hpc hfree hpoll hpost =>
      obtain ⟨hsched, hqueue, hdestroyed, hhanded, hlog⟩ := poll_rest r.posted _ rfl
      have hc := pollNotifications_completes hinv hpoll hsched hqueue
      exact hc.executor hinv (hres'.live (hdestroyed.trans hlive)) h h'
        (hs₀.sameDispatch (.inl rfl)) hlive hdestroyed hhanded hlog
    | _ => exact hquiet (.inl rfl) rfl rfl rfl rfl rfl rfl
  | @call t a _ hlive hcall huser hcall' =>
    have hinv := hres.live hlive
    cases hcall' with
    | post hfree hnew => exact post_executor h hlive hnew
    | schedule hfree hnew hsched =>
      exact .single (schedule_executor hinv h h' hlive hnew hsched rfl)
    | cancel hfree hcancel =>
      exact .single (cancel_executor hinv h h' hlive hcancel
        ⟨rfl, rfl, rfl, rfl, fun u => setCall_pc _ _ _ _⟩)
    | cancelNothing hcancel =>
      exact .single (cancel_executor hinv h h' hlive hcancel ⟨rfl, rfl, rfl, rfl, fun _ => rfl⟩)
    | latchWork => exact hquiet (.inr ⟨t, .inl rfl⟩) rfl rfl rfl rfl rfl rfl
    | releaseWork hpos => exact hquiet (.inr ⟨t, .inr rfl⟩) rfl rfl rfl rfl rfl rfl
  | rest hlive hrest => cases hrest <;> exact hquiet (.inl rfl) rfl rfl rfl rfl rfl rfl
  | destroy hlive hout => exact .single (destroy_executor h h' hlive (fun u => (hout u).1))
  | kernel | forget => exact hquiet (.inl rfl) rfl rfl rfl rfl rfl rfl

/-! ### The results -/

/-- The traces of a context. -/
def Trace (M : Kernel K) : List (Executor.Event AnyAsyncOperation Int (Option IoResult)) →
    ContextThread K n → Prop :=
  Traced Init (next M) observe

variable {tr : List (Executor.Event AnyAsyncOperation Int (Option IoResult))}

/-- A constructed context is the executor without operations. -/
theorem init_executor (h : Init s) : s.executor = .init := by
  have hhanded : s.handed = [] := by rw [h.2]
  have hdestroyed : s.destroyed = false := by rw [h.2]
  ext op
  · exact stage_absent (by rw [hhanded]; simp)
  · exact hdestroyed

/-- **The run lemma** for operations that are being dispatched. -/
theorem reach_dispatchInv (h : Reach M Transition.always s) : s.DispatchInv := by
  have hboth : (s.ResultInv ∧ s.PlaceInv) ∧ s.DispatchInv := by
    refine Transition.Reach.invariant (fun s => (s.ResultInv ∧ s.PlaceInv) ∧ s.DispatchInv) ?_ ?_ h
    · exact fun _ hi => ⟨⟨init_resultInv hi, init_placeInv hi⟩, init_dispatchInv hi⟩
    · rintro s l s' ⟨⟨hres, hplace⟩, hd⟩ _ hs
      exact ⟨⟨step_resultInv hres (next_cases hs), step_placeInv hres hplace (next_cases hs)⟩,
        step_dispatchInv hplace hd (next_cases hs)⟩
  exact hboth.2

/-- The executor follows the context step by step. -/
theorem executor_simulation (M : Kernel K) :
    ForwardSimulation (Init (n := n)) (next M) observe (Executor.Step rules) .init executor
      (fun s => s.ResultInv ∧ s.PlaceInv ∧ s.DispatchInv) where
  invariant := fun _ hr => ⟨reach_resultInv hr, reach_placeInv hr, reach_dispatchInv hr⟩
  start := fun _ => init_executor
  next := fun _ _ _ hinv hs => (next_cases hs).executor hinv.1 hinv.2.1 hinv.2.2

/-- **A context is an executor.**  Whatever the threads, their interleaving, the handlers and the
    kernel do: the submissions, cancellations, completions, handler invocations and handler ends
    that are seen of a run, with their results, are a run of the executor, which ends in the stages
    that the context's state means. -/
theorem executor_refined (h : Trace M tr s) : Steps (Executor.Step rules) .init tr s.executor :=
  (executor_simulation M).refines h

/-- A wait on descriptor 3 is scheduled, a completion is posted, the wait is cancelled, and
    `run_once` runs the completion and posts the cancelled wait. -/
def cancelThenRunOnce (t : Fin n) : List (Label K n) :=
  [.thread t (.schedule ⟨1, 3, .timerExpiryOrEvent⟩), .thread t .callNotify,
    .thread t (.post 7), .thread t .callWake, .thread t .callNotify,
    .thread t (.cancel 3 2), .thread t .callWake, .thread t .callNotify,
    .thread t .enterRunOnce, .thread t .take, .thread t .drain, .thread t .invoke,
    .thread t .handlerReturn, .thread t .drain, .thread t .readMore, .thread t .checkScheduler,
    .thread t .pollCancel]

/-- A run of the executor that the context makes: a wait is cancelled while another completion is
    dispatched, and completes with the cancelled result. -/
theorem executor_refined_cancelled :
    ∃ x, Steps (Executor.Step rules) .init
      [.submit (.io ⟨1, 3, .timerExpiryOrEvent⟩), .submit (.plain 7), .complete (.plain 7) none,
        .cancel 3, .start (.plain 7) none, .finish (.plain 7),
        .complete (.io ⟨1, 3, .timerExpiryOrEvent⟩) (some cancelledResult)] x ∧
      x.stage (.plain 7) = .finished none := by
  have hrun : ∃ tr, ∃ s : ContextThread Unit 1, Trace quietKernel tr s ∧
      decide (tr = [.submit (.io ⟨1, 3, .timerExpiryOrEvent⟩), .submit (.plain 7),
          .complete (.plain 7) none, .cancel 3, .start (.plain 7) none, .finish (.plain 7),
          .complete (.io ⟨1, 3, .timerExpiryOrEvent⟩) (some cancelledResult)] ∧
        s.stage (.plain 7) = .finished none) = true :=
    Transition.exists_traced (quietContext_init 1) (cancelThenRunOnce 0) _ (by decide)
  obtain ⟨tr, s, htr, hp⟩ := hrun
  obtain ⟨rfl, hstage⟩ := of_decide_eq_true hp
  exact ⟨s.executor, executor_refined htr, hstage⟩

/-- **The life of an operation.**  Along every run, what is seen of an operation is an initial piece
    of: submitted, completed, started with the same result, finished (so each at most once, in this
    order).  The result is the cancelled one exactly if its descriptor was cancelled after it was
    submitted and before it was completed. -/
theorem life_cycle (h : Trace M tr s) (op : AnyAsyncOperation) :
    (∃ r, Executor.eventsOf op tr <+: [.submit op, .complete op r, .start op r, .finish op]) ∧
    Executor.Lived op (s.stage op) (Executor.eventsOf op tr) ∧
    ∀ a r b, tr = a ++ .complete op r :: b →
      (r = some cancelledResult ↔
        ∃ c d fd, rules.source op = some fd ∧ a = c ++ .cancel fd :: d ∧ .submit op ∈ c) := by
  have hsteps := (executor_simulation M).refines h
  have hlived := Executor.Steps.history hsteps op
  refine ⟨hlived.initial, hlived, fun a r b htr => ?_⟩
  exact Executor.Steps.completed_iff hsteps htr

/-- The cancelled wait of the same run. -/
theorem life_cycle_cancelled :
    ∃ tr, ∃ s : ContextThread Unit 1, Trace quietKernel tr s ∧
      Executor.eventsOf (.io ⟨1, 3, .timerExpiryOrEvent⟩) tr
        = [.submit (.io ⟨1, 3, .timerExpiryOrEvent⟩),
          .complete (.io ⟨1, 3, .timerExpiryOrEvent⟩) (some cancelledResult)] := by
  have hrun : ∃ tr, ∃ s : ContextThread Unit 1, Trace quietKernel tr s ∧
      decide (s.stage (.io ⟨1, 3, .timerExpiryOrEvent⟩) = .ready (some cancelledResult)) = true :=
    Transition.exists_traced (quietContext_init 1) (cancelThenRunOnce 0) _ (by decide)
  obtain ⟨tr, s, htr, hp⟩ := hrun
  have hlived := (life_cycle htr (.io ⟨1, 3, .timerExpiryOrEvent⟩)).2.1
  rw [of_decide_eq_true hp] at hlived
  exact ⟨tr, s, htr, hlived⟩

end ContextThread

end Exios
