import Exios.Base.Placement
import Exios.Context.Results

namespace Exios

open Placement (Placed)

/-!
# Context — where an operation is

An operation handed to `post` or `schedule` travels through the scheduler's list, the
completion queue and one thread's batch until its storage is released, by `dispatch` or by
`discard`.

* `PlaceInv` — every operation is in exactly one of these places; its handler is invoked at
  most once, after the release;
* `exactly_once` — the invariant in every reachable state, and what is left after the
  destructor: everything was released exactly once.
-/

/-- The storage that an event of the log releases. -/
def Consumption.released? : Consumption → Option AnyAsyncOperation
  | .released op => some op
  | .invoked _ _ => none

/-- The handler that an event of the log invokes. -/
def Consumption.invoked? : Consumption → Option AnyAsyncOperation
  | .released _ => none
  | .invoked op _ => some op

/-- The positions at which `tmp` may hold operations. -/
def Pc.holdsBatch : Pc → Bool
  | .drain | .invoke _ | .handler _ | .putBack => true
  | _ => false

/-- The places an operation can be in. -/
inductive Place (n : Nat)
  | scheduler
  | queue
  | batch (t : Fin n)
  | consumed
deriving DecidableEq

namespace ContextThread

variable {K : Type} {n : Nat} {M : Kernel K} {s s' : ContextThread K n} {t : Fin n}

/-- The operations whose storage was released, oldest first. -/
def released (s : ContextThread K n) : List AnyAsyncOperation := s.log.filterMap Consumption.released?

/-- The operations whose handler was invoked, oldest first. -/
def invoked (s : ContextThread K n) : List AnyAsyncOperation := s.log.filterMap Consumption.invoked?

/-- What is in each place. -/
def place (s : ContextThread K n) : Place n → List AnyAsyncOperation
  | .scheduler => s.sched.io.operations.map AnyAsyncOperation.io
  | .queue => s.completionQueue
  | .batch t => (s.threads t).batch
  | .consumed => s.released

/-- In the log, the storage of an operation is released before its handler is invoked. -/
def Ordered (log : List Consumption) : Prop :=
  ∀ l₁ l₂ op r, log = l₁ ++ .invoked op r :: l₂ → .released op ∈ l₁

/-- A release may come at any time. -/
theorem Ordered.released {log : List Consumption} (h : Ordered log) (op : AnyAsyncOperation) :
    Ordered (log ++ [.released op]) := by
  intro l₁ l₂ x r heq
  rcases List.eq_nil_or_concat l₂ with rfl | ⟨init, y, rfl⟩
  · have hlast := congrArg List.getLast? heq
    simp at hlast
  · have hpre : log = l₁ ++ .invoked x r :: init := by
      rw [List.concat_eq_append, ← List.cons_append, ← List.append_assoc] at heq
      exact (List.append_inj' heq rfl).1
    exact h l₁ init x r hpre

/-- An invocation comes after its release. -/
theorem Ordered.invoked {log : List Consumption} (h : Ordered log) {op : AnyAsyncOperation}
    (hop : .released op ∈ log) (r : Option IoResult) : Ordered (log ++ [.invoked op r]) := by
  intro l₁ l₂ x r' heq
  rcases List.eq_nil_or_concat l₂ with rfl | ⟨init, y, rfl⟩
  · obtain ⟨hlog, hlast⟩ := List.append_inj' heq rfl
    rw [List.cons.injEq, Consumption.invoked.injEq] at hlast
    rw [← hlog, ← hlast.1.1]
    exact hop
  · have hpre : log = l₁ ++ .invoked x r' :: init := by
      rw [List.concat_eq_append, ← List.cons_append, ← List.append_assoc] at heq
      exact (List.append_inj' heq rfl).1
    exact h l₁ init x r' hpre

/-- Any number of releases may come. -/
theorem Ordered.append_released {log : List Consumption} (h : Ordered log)
    (ops : List AnyAsyncOperation) : Ordered (log ++ ops.map .released) := by
  induction ops generalizing log with
  | nil => simpa using h
  | cons op ops ih =>
    have := ih (h.released op)
    simpa using this

/-- The invariant of the places. -/
structure PlaceInv (s : ContextThread K n) : Prop where
  placed : Placed s.handed s.place
  scheduled : ∀ op, .io op ∈ s.handed ↔ op ∈ s.sched.scheduled
  holds : ∀ u, (s.threads u).batch = [] ∨ (s.threads u).pc.holdsBatch = true
  invoking : ∀ u op, (s.threads u).pc = .invoke op → op ∈ s.released ∧ op ∉ s.invoked
  invoking_inj : ∀ u v op, (s.threads u).pc = .invoke op → (s.threads v).pc = .invoke op → u = v
  invoked_sub : ∀ op ∈ s.invoked, op ∈ s.released
  invoked_nodup : s.invoked.Nodup
  ordered : Ordered s.log
  destroyed : s.destroyed = true →
    s.completionQueue = [] ∧ s.sched.io.operations = [] ∧ ∀ u, (s.threads u).batch = []

namespace PlaceInv

/-- Outside the draining of a batch, a thread has none. -/
theorem batch_nil (h : s.PlaceInv) (hpc : (s.threads t).pc.holdsBatch = false) :
    (s.threads t).batch = [] :=
  (h.holds t).resolve_right (by simp [hpc])

/-- Mutexes and counters are not part of the invariant. -/
theorem shared (h : s.PlaceInv) (sm dm : Option (Fin n)) (rc tw : Nat) :
    ({ s with schedMutex := sm, dataMutex := dm, remainingCount := rc,
              threadsWaiting := tw }).PlaceInv :=
  ⟨h.placed.congr (fun p => by cases p <;> exact .refl _), h.scheduled, h.holds, h.invoking,
    h.invoking_inj, h.invoked_sub, h.invoked_nodup, h.ordered, h.destroyed⟩

/-- A step of the scheduler that keeps its list, up to the order. -/
theorem withSched (h : s.PlaceInv) {sched : Sched K}
    (hops : sched.io.operations.Perm s.sched.io.operations)
    (hscheduled : sched.scheduled = s.sched.scheduled) : ({ s with sched := sched }).PlaceInv where
  placed := by
    refine h.placed.congr (fun p => ?_)
    cases p with
    | scheduler => exact hops.map _
    | queue | batch | consumed => exact .refl _
  scheduled := by
    show ∀ op, .io op ∈ s.handed ↔ op ∈ sched.scheduled
    rw [hscheduled]
    exact h.scheduled
  holds := h.holds
  invoking := h.invoking
  invoking_inj := h.invoking_inj
  invoked_sub := h.invoked_sub
  invoked_nodup := h.invoked_nodup
  ordered := h.ordered
  destroyed := by
    intro hd
    obtain ⟨hq, ho, hb⟩ := h.destroyed hd
    rw [ho] at hops
    exact ⟨hq, hops.eq_nil, hb⟩

/-- Threads go on without touching their batches, and not to an invocation. -/
theorem withThreads (h : s.PlaceInv) {threads : Fin n → Thread}
    (hbatch : ∀ u, (threads u).batch = (s.threads u).batch)
    (hholds : ∀ u, (s.threads u).batch = [] ∨ (threads u).pc.holdsBatch = true)
    (hinvoke : ∀ u op, (threads u).pc = .invoke op → (s.threads u).pc = .invoke op) :
    ({ s with threads := threads }).PlaceInv where
  placed := by
    refine h.placed.congr (fun p => ?_)
    cases p with
    | batch u =>
      show List.Perm (threads u).batch (s.threads u).batch
      rw [hbatch]
    | scheduler | queue | consumed => exact .refl _
  scheduled := h.scheduled
  holds := fun u => by
    show (threads u).batch = [] ∨ _
    rw [hbatch]
    exact hholds u
  invoking := fun u op hop => h.invoking u op (hinvoke u op hop)
  invoking_inj := fun u v op hu hv => h.invoking_inj u v op (hinvoke u op hu) (hinvoke v op hv)
  invoked_sub := h.invoked_sub
  invoked_nodup := h.invoked_nodup
  ordered := h.ordered
  destroyed := fun hd => by
    obtain ⟨hq, ho, hb⟩ := h.destroyed hd
    exact ⟨hq, ho, fun u => (hbatch u).trans (hb u)⟩

/-- A thread moves between positions that hold the same operations. -/
theorem mapThread (h : s.PlaceInv) {f : Thread → Thread} (hbatch : ∀ th, (f th).batch = th.batch)
    (hholds : (s.threads t).batch = [] ∨ (f (s.threads t)).pc.holdsBatch = true)
    (hpc : ∀ op, (f (s.threads t)).pc = .invoke op → (s.threads t).pc = .invoke op) :
    (s.mapThread t f).PlaceInv := by
  refine h.withThreads ?_ ?_ ?_ <;> intro u <;>
    rw [show Function.update s.threads t (f (s.threads t)) u = (s.mapThread t f).threads u from rfl,
      mapThread_threads] <;> by_cases hu : u = t
  · rw [if_pos hu, hbatch]
  · rw [if_neg hu]
  · subst hu; rw [if_pos rfl]; exact hholds
  · rw [if_neg hu]; exact h.holds u
  · subst hu; rw [if_pos rfl]; exact hpc
  · rw [if_neg hu]; exact fun _ hop => hop

/-- A thread goes on to a position where its batch may be, and which holds no other operation. -/
theorem goto (h : s.PlaceInv) {pc : Pc}
    (hholds : (s.threads t).batch = [] ∨ pc.holdsBatch = true) (hpc : ∀ op, pc ≠ .invoke op) :
    (s.goto t pc).PlaceInv :=
  h.mapThread (fun _ => rfl) hholds (fun op hop => absurd hop (hpc op))

/-- A call holds no operation. -/
theorem setCall (h : s.PlaceInv) (call : Call) : (s.setCall t call).PlaceInv :=
  h.mapThread (fun _ => rfl) (h.holds t) (fun _ hop => hop)

/-- Being woken up holds no operation either. -/
theorem notifyAll (h : s.PlaceInv) : s.notifyAll.PlaceInv := by
  refine h.withThreads (fun u => notifyAll_batch s u) (fun u => ?_) (fun u op => ?_) <;>
    rw [show (if (s.threads u).pc = .asleep then { s.threads u with pc := Pc.woken }
      else s.threads u) = s.notifyAll.threads u from rfl, notifyAll_pc]
  · split
    · rename_i hpc
      exact Or.inl (h.batch_nil (by rw [hpc]; rfl))
    · exact h.holds u
  · split
    · exact fun hop => absurd hop (by simp)
    · exact id

/-- What the scheduler posts moves from its list to the queue. -/
theorem enqueue (h : s.PlaceInv) (hlive : s.destroyed = false) {sched : Sched K}
    {ops : List AsyncIoOperation}
    (hops : s.sched.io.operations.Perm (sched.io.operations ++ ops))
    (hscheduled : sched.scheduled = s.sched.scheduled) :
    (({ s with sched := sched }).enqueue ops).PlaceInv := by
  unfold ContextThread.enqueue
  split
  · rename_i hnil
    subst hnil
    rw [List.append_nil] at hops
    exact h.withSched hops.symm hscheduled
  · apply notifyAll
    refine ⟨?_, ?_, h.holds, h.invoking, h.invoking_inj, h.invoked_sub, h.invoked_nodup, h.ordered,
      fun hd => absurd hd (by simp [hlive])⟩
    · refine h.placed.move (show Place.scheduler ≠ Place.queue by simp) ?_ ?_
      · show List.Perm (sched.io.operations.map AnyAsyncOperation.io
          ++ (s.completionQueue ++ ops.map AnyAsyncOperation.io))
          (s.sched.io.operations.map AnyAsyncOperation.io ++ s.completionQueue)
        refine List.Perm.trans ?_ ((hops.map AnyAsyncOperation.io).symm.append_right _)
        rw [List.map_append, List.append_assoc]
        exact List.perm_append_comm.append_left _
      · intro r hr hr'
        cases r with
        | scheduler => exact absurd rfl hr
        | queue => exact absurd rfl hr'
        | batch | consumed => rfl
    · show ∀ op, .io op ∈ s.handed ↔ op ∈ sched.scheduled
      rw [hscheduled]
      exact h.scheduled

theorem wake (h : s.PlaceInv) : s.wake.PlaceInv := h.withSched (.refl _) rfl

end PlaceInv

/-- A constructed context has operations nowhere. -/
theorem init_placeInv (h : Init s) : s.PlaceInv := by
  obtain ⟨⟨wakeFd, k, hsched⟩, hs⟩ := h
  rw [hs, hsched]
  exact
    { placed := .empty (fun p => by cases p <;> rfl)
      scheduled := by simp
      holds := fun _ => Or.inl rfl
      invoking := by simp [idle]
      invoking_inj := by simp [idle]
      invoked_sub := by simp [ContextThread.invoked]
      invoked_nodup := List.nodup_nil
      ordered := by simp [Ordered]
      destroyed := by simp }

/-! ### Steps -/

/-- A longer log has released more. -/
theorem released_append (s : ContextThread K n) (l : List Consumption) :
    ({ s with log := s.log ++ l }).released = s.released ++ l.filterMap Consumption.released? := by
  simp [released, List.filterMap_append]

/-- A longer log has invoked more. -/
theorem invoked_append (s : ContextThread K n) (l : List Consumption) :
    ({ s with log := s.log ++ l }).invoked = s.invoked ++ l.filterMap Consumption.invoked? := by
  simp [invoked, List.filterMap_append]

/-- A thread's step may change its own batch. -/
theorem mapThread_place_self (s : ContextThread K n) (t : Fin n) (f : Thread → Thread) :
    (s.mapThread t f).place (.batch t) = (f (s.threads t)).batch := by
  show ((s.mapThread t f).threads t).batch = _
  rw [mapThread_threads, if_pos rfl]

/-- It leaves the other places as they are. -/
theorem mapThread_place_ne (s : ContextThread K n) (t : Fin n) (f : Thread → Thread) {p : Place n}
    (hp : p ≠ .batch t) : (s.mapThread t f).place p = s.place p := by
  cases p with
  | batch u =>
    have hu : u ≠ t := fun hu => hp (by rw [hu])
    show ((s.mapThread t f).threads u).batch = _
    rw [mapThread_threads, if_neg hu]
    rfl
  | scheduler | queue | consumed => rfl

/-- A thread exchanges operations between its batch and another place `q`. -/
theorem PlaceInv.exchange (h : s.PlaceInv) {s₁ : ContextThread K n} {f : Thread → Thread}
    {q : Place n} (hq : q ≠ .batch t) (hthreads : s₁.threads = s.threads)
    (hhanded : s₁.handed = s.handed)
    (hother : ∀ p, p ≠ q → s₁.place p = s.place p)
    (hperm : ((f (s.threads t)).batch ++ s₁.place q).Perm ((s.threads t).batch ++ s.place q)) :
    Placed (s₁.mapThread t f).handed (s₁.mapThread t f).place := by
  show Placed s₁.handed _
  rw [hhanded]
  refine h.placed.move hq.symm ?_ ?_
  · rw [mapThread_place_self, mapThread_place_ne _ _ _ hq, hthreads]
    exact hperm
  · intro p hp hpq
    rw [mapThread_place_ne _ _ _ hp, hother p hpq]

/-- A step of a thread that does not touch the log and does not go to an invocation. -/
theorem PlaceInv.transfer (h : s.PlaceInv) {s₁ : ContextThread K n} {f : Thread → Thread}
    (hthreads : s₁.threads = s.threads) (hlog : s₁.log = s.log) (hlive : s₁.destroyed = false)
    (hplaced : Placed (s₁.mapThread t f).handed (s₁.mapThread t f).place)
    (hscheduled : ∀ op, .io op ∈ s₁.handed ↔ op ∈ s₁.sched.scheduled)
    (hholds : (f (s.threads t)).batch = [] ∨ (f (s.threads t)).pc.holdsBatch = true)
    (hpc : ∀ op, (f (s.threads t)).pc ≠ .invoke op) : (s₁.mapThread t f).PlaceInv := by
  have hth : ∀ u, (s₁.mapThread t f).threads u = if u = t then f (s.threads u) else s.threads u := by
    intro u
    rw [mapThread_threads, hthreads]
  have hinvoke : ∀ u op, ((s₁.mapThread t f).threads u).pc = .invoke op →
      (s.threads u).pc = .invoke op := by
    intro u op hop
    rw [hth] at hop
    split at hop
    · rename_i hu
      subst hu
      exact absurd hop (hpc op)
    · exact hop
  have hreleased : (s₁.mapThread t f).released = s.released :=
    congrArg (List.filterMap Consumption.released?) hlog
  have hinvoked : (s₁.mapThread t f).invoked = s.invoked :=
    congrArg (List.filterMap Consumption.invoked?) hlog
  refine ⟨hplaced, hscheduled, ?_, ?_, ?_, ?_, ?_, ?_, ?_⟩
  · intro u
    rw [hth]
    split
    · rename_i hu
      subst hu
      exact hholds
    · exact h.holds u
  · intro u op hop
    rw [hreleased, hinvoked]
    exact h.invoking u op (hinvoke u op hop)
  · exact fun u v op hu hv => h.invoking_inj u v op (hinvoke u op hu) (hinvoke v op hv)
  · rw [hreleased, hinvoked]; exact h.invoked_sub
  · rw [hinvoked]; exact h.invoked_nodup
  · show Ordered s₁.log
    rw [hlog]
    exact h.ordered
  · intro hd
    rw [show (s₁.mapThread t f).destroyed = s₁.destroyed from rfl, hlive] at hd
    exact absurd hd (by simp)

/-- A thread goes to the invocation of an operation that no thread is about to invoke. -/
theorem PlaceInv.invoking_inj_goto (h : s.PlaceInv) {s₁ : ContextThread K n} {f : Thread → Thread}
    {op : AnyAsyncOperation} (hthreads : s₁.threads = s.threads)
    (hpc : (f (s.threads t)).pc = .invoke op) (hfresh : ∀ u, (s.threads u).pc ≠ .invoke op) :
    ∀ u v x, ((s₁.mapThread t f).threads u).pc = .invoke x →
      ((s₁.mapThread t f).threads v).pc = .invoke x → u = v := by
  intro u v x hu hv
  rw [mapThread_threads, hthreads] at hu hv
  by_cases hut : u = t <;> by_cases hvt : v = t
  · rw [hut, hvt]
  · -- the operation that `t` takes is new, so nobody else has it
    subst hut
    rw [if_pos rfl, hpc, Pc.invoke.injEq] at hu
    rw [if_neg hvt, ← hu] at hv
    exact absurd hv (hfresh v)
  · subst hvt
    rw [if_pos rfl, hpc, Pc.invoke.injEq] at hv
    rw [if_neg hut, ← hv] at hu
    exact absurd hu (hfresh u)
  · rw [if_neg hut] at hu
    rw [if_neg hvt] at hv
    exact h.invoking_inj u v x hu hv

/-- `drain_list` takes an operation off the batch and `dispatch` releases it. -/
theorem popFront_placeInv (h : s.PlaceInv) (hlive : s.destroyed = false) {op : AnyAsyncOperation}
    {rest : List AnyAsyncOperation} (hpc : (s.threads t).pc = .drain)
    (hbatch : (s.threads t).batch = op :: rest) :
    (({ s with log := s.log ++ [Consumption.released op] }).mapThread t (fun th =>
      { th with pc := .invoke op, batch := rest })).PlaceInv := by
  -- the operation was in the batch, so it has not been released or invoked before
  have hmem : op ∈ s.place (.batch t) := by
    show op ∈ (s.threads t).batch
    rw [hbatch]
    exact List.mem_cons_self
  have hnotReleased : op ∉ s.released := h.placed.not_mem (q := .consumed) (by simp) hmem
  have hnotInvoked : op ∉ s.invoked := fun hm => hnotReleased (h.invoked_sub op hm)
  generalize hf : (fun th : Thread => { th with pc := Pc.invoke op, batch := rest }) = f
  have hfpc : (f (s.threads t)).pc = .invoke op := by rw [← hf]
  have hfbatch : (f (s.threads t)).batch = rest := by rw [← hf]
  have hreleased : (({ s with log := s.log ++ [Consumption.released op] }).mapThread t f).released
      = s.released ++ [op] := released_append s [.released op]
  have hinvoked : (({ s with log := s.log ++ [Consumption.released op] }).mapThread t f).invoked
      = s.invoked := by
    refine (invoked_append s [.released op]).trans ?_
    simp [Consumption.invoked?]
  refine ⟨?_, h.scheduled, ?_, ?_, ?_, ?_, ?_, h.ordered.released op, ?_⟩
  · refine h.exchange (q := .consumed) (by simp) rfl rfl ?_ ?_
    · intro p hp
      cases p with
      | consumed => exact absurd rfl hp
      | scheduler | queue | batch => rfl
    · rw [hbatch, hfbatch]
      show List.Perm (rest ++ ContextThread.released _) ((op :: rest) ++ s.released)
      rw [released_append s [.released op], ← List.append_assoc, List.cons_append]
      exact List.perm_append_singleton op _
  · intro u
    rw [mapThread_threads]
    split
    · rename_i hu
      subst hu
      exact Or.inr (by rw [hfpc]; rfl)
    · exact h.holds u
  · intro u x hx
    rw [hreleased, hinvoked]
    rw [mapThread_threads] at hx
    split at hx
    · rename_i hu
      subst hu
      rw [hfpc, Pc.invoke.injEq] at hx
      subst hx
      exact ⟨by simp, hnotInvoked⟩
    · exact ⟨List.mem_append_left _ (h.invoking u x hx).1, (h.invoking u x hx).2⟩
  · -- another thread that is about to invoke `op` would have released it before
    exact h.invoking_inj_goto rfl hfpc (fun u hu => hnotReleased (h.invoking u op hu).1)
  · rw [hreleased, hinvoked]
    exact fun x hx => List.mem_append_left _ (h.invoked_sub x hx)
  · rw [hinvoked]
    exact h.invoked_nodup
  · exact fun hd => absurd (show s.destroyed = true from hd) (by simp [hlive])

/-- `dispatch` invokes the handler. -/
theorem invoke_placeInv (h : s.PlaceInv) (hlive : s.destroyed = false) {op : AnyAsyncOperation}
    (hpc : (s.threads t).pc = .invoke op) (result : Option IoResult) :
    (({ s with log := s.log ++ [Consumption.invoked op result] }).goto t (.handler op)).PlaceInv := by
  obtain ⟨hop, hnot⟩ := h.invoking t op hpc
  have hreleased : (({ s with log := s.log ++ [Consumption.invoked op result] }).goto t
      (.handler op)).released = s.released := by
    refine (released_append s [.invoked op result]).trans ?_
    simp [Consumption.released?]
  have hinvoked : (({ s with log := s.log ++ [Consumption.invoked op result] }).goto t
      (.handler op)).invoked = s.invoked ++ [op] := invoked_append s [.invoked op result]
  have hinvoke : ∀ u x, ((({ s with log := s.log ++ [Consumption.invoked op result] }).goto t
      (.handler op)).threads u).pc = .invoke x → u ≠ t ∧ (s.threads u).pc = .invoke x := by
    intro u x hx
    rw [goto_pc] at hx
    split at hx
    · exact absurd hx (by simp)
    · rename_i hu
      exact ⟨hu, hx⟩
  refine ⟨?_, h.scheduled, ?_, ?_, ?_, ?_, ?_, ?_, ?_⟩
  · -- nothing moves: the operation was consumed by its release
    refine h.placed.congr (fun p => ?_)
    cases p with
    | batch u =>
      show List.Perm (ContextThread.threads _ u).batch _
      rw [goto_batch]
      exact .refl _
    | consumed =>
      show List.Perm (ContextThread.released _) _
      rw [hreleased]
      exact .refl _
    | scheduler | queue => exact .refl _
  · intro u
    rw [goto_pc, goto_batch]
    split
    · exact Or.inr rfl
    · exact h.holds u
  · intro u x hx
    obtain ⟨hu, hx'⟩ := hinvoke u x hx
    rw [hreleased, hinvoked]
    refine ⟨(h.invoking u x hx').1, ?_⟩
    rw [List.mem_append, List.mem_singleton, not_or]
    refine ⟨(h.invoking u x hx').2, ?_⟩
    rintro rfl
    exact hu (h.invoking_inj u t x hx' hpc)
  · exact fun u v x hu hv => h.invoking_inj u v x (hinvoke u x hu).2 (hinvoke v x hv).2
  · -- the thread invokes an operation that it had released
    rw [hreleased, hinvoked]
    intro x hx
    rcases List.mem_append.mp hx with hx | hx
    · exact h.invoked_sub x hx
    · rw [List.mem_singleton] at hx
      exact hx ▸ hop
  · rw [hinvoked, List.nodup_append']
    exact ⟨h.invoked_nodup, List.nodup_singleton op, by simpa using hnot⟩
  · refine h.ordered.invoked ?_ result
    obtain ⟨e, he, heq⟩ := List.mem_filterMap.mp hop
    cases e with
    | released x =>
      simp only [Consumption.released?, Option.some.injEq] at heq
      exact heq ▸ he
    | invoked x r => exact absurd heq (by simp [Consumption.released?])
  · exact fun hd => absurd (show s.destroyed = true from hd) (by simp [hlive])

/-- The steps inside `run`, `run_once` and `poll_once`. -/
theorem run_placeInv (hres : s.ResultInv) (h : s.PlaceInv) (hlive : s.destroyed = false) {a : Act}
    (hs : RunStep M s t a s') : s'.PlaceInv := by
  have hinv := hres.live hlive
  cases hs with
  -- a thread that is not draining has an empty batch, so moving it moves no operation
  | enterRun hpc | enterRunOnce hpc =>
    exact h.mapThread (fun _ => rfl) (Or.inl (h.batch_nil (by rw [hpc]; rfl))) (by simp)
  | handlerReturn hpc => exact h.mapThread (fun _ => rfl) (Or.inr rfl) (by simp)
  | handlerThrow hpc => exact h.goto (Or.inr rfl) (by simp)
  | loop hpc | checkScheduler hpc =>
    apply h.goto (Or.inl (h.batch_nil (by rw [hpc]; rfl)))
    split <;> simp
  | testGo hpc | evaluateFalse hpc | spuriousWake hpc | readMore hpc | epollReturn hpc
  | epollFail hpc =>
    exact h.goto (Or.inl (h.batch_nil (by rw [hpc]; rfl))) (by simp)
  | drained hpc hbatch | putBackNone hpc hbatch => exact h.goto (Or.inl hbatch) (by simp)
  | testWait hpc | evaluateTrue hpc | sleep hpc | relock hpc | announce hpc | retireThrow hpc
  | retire hpc =>
    exact (h.shared _ _ _ _).goto (Or.inl (h.batch_nil (by rw [hpc]; rfl))) (by simp)
  | guardNotify hpc =>
    refine h.notifyAll.mapThread (fun _ => rfl) (Or.inl ?_) ?_
    · rw [notifyAll_batch]
      exact h.batch_nil (by rw [hpc]; rfl)
    · intro op hop
      split at hop <;> exact absurd hop (by simp)
  | exitWake hpc => exact h.wake.goto (Or.inl (h.batch_nil (by rw [hpc]; rfl))) (by simp)
  | exitNotify hpc =>
    refine h.notifyAll.goto (Or.inl ?_) (by simp)
    rw [notifyAll_batch]
    exact h.batch_nil (by rw [hpc]; rfl)
  -- `queue → batch`: the batch was empty, the queue becomes it
  | take hpc hfree =>
    have hnil := h.batch_nil (t := t) (by rw [hpc]; rfl)
    refine h.transfer rfl rfl hlive ?_ h.scheduled (Or.inr rfl) (by simp)
    refine h.exchange (q := .queue) (by simp) rfl rfl ?_ ?_
    · intro p hp
      cases p with
      | queue => exact absurd rfl hp
      | scheduler | batch | consumed => rfl
    · show List.Perm (s.completionQueue ++ []) ((s.threads t).batch ++ s.completionQueue)
      rw [hnil, List.append_nil]
      exact .refl _
  -- `batch → consumed`
  | popFront hpc hbatch => exact popFront_placeInv h hlive hpc hbatch
  | invoke hpc hdeliver => exact invoke_placeInv h hlive hpc _
  -- `scheduler → queue`, in both sections of `poll_once`
  | @pollCancel block sched p hpc hfree hpoll hpost =>
    obtain ⟨-, hposted, hscheduled⟩ := Sched.pollCancellations_extends hpoll
    have hperm := hinv.operations_perm (Sched.pollCancellations_inv hinv hpoll) hscheduled hposted
    refine (h.enqueue hlive hperm hscheduled).goto (Or.inl ?_) ?_
    · rw [enqueue_batch]
      exact h.batch_nil (by rw [hpc]; rfl)
    · split <;> simp
  | @notifications block events sched r hpc hfree hpoll hpost =>
    obtain ⟨-, hposted, hscheduled⟩ := Sched.pollNotifications_extends hinv hpoll
    have hperm := hinv.operations_perm (Sched.pollNotifications_inv hinv hpoll) hscheduled hposted
    refine (h.enqueue hlive hperm hscheduled).goto (Or.inl ?_) ?_
    · rw [enqueue_batch]
      exact h.batch_nil (by rw [hpc]; rfl)
    · split <;> simp
  -- `batch → queue`, in front of what was posted meanwhile
  | putBack hpc hfree =>
    refine h.transfer rfl rfl hlive ?_ h.scheduled (Or.inl rfl) (by simp)
    refine h.exchange (q := .queue) (by simp) rfl rfl ?_ ?_
    · intro p hp
      cases p with
      | queue => exact absurd rfl hp
      | scheduler | batch | consumed => rfl
    · exact .refl _

/-- The first step of an API call. -/
theorem call_placeInv (hres : s.ResultInv) (h : s.PlaceInv) (hlive : s.destroyed = false) {a : Act}
    (hs : CallStep M s t a s') : s'.PlaceInv := by
  have hinv := hres.live hlive
  cases hs with
  -- a new operation enters at the queue
  | @post addr hfree hnew =>
    refine PlaceInv.setCall ?_ _
    refine ⟨?_, ?_, h.holds, h.invoking, h.invoking_inj, h.invoked_sub, h.invoked_nodup, h.ordered,
      fun hd => absurd hd (by simp [hlive])⟩
    · apply h.placed.add (p := .queue) hnew (List.perm_append_singleton _ _)
      intro p hp
      cases p with
      | queue => exact absurd rfl hp
      | scheduler | batch | consumed => rfl
    · intro op
      rw [← h.scheduled op]
      simp
  -- a new operation enters at the scheduler
  | @schedule op sched hfree hnew hsched =>
    have hio : AnyAsyncOperation.io op ∉ s.handed := fun hm => hnew ((h.scheduled op).mp hm)
    obtain ⟨io, hio', rfl⟩ := Sched.schedule_cases hsched
    have hperm := (IoScheduler.schedule_perm hinv.rep hio').1
    refine PlaceInv.setCall ?_ _
    refine ⟨?_, ?_, h.holds, h.invoking, h.invoking_inj, h.invoked_sub, h.invoked_nodup, h.ordered,
      fun hd => absurd hd (by simp [hlive])⟩
    · apply h.placed.add (p := .scheduler) hio (hperm.map AnyAsyncOperation.io)
      intro p hp
      cases p with
      | scheduler => exact absurd rfl hp
      | queue | batch | consumed => rfl
    · intro x
      show .io x ∈ s.handed ++ [.io op] ↔ x ∈ s.sched.scheduled ++ [op]
      simp [h.scheduled x]
  -- `cancel` reorders the scheduler's list
  | cancel hfree hcancel =>
    obtain ⟨io, hio, rfl⟩ := Sched.cancel_cases hcancel
    have hperm := hinv.operations_perm (Sched.cancel_inv hinv hcancel) rfl (List.append_nil _).symm
    rw [List.append_nil] at hperm
    exact ((h.withSched hperm.symm rfl).shared _ _ _ _).setCall _
  | cancelNothing hcancel =>
    obtain ⟨io, hio, rfl⟩ := Sched.cancel_cases hcancel
    have hperm := hinv.operations_perm (Sched.cancel_inv hinv hcancel) rfl (List.append_nil _).symm
    rw [List.append_nil] at hperm
    exact h.withSched hperm.symm rfl
  | latchWork => exact h.shared _ _ _ _
  | releaseWork hpos => exact (h.shared _ _ _ _).setCall _

/-- The later steps of an API call. -/
theorem rest_placeInv (h : s.PlaceInv) {a : Act} (hs : CallRest s t a s') : s'.PlaceInv := by
  cases hs with
  | postWake | cancelWake | releaseWake => exact h.wake.setCall _
  | postNotify | scheduleNotify | cancelNotify => exact (h.shared _ _ _ _).notifyAll.setCall _
  | releaseNotify => exact h.notifyAll.setCall _

theorem filterMap_released (ops : List AnyAsyncOperation) :
    (ops.map Consumption.released).filterMap Consumption.released? = ops := by
  rw [List.filterMap_map]
  exact List.filterMap_some

theorem filterMap_invoked (ops : List AnyAsyncOperation) :
    (ops.map Consumption.released).filterMap Consumption.invoked? = [] := by
  rw [List.filterMap_map]
  exact List.filterMap_none ops

/-- The destructor only adds releases to the log. -/
theorem destroy_log (s : ContextThread K n) :
    s.destroy.log = s.log ++ (s.completionQueue ++
      s.sched.io.operations.map AnyAsyncOperation.io).map Consumption.released := by
  show s.log ++ _ ++ _ = _
  rw [List.map_append, List.map_map, List.append_assoc]
  rfl

/-- The destructor invokes no handler. -/
theorem destroy_invoked (s : ContextThread K n) : s.destroy.invoked = s.invoked := by
  unfold invoked
  rw [destroy_log, List.filterMap_append, filterMap_invoked, List.append_nil]

/-- The destructor releases what the queue and the scheduler hold. -/
theorem destroy_released (s : ContextThread K n) : s.destroy.released
    = s.released ++ (s.completionQueue ++ s.sched.io.operations.map AnyAsyncOperation.io) := by
  unfold released
  rw [destroy_log, List.filterMap_append, filterMap_released]

/-- The destructor consumes what is left in the scheduler and the queue. -/
theorem destroy_placeInv (h : s.PlaceInv) (hout : ∀ u, (s.threads u).pc = .out) :
    s.destroy.PlaceInv := by
  have hlog := s.destroy_log
  have hreleased := s.destroy_released
  have hinvoked := s.destroy_invoked
  refine ⟨?_, h.scheduled, h.holds, ?_, ?_, ?_, ?_, ?_, ?_⟩
  · -- first the queue is discarded, then the scheduler's list
    have hqueue : Placed s.handed (Function.update (Function.update s.place .queue [])
        .consumed (s.released ++ s.completionQueue)) := by
      refine h.placed.move (show Place.queue ≠ Place.consumed by simp) ?_ ?_
      · simp only [ne_eq, reduceCtorEq, not_false_eq_true, Function.update_of_ne,
          Function.update_self, List.nil_append]
        exact List.perm_append_comm
      · intro p hq hc
        rw [Function.update_of_ne hc, Function.update_of_ne hq]
    refine hqueue.move (show Place.scheduler ≠ Place.consumed by simp) ?_ ?_
    · show List.Perm ([] ++ s.destroy.released) _
      rw [hreleased]
      simp only [ne_eq, reduceCtorEq, not_false_eq_true, Function.update_of_ne,
        Function.update_self, List.nil_append]
      rw [← List.append_assoc]
      exact List.perm_append_comm
    · intro p hs hc
      cases p with
      | scheduler => exact absurd rfl hs
      | consumed => exact absurd rfl hc
      | queue | batch => rfl
  · intro u op hop
    have hpc : (s.threads u).pc = .invoke op := hop
    rw [hout u] at hpc
    exact absurd hpc (by simp)
  · exact fun u v op hu => absurd ((hout u).symm.trans hu) (by simp)
  · rw [hreleased, hinvoked]
    exact fun x hx => List.mem_append_left _ (h.invoked_sub x hx)
  · rw [hinvoked]; exact h.invoked_nodup
  · rw [hlog]; exact h.ordered.append_released _
  · exact fun _ => ⟨rfl, rfl, fun u => h.batch_nil (by rw [hout u]; rfl)⟩

/-- **The step lemma** for the places of operations. -/
theorem step_placeInv (hres : s.ResultInv) (h : s.PlaceInv) {l : Label K n} (hs : Step M s l s') :
    s'.PlaceInv := by
  cases hs with
  | run hlive hcall hs => exact run_placeInv hres h hlive hs
  | call hlive hcall huser hs => exact call_placeInv hres h hlive hs
  | rest hlive hs => exact rest_placeInv h hs
  | destroy hlive hout => exact destroy_placeInv h (fun u => (hout u).1)
  | kernel | forget => exact h.withSched (.refl _) rfl

/-- **The run lemma**: every operation handed over is in exactly one place. -/
theorem reach_placeInv {ok : ContextThread K n → Label K n → Prop} (h : Reach M ok s) :
    s.PlaceInv := by
  have hboth : s.ResultInv ∧ s.PlaceInv := by
    refine Transition.Reach.invariant (fun s => s.ResultInv ∧ s.PlaceInv) ?_ ?_ h
    · exact fun _ hi => ⟨init_resultInv hi, init_placeInv hi⟩
    · rintro s l s' ⟨hres, hplace⟩ _ hs
      exact ⟨step_resultInv hres (next_cases hs), step_placeInv hres hplace (next_cases hs)⟩
  exact hboth.2

/-! ### The result -/

/-- **Exactly-once consumption.**  In every state of every run, each operation handed to `post`
    or `schedule` is in exactly one place and once there (so its storage was released at most
    once); its handler was invoked at most once, after the release; and when the destructor
    has run, its storage was released exactly once. -/
theorem exactly_once (h : Reach M Transition.always s) :
    (∀ op ∈ s.handed, ∃! p, op ∈ s.place p) ∧ (∀ p, (s.place p).Nodup) ∧
    s.invoked.Nodup ∧
    (∀ l₁ l₂ op r, s.log = l₁ ++ .invoked op r :: l₂ → .released op ∈ l₁) ∧
    (s.destroyed = true → ∀ op ∈ s.handed, s.released.count op = 1) := by
  have hinv := reach_placeInv h
  refine ⟨fun op hop => hinv.placed.existsUnique hop, hinv.placed.nodup, hinv.invoked_nodup,
    hinv.ordered, ?_⟩
  intro hd op hop
  -- the other places are empty, so the operation is among the released ones
  obtain ⟨hq, ho, hb⟩ := hinv.destroyed hd
  apply List.count_eq_one_of_mem (hinv.placed.nodup .consumed)
  obtain ⟨p, hp⟩ := (hinv.placed.mem_iff op).mp hop
  cases p with
  | consumed => exact hp
  | scheduler =>
    have hp' : op ∈ s.sched.io.operations.map AnyAsyncOperation.io := hp
    rw [ho] at hp'
    exact absurd hp' (by simp)
  | queue =>
    have hp' : op ∈ s.completionQueue := hp
    rw [hq] at hp'
    exact absurd hp' (by simp)
  | batch u =>
    have hp' : op ∈ (s.threads u).batch := hp
    rw [hb u] at hp'
    exact absurd hp' (by simp)

/-- A handler throws in the middle of a batch: the rest goes back, and the destructor releases
    it together with a scheduled wait. -/
theorem exactly_once_after_throw :
    ∃ s : ContextThread Unit 1, s.handed = [.plain 1, .plain 2, .io ⟨3, 5, .signalRead⟩] ∧
      s.invoked = [.plain 1] ∧ ∀ op ∈ s.handed, s.released.count op = 1 := by
  have hrun : ∃ s, Reach quietKernel Transition.always s ∧
      decide (s.destroyed = true ∧ s.handed = [.plain 1, .plain 2, .io ⟨3, 5, .signalRead⟩] ∧
        s.invoked = [.plain 1]) = true :=
    Transition.exists_reach (quietContext_init 1)
      [.thread 0 (.post 1), .thread 0 .callWake, .thread 0 .callNotify,
        .thread 0 (.post 2), .thread 0 .callWake, .thread 0 .callNotify,
        .thread 0 (.schedule ⟨3, 5, .signalRead⟩), .thread 0 .callNotify,
        .thread 0 .enterRunOnce, .thread 0 .take, .thread 0 .drain, .thread 0 .invoke,
        .thread 0 .handlerThrow, .thread 0 .putBack, .thread 0 .guardNotify, .destroy] _ (by decide)
  obtain ⟨s, hs, hp⟩ := hrun
  have hp' := of_decide_eq_true hp
  exact ⟨s, hp'.2.1, hp'.2.2, (exactly_once hs).2.2.2.2 hp'.1⟩

end ContextThread

end Exios
