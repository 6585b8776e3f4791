import Exios.Context.Places
import Exios.Objects.Steps
import Exios.Scheduler.Attempts

namespace Exios

/-!
# Context — accepted descriptors

A successful `::accept` returns a plain number, which travels inside the operation's result:
from the poll that made the call, through the completion queue and the batches, to the
completion, which gives it to the target socket.

* `Sched.obtained` — the descriptors that `::accept` calls have returned;
* `Accepting` — the context with the sockets that the completions assign;
* `Accepting.leaks_iff` — the destructor leaks exactly the descriptors of the completed accepts
  that it finds in the completion queue: `discard` destroys the operation and closes nothing.
-/

/-- Only `UnixAccept` produces an accepted descriptor, and it is the one the call returned. -/
theorem io_accepted_iff {kind : IoKind} {out : SysOutcome} {n : Nat} :
    io kind out none = .ok (true, some (.ok (.accepted n))) ↔
      kind = .unixAccept ∧ out.ret = .ok n := by
  have hchecked : ∀ ok : Nat → Nat → IoValue,
      checkedIo ok out none = .ok (true, some (.ok (.accepted n))) ↔
        ∃ r, out.ret = .ok r ∧ ok r out.data = .accepted n := by
    intro ok
    unfold checkedIo
    cases out.ret with
    | error e => by_cases he : isPending e = true <;> simp [he]
    | ok r => simp
  cases kind
  -- reads, writes and signal reads never store a descriptor
  case ioRead | ioWrite =>
    simp only [io, IoRead.io, IoWrite.io, streamIo, setResult]
    cases out.ret with
    | error e => by_cases he : e = EAGAIN <;> simp [he]
    | ok r => simp
  case signalRead =>
    simp only [io, SignalRead.io]
    cases out.ret with
    | error e => by_cases he : isPending e = true <;> simp [he]
    | ok r => simp
  all_goals
    -- the others share `checkedIo`; only the accept makes an `.accepted` of what the call returned
    rw [io_eq_checkedIo (by simp), hchecked]
    simp [IoKind.okValue]

namespace Sched

variable {K : Type} {M : Kernel K} {s s' : Sched K}

/-- The operation and the descriptor, if the attempt was a successful `::accept`. -/
def acceptedIn (M : Kernel K) (a : IoScheduler.Attempt K) : Option (AsyncIoOperation × Nat) :=
  if a.op.kind = .unixAccept then
    match (M.syscall a.op a.kernel).1.ret with
    | .ok n => some (a.op, n)
    | .error _ => none
  else none

/-- The descriptors obtained from `::accept`, each with its operation. -/
def obtained (M : Kernel K) (attempts : List (IoScheduler.Attempt K)) :
    List (AsyncIoOperation × Nat) :=
  attempts.filterMap (acceptedIn M)

/-- The attempts that accept a connection: `io` completes with the descriptor that the call
    returned. -/
theorem acceptedIn_eq_some {a : IoScheduler.Attempt K} {op : AsyncIoOperation} {n : Nat} :
    acceptedIn M a = some (op, n) ↔ a.op = op ∧
      Exios.io op.kind (M.syscall op a.kernel).1 none = .ok (true, some (.ok (.accepted n))) := by
  rw [io_accepted_iff]
  unfold acceptedIn
  constructor
  · intro h
    split at h
    · -- an accept whose call returned a descriptor
      rename_i hkind
      split at h
      · rename_i m hret
        obtain ⟨rfl, rfl⟩ := Prod.mk.injEq _ _ _ _ ▸ Option.some.inj h
        exact ⟨rfl, hkind, hret⟩
      · exact absurd h (by simp)
    · exact absurd h (by simp)
  · rintro ⟨rfl, hkind, hret⟩
    rw [if_pos hkind, hret]

/-- The accepted descriptors are those in the results. -/
def AcceptedInResults (M : Kernel K) (attempts : List (IoScheduler.Attempt K))
    (state : AsyncIoOperation → OpState) : Prop :=
  ∀ op n, (op, n) ∈ obtained M attempts ↔ (state op).result = some (.ok (.accepted n))

/-- A round of the loop records what its call returned. -/
theorem AcceptedInResults.item {before : List (IoScheduler.Attempt K)} {mask : Events}
    {item : AsyncIoOperation} {st st' : IoScheduler.Notify K}
    (hfresh : st.sched.state item = .fresh)
    (h : AcceptedInResults M (before ++ st.attempts) st.sched.state)
    (hstep : IoScheduler.ItemStep M mask item st st') :
    AcceptedInResults M (before ++ st'.attempts) st'.sched.state := by
  -- the attempt that a call adds
  have hnew : ∀ op n, (op, n) ∈ obtained M (before ++ (st.attempts ++ [⟨item, st.kernel, none⟩])) ↔
      (op, n) ∈ obtained M (before ++ st.attempts) ∨
        acceptedIn M ⟨item, st.kernel, none⟩ = some (op, n) := by
    intro op n
    simp [obtained, or_assoc, eq_comm]
  cases hstep with
  | skipped => exact h
  | pending hsel hio =>
    intro op n
    refine (hnew op n).trans ?_
    show _ ↔ (st.sched.state op).result = _
    rw [← h op n, acceptedIn_eq_some]
    apply or_iff_left
    rintro ⟨rfl, hacc⟩
    rw [hio] at hacc
    exact absurd hacc (by simp)
  | @stored r tw hsel hio =>
    intro op n
    refine (hnew op n).trans ?_
    rw [h op n, acceptedIn_eq_some]
    show _ ↔ (Function.update st.sched.state item ⟨false, some r⟩ op).result = _
    by_cases hop : op = item
    · subst hop
      rw [Function.update_self, hfresh, hio]
      simp [OpState.fresh]
    · rw [Function.update_of_ne hop]
      exact or_iff_left (fun hacc => hop hacc.1.symm)

/-- The accepted descriptors are those in the results, in every step of the scheduler. -/
theorem step_accepted (hinv : s.Inv) {a : SchedAct K}
    (h : AcceptedInResults M s.attempts s.io.state) (hs : step M s a = some s') :
    AcceptedInResults M s'.attempts s'.io.state := by
  cases a with
  | schedule op =>
    obtain ⟨-, hs⟩ := step_schedule.mp hs
    obtain ⟨io, hio, rfl⟩ := schedule_cases hs
    show AcceptedInResults M s.attempts io.state
    rw [(IoScheduler.schedule_perm hinv.rep hio).2]
    exact h
  | cancel fd fuel =>
    obtain ⟨found, hs⟩ := step_cancel.mp hs
    have hinv' := cancel_inv hinv hs
    obtain ⟨io, hio, rfl⟩ := cancel_cases hs
    intro op n
    refine (h op n).trans ?_
    by_cases hon : op ∈ s.io.activeOn fd
    · -- it had no result, and now has that of the cancellation
      have hold := hinv.rep.active op (List.mem_filter.mp hon).1
      have hnew := (hinv'.struck_iff op).mp (List.mem_append_right _ hon)
      rw [hold, hnew]
      simp [OpState.fresh, cancelledResult]
    · rw [(IoScheduler.cancelSection_spec hinv.rep hio).2.others op hon]
  | pollCancellations tw =>
    obtain ⟨p, hs⟩ := step_pollCancellations.mp hs
    obtain ⟨w, rfl⟩ := pollCancellations_cases hinv hs
    exact h
  | pollNotifications events tw =>
    obtain ⟨n, hs⟩ := step_pollNotifications.mp hs
    obtain ⟨st, done, hst, -, rfl, rfl⟩ := pollNotifications_cases hinv hs
    have hstart : AcceptedInResults M (s.attempts ++ []) s.io.state := by
      rw [List.append_nil]
      exact h
    have hend := IoScheduler.processNotifications_items
      (fun t => AcceptedInResults M (s.attempts ++ t.attempts) t.sched.state)
      (fun _ _ _ _ hfresh _ hP hstep => hP.item hfresh hstep) (fun _ _ _ _ hP => hP) events
      (hinv.rep.start s.kernel) hstart hst
    exact hend
  | wake tw | kernel k | forget fd =>
    rw [step, Option.some.injEq] at hs
    subst hs
    exact h

end Sched

namespace ContextThread

variable {K : Type} {n : Nat} {M : Kernel K} {s s' : ContextThread K n} {t : Fin n}

/-! ### The log -/

/-- A released operation was dispatched or is about to be; its handler got its result. -/
structure LogInv (s : ContextThread K n) : Prop where
  released : s.destroyed = false →
    ∀ op ∈ s.released, op ∈ s.invoked ∨ ∃ u, (s.threads u).pc = .invoke op
  results : ∀ op r, .invoked (.io op) r ∈ s.log → r = (s.sched.io.state op).result

/-- Before anything is attempted nothing was accepted. -/
theorem init_logInv (h : Init s) : s.LogInv := by
  rw [h.2]
  exact ⟨fun _ op hop => absurd hop (by simp [ContextThread.released]), by simp⟩

/-- Recorded results are final. -/
theorem Step.result (hres : s.ResultInv) {l : Label K n} (hs : Step M s l s')
    {op : AsyncIoOperation} {r : IoResult} (hr : (s.sched.io.state op).result = some r) :
    (s'.sched.io.state op).result = some r := by
  -- other code and the destructor do not touch results
  have hlive : ∀ hlive : s.destroyed = false, l ≠ .destroy →
      (s'.sched.io.state op).result = some r := by
    intro hlive hl
    rcases hs.sched hl with ⟨-, hsame⟩ | ⟨a, -, hstep⟩
    · rw [hsame]
      exact hr
    · exact Sched.step_result (hres.live hlive) hstep hr
  cases hs with
  | run h | call h | rest h => exact hlive h (by simp)
  | destroy | kernel | forget => exact hr

/-- Steps that leave the log alone. -/
theorem LogInv.keep (h : s.LogInv) (hlive : s'.destroyed = false → s.destroyed = false)
    (hlog : s'.log = s.log)
    (hpc : ∀ u op, (s.threads u).pc = .invoke op → (s'.threads u).pc = .invoke op)
    (hresult : ∀ op r, (s.sched.io.state op).result = some r →
      (s'.sched.io.state op).result = some r)
    (hres : s.ResultInv) : s'.LogInv := by
  refine ⟨fun hl op hop => ?_, fun op r hop => ?_⟩
  · have hop' : op ∈ s.released := by
      rw [ContextThread.released, hlog] at hop
      exact hop
    rcases h.released (hlive hl) op hop' with hinv | ⟨u, hu⟩
    · apply Or.inl
      rw [invoked, hlog]
      exact hinv
    · -- who was about to invoke the handler still is
      exact Or.inr ⟨u, hpc u op hu⟩
  · rw [hlog] at hop
    -- a result that was delivered does not change any more
    obtain ⟨-, res, rfl, -⟩ := hres.delivered op r hop
    rw [hresult op res (h.results op _ hop).symm]

/-- The result that `dispatch` delivers is the operation's. -/
theorem deliver_io {op : AsyncIoOperation} {result : Option IoResult}
    (h : s.deliver (.io op) = .ok result) : result = (s.sched.io.state op).result := by
  unfold deliver at h
  dsimp only at h
  split at h
  · exact absurd h (by simp)
  · rename_i r hr
    rw [Except.ok.injEq] at h
    rw [← h, hr]

/-- The operation taken from a batch is on its way. -/
theorem popFront_logInv (h : s.LogInv) {op : AnyAsyncOperation} {rest : List AnyAsyncOperation}
    (hpc : (s.threads t).pc = .drain) (hlive : s.destroyed = false) :
    (({ s with log := s.log ++ [Consumption.released op] }).mapThread t (fun th =>
      { th with pc := .invoke op, batch := rest })).LogInv := by
  refine ⟨fun _ x hx => ?_, fun x r hx => h.results x r ?_⟩
  swap
  · have hx' : Consumption.invoked (.io x) r ∈ s.log ++ [Consumption.released op] := hx
    simpa using hx'
  have hx' : x ∈ s.released ∨ x = op := by
    have hx' : x ∈ ({ s with log := s.log ++ [Consumption.released op] }).released := hx
    rw [released_append] at hx'
    simpa [Consumption.released?] using hx'
  rcases hx' with hx' | rfl
  · rcases h.released hlive x hx' with hinv | ⟨u, hu⟩
    · apply Or.inl
      show x ∈ ({ s with log := s.log ++ [Consumption.released op] }).invoked
      rw [invoked_append]
      exact List.mem_append_left _ hinv
    · -- `t` was at the head of the batch, so another thread invokes this one
      refine Or.inr ⟨u, ?_⟩
      have hne : u ≠ t := by
        rintro rfl
        exact absurd (hpc.symm.trans hu) (by simp)
      rw [mapThread_threads, if_neg hne]
      exact hu
  · exact Or.inr ⟨t, by rw [mapThread_threads, if_pos rfl]⟩

/-- The handler gets the operation's result. -/
theorem invoke_logInv (h : s.LogInv) {op : AnyAsyncOperation} {result : Option IoResult}
    (hpc : (s.threads t).pc = .invoke op) (hlive : s.destroyed = false)
    (hdeliver : s.deliver op = .ok result) :
    (({ s with log := s.log ++ [Consumption.invoked op result] }).goto t (.handler op)).LogInv := by
  have hinvoked := invoked_append s [.invoked op result]
  refine ⟨fun _ x hx => ?_, fun x r hx => ?_⟩
  · have hx' : x ∈ s.released := by
      have hx' : x ∈ ({ s with log := s.log ++ [Consumption.invoked op result] }).released := hx
      rw [released_append] at hx'
      simpa [Consumption.released?] using hx'
    show x ∈ ({ s with log := s.log ++ [Consumption.invoked op result] }).invoked ∨ _
    rw [hinvoked]
    rcases h.released hlive x hx' with hinv | ⟨u, hu⟩
    · exact Or.inl (List.mem_append_left _ hinv)
    · by_cases hut : u = t
      · -- it is the operation being dispatched
        subst hut
        obtain rfl : op = x := by simpa [hpc] using hu
        exact Or.inl (List.mem_append_right _ (by simp [Consumption.invoked?]))
      · refine Or.inr ⟨u, ?_⟩
        rw [goto_pc, if_neg hut]
        exact hu
  · rcases List.mem_append.mp hx with hx | hx
    · exact h.results x r hx
    · rw [List.mem_singleton, Consumption.invoked.injEq] at hx
      obtain ⟨rfl, rfl⟩ := hx
      exact deliver_io hdeliver

/-- **The step lemma** for the record of accepted descriptors. -/
theorem step_logInv (hres : s.ResultInv) (h : s.LogInv) {l : Label K n} (hs : Step M s l s') :
    s'.LogInv := by
  have hresult : ∀ op r, (s.sched.io.state op).result = some r →
      (s'.sched.io.state op).result = some r := fun _ _ hr => hs.result hres hr
  -- sleepers are not in a dispatch
  have hwoken : ∀ u op, (s.threads u).pc = .invoke op →
      (s'.threads u).pc = (s.threads u).pc ∨
        ((s.threads u).pc = .asleep ∧ (s'.threads u).pc = .woken) →
      (s'.threads u).pc = .invoke op := by
    intro u op hu hpc
    rcases hpc with heq | ⟨heq, -⟩
    · rw [heq, hu]
    · exact absurd (heq.symm.trans hu) (by simp)
  cases hs with
  | @run t a _ hlive hcall hs =>
    have hothers := hs.frame.others
    have hmoves : ∀ pc, (s.threads t).pc = pc → (∀ op, pc ≠ .invoke op) →
        ∀ u op, (s.threads u).pc = .invoke op → (s'.threads u).pc = .invoke op := by
      intro pc hpc hnot u op hu
      have hne : u ≠ t := by
        rintro rfl
        exact hnot op (hpc.symm.trans hu)
      exact hwoken u op hu (hothers u hne)
    cases hs with
    | popFront hpc hbatch => exact popFront_logInv h hpc hlive
    | invoke hpc hdeliver => exact invoke_logInv h hpc hlive hdeliver
    | pollCancel hpc | notifications hpc =>
      exact h.keep (fun _ => hlive) (enqueue_log _ _) (hmoves _ hpc (by simp)) hresult hres
    | _ hpc => exact h.keep (fun _ => hlive) rfl (hmoves _ hpc (by simp)) hresult hres
  | call hlive hcall huser hs =>
    have hpc := hs.frame.1
    refine h.keep (fun _ => hlive) ?_ (fun u op hu => (hpc u).trans hu) hresult hres
    cases hs <;> rfl
  | rest hlive hs =>
    have hpc := hs.frame.2.1
    refine h.keep (fun _ => hlive) ?_ (fun u op hu => hwoken u op hu (hpc u)) hresult hres
    cases hs <;> rfl
  | destroy hlive hout =>
    refine ⟨fun hl => absurd hl (by simp [destroy]), fun op r hop => h.results op r ?_⟩
    rw [destroy_log] at hop
    simpa using hop
  | kernel | forget => exact h.keep id rfl (fun _ _ hu => hu) hresult hres

/-! ### Completions of accepts -/

/-- The accepted descriptor that the step gives to the completion of its operation. -/
def delivers (s : ContextThread K n) : Label K n → Option (AsyncIoOperation × Nat)
  | .thread t .invoke =>
    match (s.threads t).pc with
    | .invoke (.io op) =>
      match (s.sched.io.state op).result with
      | some (.ok (.accepted fd)) => some (op, fd)
      | _ => none
    | _ => none
  | _ => none

/-- The log entry of a completion that got an accepted descriptor. -/
def completion (p : AsyncIoOperation × Nat) : Consumption :=
  .invoked (.io p.1) (some (.ok (.accepted p.2)))

/-- A step of `dispatch` logs what it delivers. -/
theorem invoke_delivers {op : AnyAsyncOperation} {result : Option IoResult}
    (hpc : (s.threads t).pc = .invoke op) (hdeliver : s.deliver op = .ok result)
    (p : AsyncIoOperation × Nat) :
    completion p = .invoked op result ↔ s.delivers (.thread t .invoke) = some p := by
  unfold delivers completion
  dsimp only
  rw [hpc]
  cases op with
  | plain addr => simp
  | io op =>
    rw [deliver_io hdeliver]
    dsimp only
    constructor
    · intro h
      rw [Consumption.invoked.injEq, AnyAsyncOperation.io.injEq] at h
      obtain ⟨rfl, hr⟩ := h
      rw [← hr]
    · intro h
      split at h
      · rename_i fd hr
        rw [Option.some.injEq] at h
        rw [← h, hr]
      · exact absurd h (by simp)

/-- The completions that got an accepted descriptor, after a step. -/
theorem Step.completions {l : Label K n} (hs : Step M s l s') (p : AsyncIoOperation × Nat) :
    completion p ∈ s'.log ↔ completion p ∈ s.log ∨ s.delivers l = some p := by
  have hkeep : s'.log = s.log → s.delivers l = none →
      (completion p ∈ s'.log ↔ completion p ∈ s.log ∨ s.delivers l = some p) := by
    intro hlog hnone
    rw [hlog, hnone]
    simp
  cases hs with
  | run hlive hcall hs =>
    cases hs with
    -- a release is not a completion
    | @popFront op rest hpc hbatch =>
      show completion p ∈ s.log ++ [Consumption.released op] ↔ _
      simp [completion, delivers]
    | @invoke op result hpc hdeliver =>
      show completion p ∈ s.log ++ [Consumption.invoked op result] ↔ _
      rw [List.mem_append, List.mem_singleton, invoke_delivers hpc hdeliver]
    | pollCancel | notifications => exact hkeep (enqueue_log _ _) rfl
    | _ => exact hkeep rfl rfl
  | call hlive hcall huser hs => cases hs <;> exact hkeep rfl rfl
  | rest hlive hs => cases hs <;> exact hkeep rfl rfl
  -- the destructor discards, which delivers nothing
  | destroy hlive hout =>
    rw [destroy_log]
    simp [completion, delivers]
  | kernel | forget => exact hkeep rfl rfl

end ContextThread

/-! ### Sockets -/

/-- The context with the sockets of its user. -/
structure Accepting (K : Type) (n : Nat) where
  ctx : ContextThread K n
  /-- The accepted descriptor that each socket owns, with the operation that obtained it. -/
  owned : Nat → Option (AsyncIoOperation × Nat)
  /-- The accepted descriptors that were closed. -/
  closed : List (AsyncIoOperation × Nat)

/-- The steps: those of the context, and what its user does with sockets. -/
inductive AcceptAct (K : Type) (n : Nat)
  | ctx (l : Label K n)
  /-- `dst = std::move(src)`. -/
  | move (dst src : Nat)
  /-- The destructor of a socket. -/
  | destroy (a : Nat)

namespace Accepting

variable {K : Type} {n : Nat}

/-- A socket gives up what it owns, and owns `p` instead: the temporary of the move assignment
    closes what it got in the swap. -/
def replace (s : Accepting K n) (a : Nat) (p : Option (AsyncIoOperation × Nat)) : Accepting K n :=
  { s with
    owned := Function.update s.owned a p
    closed := s.closed ++ (s.owned a).toList }

/-- One step.  `target` is the socket that the completion of an `accept` refers to: it runs
    `target = UnixSocket { ctx, fd }` (or `TcpSocket`) when the result is a descriptor. -/
def step (M : Kernel K) (target : AsyncIoOperation → Nat) (s : Accepting K n) :
    AcceptAct K n → Option (Accepting K n)
  | .ctx l =>
    (s.ctx.next M l).map (fun ctx =>
      match s.ctx.delivers l with
      | some p => { s.replace (target p.1) (some p) with ctx := ctx }
      | none => { s with ctx := ctx })
  | .move dst src =>
    if dst = src then some s
    else some { s.replace dst (s.owned src) with
      owned := Function.update (Function.update s.owned dst (s.owned src)) src none }
  | .destroy a => some (s.replace a none)

/-- No socket owns an accepted descriptor yet. -/
def Init (s : Accepting K n) : Prop :=
  ContextThread.Init s.ctx ∧ s = ⟨s.ctx, fun _ => none, []⟩

/-- States reached by runs. -/
def Reach (M : Kernel K) (target : AsyncIoOperation → Nat) : Accepting K n → Prop :=
  Transition.Reach Init (step M target) Transition.always

/-- The descriptors obtained from `::accept`. -/
def obtained (M : Kernel K) (s : Accepting K n) : List (AsyncIoOperation × Nat) :=
  Sched.obtained M s.ctx.sched.attempts

/-- The descriptor became one of a socket's, or was closed. -/
def Accounted (s : Accepting K n) (p : AsyncIoOperation × Nat) : Prop :=
  (∃ a, s.owned a = some p) ∨ p ∈ s.closed

variable {M : Kernel K} {target : AsyncIoOperation → Nat} {s s' : Accepting K n}

/-- The values of `FileDescriptor.lean` hold the numbers of the descriptors that the sockets
    own. -/
def HeldBy (s : Accepting K n) (v : Values) : Prop :=
  ∀ a p, s.owned a = some p → v.fd a = some (p.2 : Int)

/-- `target = UnixSocket { ctx, fd }`, as `FileDescriptor` runs it, is what `replace` says. -/
theorem HeldBy.assignment {v v' : Values} (h : s.HeldBy v) {a tmp : Nat} (hne : a ≠ tmp)
    (htmp : s.owned tmp = none) {p : AsyncIoOperation × Nat}
    (hv : Transition.exec Values.call v (Objects.assignment a tmp p.2) = some v') :
    (s.replace a (some p)).HeldBy v' := by
  obtain ⟨htarget, hothers⟩ := Values.assignment_fd hne hv
  intro b q hq
  have hq' : Function.update s.owned a (some p) b = some q := hq
  -- the object of the callback has taken the descriptor over
  by_cases hb : b = a
  · subst hb
    rw [Function.update_self, Option.some.injEq] at hq'
    rw [← hq', htarget]
  · rw [Function.update_of_ne hb] at hq'
    -- the temporary that it came through is empty again
    have hbt : b ≠ tmp := by
      rintro rfl
      rw [htmp] at hq'
      exact absurd hq' (by simp)
    rw [hothers b hb hbt]
    exact h b q hq'

/-- A socket that is given a descriptor accounts for it, and loses none. -/
theorem accounted_replace {a : Nat} {p : Option (AsyncIoOperation × Nat)}
    (q : AsyncIoOperation × Nat) : (s.replace a p).Accounted q ↔ s.Accounted q ∨ p = some q := by
  unfold Accounted replace
  dsimp only
  constructor
  · rintro (⟨b, hb⟩ | hclosed)
    · by_cases hba : b = a
      · rw [hba, Function.update_self] at hb
        exact Or.inr hb
      · rw [Function.update_of_ne hba] at hb
        exact Or.inl (Or.inl ⟨b, hb⟩)
    · -- the object that is replaced closes what it owned
      rcases List.mem_append.mp hclosed with hclosed | hold
      · exact Or.inl (Or.inr hclosed)
      · exact Or.inl (Or.inl ⟨a, Option.mem_toList.mp hold⟩)
  · rintro ((⟨b, hb⟩ | hclosed) | hp)
    · by_cases hba : b = a
      · subst hba
        exact Or.inr (List.mem_append_right _ (Option.mem_toList.mpr hb))
      · exact Or.inl ⟨b, by rw [Function.update_of_ne hba]; exact hb⟩
    · exact Or.inr (List.mem_append_left _ hclosed)
    · exact Or.inl ⟨a, by rw [Function.update_self]; exact hp⟩

/-- A move hands the descriptor on. -/
theorem accounted_move {dst src : Nat} (hne : dst ≠ src) (q : AsyncIoOperation × Nat) :
    Accounted { s.replace dst (s.owned src) with
      owned := Function.update (Function.update s.owned dst (s.owned src)) src none } q ↔
      s.Accounted q := by
  unfold Accounted replace
  dsimp only
  have howned : ∀ b, Function.update (Function.update s.owned dst (s.owned src)) src none b = some q ↔
      -- after the move the destination owns what the source owned, and the source nothing
      (b ≠ src ∧ b ≠ dst ∧ s.owned b = some q) ∨ (b = dst ∧ s.owned src = some q) := by
    intro b
    by_cases hs : b = src
    · subst hs
      simp [hne.symm]
    · by_cases hd : b = dst
      · subst hd
        simp [hs]
      · simp [hs, hd]
  constructor
  · rintro (⟨b, hb⟩ | hclosed)
    · rcases (howned b).mp hb with ⟨-, -, hb⟩ | ⟨-, hb⟩
      · exact Or.inl ⟨b, hb⟩
      · exact Or.inl ⟨src, hb⟩
    · rcases List.mem_append.mp hclosed with hclosed | hold
      · exact Or.inr hclosed
      · exact Or.inl ⟨dst, Option.mem_toList.mp hold⟩
  · rintro (⟨b, hb⟩ | hclosed)
    · by_cases hs : b = src
      · subst hs
        exact Or.inl ⟨dst, (howned dst).mpr (Or.inr ⟨rfl, hb⟩)⟩
      · by_cases hd : b = dst
        · subst hd
          exact Or.inr (List.mem_append_right _ (Option.mem_toList.mpr hb))
        · exact Or.inl ⟨b, (howned b).mpr (Or.inl ⟨hs, hd, hb⟩)⟩
    · exact Or.inr (List.mem_append_left _ hclosed)

/-! ### Runs -/

/-- The invariant: the obtained descriptors are in the results, and those of the completions
    that ran are accounted for. -/
structure Inv (M : Kernel K) (s : Accepting K n) : Prop where
  results : s.ctx.ResultInv
  places : s.ctx.PlaceInv
  log : s.ctx.LogInv
  accepted : Sched.AcceptedInResults M s.ctx.sched.attempts s.ctx.sched.io.state
  accounted : ∀ p, s.Accounted p ↔ ContextThread.completion p ∈ s.ctx.log

/-- A constructed context has accepted nothing and runs no handler. -/
theorem init_inv (h : Init s) : Inv M s := by
  obtain ⟨hctx, hs⟩ := h
  obtain ⟨⟨wakeFd, k, hsched⟩, hinit⟩ := hctx
  refine ⟨ContextThread.init_resultInv ⟨⟨wakeFd, k, hsched⟩, hinit⟩,
    ContextThread.init_placeInv ⟨⟨wakeFd, k, hsched⟩, hinit⟩,
    ContextThread.init_logInv ⟨⟨wakeFd, k, hsched⟩, hinit⟩, ?_, ?_⟩
  · intro op n
    rw [hsched]
    simp [Sched.obtained, IoScheduler.init, OpState.fresh]
  · intro p
    rw [hs, hinit]
    simp [Accounted]

/-- The attempts and the results, after a step of the context. -/
theorem ctx_accepted {ctx : ContextThread K n} {l : Label K n} (h : Inv M s)
    (hs : ContextThread.Step M s.ctx l ctx) :
    Sched.AcceptedInResults M ctx.sched.attempts ctx.sched.io.state := by
  have hlive : ∀ hlive : s.ctx.destroyed = false, l ≠ .destroy →
      Sched.AcceptedInResults M ctx.sched.attempts ctx.sched.io.state := by
    intro hlive hl
    rcases hs.sched hl with ⟨-, hsame⟩ | ⟨a, -, hstep⟩
    · rw [hsame]
      exact h.accepted
    · exact Sched.step_accepted (h.results.live hlive) h.accepted hstep
  cases hs with
  | run hl | call hl | rest hl => exact hlive hl (by simp)
  | destroy | kernel | forget => exact h.accepted

/-- **The step lemma**: every accepted descriptor stays accounted for. -/
theorem step_inv (h : Inv M s) {a : AcceptAct K n} (hs : step M target s a = some s') :
    Inv M s' := by
  cases a with
  | ctx l =>
    obtain ⟨ctx, hctx, hs'⟩ := Option.map_eq_some_iff.mp hs
    have hstep := ContextThread.next_cases hctx
    -- the step hands over what it delivers, and nothing else
    have hnext : s'.ctx = ctx ∧ ∀ p, s'.Accounted p ↔ s.Accounted p ∨ s.ctx.delivers l = some p := by
      split at hs'
      · rename_i q hq
        subst hs'
        refine ⟨rfl, fun p => ?_⟩
        rw [hq]
        exact accounted_replace p
      · rename_i hnone
        subst hs'
        refine ⟨rfl, fun p => ?_⟩
        rw [hnone]
        simp [Accounted]
    obtain ⟨rfl, hacc⟩ := hnext
    refine ⟨ContextThread.step_resultInv h.results hstep,
      ContextThread.step_placeInv h.results h.places hstep,
      ContextThread.step_logInv h.results h.log hstep, ctx_accepted h hstep, fun p => ?_⟩
    rw [hacc, h.accounted, hstep.completions]
  | move dst src =>
    rw [step] at hs
    split at hs
    · exact Option.some.inj hs ▸ h
    · rename_i hne
      rw [Option.some.injEq] at hs
      subst hs
      exact ⟨h.results, h.places, h.log, h.accepted,
        fun p => (accounted_move hne p).trans (h.accounted p)⟩
  | destroy a =>
    rw [step, Option.some.injEq] at hs
    subst hs
    refine ⟨h.results, h.places, h.log, h.accepted, fun p => ?_⟩
    rw [accounted_replace]
    exact (or_iff_left (by simp)).trans (h.accounted p)

/-- **The run lemma** for accepted descriptors. -/
theorem reach_inv (h : Reach M target s) : Inv M s :=
  Transition.Reach.invariant (Inv M) (fun _ => init_inv) (fun _ _ _ hi _ hs => step_inv hi hs) h

/-- The destructor runs when all threads are outside, and touches no socket. -/
theorem destroy_cases (hs : step M target s (.ctx .destroy) = some s') :
    s.ctx.destroyed = false ∧ (∀ t, (s.ctx.threads t).pc = .out) ∧
      s' = { s with ctx := s.ctx.destroy } := by
  obtain ⟨ctx, hctx, hs'⟩ := Option.map_eq_some_iff.mp hs
  cases ContextThread.next_cases hctx with
  | destroy hlive hout => exact ⟨hlive, fun t => (hout t).1, hs'.symm⟩

/-- Where a completed accept is, when all threads are outside. -/
theorem Inv.completed (h : Inv M s) (hlive : s.ctx.destroyed = false)
    (hout : ∀ t, (s.ctx.threads t).pc = .out) {op : AsyncIoOperation} {fd : Nat}
    (hr : (s.ctx.sched.io.state op).result = some (.ok (.accepted fd))) :
    .io op ∈ s.ctx.completionQueue ∨ s.Accounted (op, fd) := by
  have hinv := h.results.live hlive
  have hsched : op ∈ s.ctx.sched.scheduled := by
    by_contra hnot
    rw [hinv.unscheduled op hnot] at hr
    exact absurd hr (by simp [OpState.fresh])
  obtain ⟨p, hp⟩ := (h.places.placed.mem_iff _).mp ((h.places.scheduled op).mpr hsched)
  cases p with
  | queue => exact Or.inl hp
  | scheduler =>
    -- operations in the list have no result, or the one of a cancellation
    obtain ⟨x, hx, hxop⟩ := List.mem_map.mp hp
    obtain rfl : x = op := by simpa using hxop
    rw [← s.ctx.sched.io.segments_append] at hx
    rcases List.mem_append.mp hx with hx | hx
    · rw [hinv.rep.active x hx] at hr
      exact absurd hr (by simp [OpState.fresh])
    · rw [hinv.rep.cancelled x hx] at hr
      exact absurd hr (by simp [cancelledResult])
  | batch u =>
    have hp' : .io op ∈ (s.ctx.threads u).batch := hp
    rw [h.places.batch_nil (by rw [hout u]; rfl)] at hp'
    exact absurd hp' (by simp)
  | consumed =>
    rcases h.log.released hlive _ hp with hinvoked | ⟨u, hu⟩
    · obtain ⟨c, hc, hcop⟩ := List.mem_filterMap.mp hinvoked
      cases c with
      | released x => exact absurd hcop (by simp [Consumption.invoked?])
      | invoked x r =>
        obtain rfl : x = .io op := by simpa [Consumption.invoked?] using hcop
        rw [h.log.results op r hc, hr] at hc
        exact Or.inr ((h.accounted (op, fd)).mpr hc)
    · exact absurd ((hout u).symm.trans hu) (by simp)

/-- A descriptor in the queue is not accounted for. -/
theorem Inv.queued (h : Inv M s) {op : AsyncIoOperation} {fd : Nat}
    (hq : .io op ∈ s.ctx.completionQueue) : ¬ s.Accounted (op, fd) := by
  intro hacc
  have hinvoked : .io op ∈ s.ctx.invoked :=
    List.mem_filterMap.mpr ⟨_, (h.accounted (op, fd)).mp hacc, rfl⟩
  have hplace := h.places.placed.unique .queue .consumed _ hq (h.places.invoked_sub _ hinvoked)
  exact absurd hplace (by simp)

/-- **When accepted descriptors leak.**  In every run, whatever is polled, dispatched and
    cancelled in between: when the context has been destroyed, every descriptor that a
    successful `::accept` returned has become the target's or was closed, if and only if no
    operation with an accepted descriptor was in the completion queue. -/
theorem leaks_iff (h : Reach M target s) (hs : step M target s (.ctx .destroy) = some s') :
    (∀ p ∈ s'.obtained M, s'.Accounted p) ↔
      ∀ op fd, .io op ∈ s.ctx.completionQueue →
        (s.ctx.sched.io.state op).result ≠ some (.ok (.accepted fd)) := by
  have hinv := reach_inv h
  obtain ⟨hlive, hout, rfl⟩ := destroy_cases hs
  -- the attempts and the sockets are those of the state before
  show (∀ p ∈ s.obtained M, s.Accounted p) ↔ _
  constructor
  · intro hall op fd hq hr
    exact hinv.queued hq (hall (op, fd) ((hinv.accepted op fd).mpr hr))
  · rintro hnone ⟨op, fd⟩ hp
    have hr := (hinv.accepted op fd).mp hp
    rcases hinv.completed hlive hout hr with hq | hacc
    · exact absurd hr (hnone op fd hq)
    · exact hacc

/-- A kernel in which every number is open and the next `::accept` returns the head of the
    state. -/
def acceptKernel : Kernel (List Nat) where
  syscall := fun op k =>
    match op.kind, k with
    | .unixAccept, fd :: rest => (⟨.ok fd, 0⟩, rest)
    | _, _ => (.wouldBlock, k)
  isOpen := fun _ _ => true

/-- A constructed context; one connection is waiting. -/
def acceptStart : Accepting (List Nat) 1 :=
  ⟨⟨⟨IoScheduler.init 0, [6], [], [], [], []⟩, none, [], 0, none, 0, fun _ => ContextThread.idle, [],
    [], false⟩, fun _ => none, []⟩

theorem acceptStart_init : Init acceptStart := ⟨⟨⟨0, [6], rfl⟩, rfl⟩, rfl⟩

/-- An accept on 3, and a `run_once` whose poll completes it. -/
def acceptAndPoll (t : Fin n) : List (AcceptAct (List Nat) n) :=
  ([.schedule ⟨1, 3, .unixAccept⟩, .callNotify, .enterRunOnce, .take, .drain, .readMore,
    .checkScheduler, .pollCancel, .announce, .epollReturn [⟨3, EPOLLIN⟩], .retire, .notifications,
    .guardNotify] : List Act).map (fun a => .ctx (.thread t a))

/-- The next `run_once` gives the descriptor to its socket: nothing leaks. -/
theorem dispatched_accept_kept :
    ∃ s s' : Accepting (List Nat) 1, step acceptKernel (fun _ => 0) s (.ctx .destroy) = some s' ∧
      s'.obtained acceptKernel = [(⟨1, 3, .unixAccept⟩, 6)] ∧
      ∀ p ∈ s'.obtained acceptKernel, s'.Accounted p := by
  have hrun : ∃ s, Reach acceptKernel (fun _ => 0) s ∧
      (step acceptKernel (fun _ => 0) s (.ctx .destroy)).any (fun s' =>
        decide (s'.obtained acceptKernel = [(⟨1, 3, .unixAccept⟩, 6)] ∧
          s.ctx.completionQueue = [])) = true :=
    Transition.exists_reach acceptStart_init
      (acceptAndPoll 0 ++ ([.enterRunOnce, .take, .drain, .invoke, .handlerReturn, .drain, .readMore,
        .checkScheduler, .guardNotify] : List Act).map (fun a => .ctx (.thread 0 a))) _ (by decide)
  obtain ⟨s, hreach, hend⟩ := hrun
  rw [Option.any_eq_true] at hend
  obtain ⟨s', hs, hdec⟩ := hend
  obtain ⟨hobtained, hqueue⟩ := of_decide_eq_true hdec
  -- the queue is empty, so the destructor has no result to discard
  refine ⟨s, s', hs, hobtained, (leaks_iff hreach hs).mpr (fun op fd hq => ?_)⟩
  rw [hqueue] at hq
  exact absurd hq (by simp)

/-- The context is destroyed before the completion ran: the accepted descriptor belongs to
    nobody. -/
theorem undispatched_accept_leaks :
    ¬ ∀ s s' : Accepting (List Nat) 1, Reach acceptKernel (fun _ => 0) s →
      step acceptKernel (fun _ => 0) s (.ctx .destroy) = some s' →
      ∀ p ∈ s'.obtained acceptKernel, s'.Accounted p := by
  intro hall
  have hrun : ∃ s, Reach acceptKernel (fun _ => 0) s ∧
      (step acceptKernel (fun _ => 0) s (.ctx .destroy)).any (fun s' =>
        decide (s'.obtained acceptKernel = [(⟨1, 3, .unixAccept⟩, 6)] ∧
          s.ctx.completionQueue = [.io ⟨1, 3, .unixAccept⟩])) = true :=
    Transition.exists_reach acceptStart_init (acceptAndPoll 0) _ (by decide)
  obtain ⟨s, hreach, hend⟩ := hrun
  rw [Option.any_eq_true] at hend
  obtain ⟨s', hs, hdec⟩ := hend
  obtain ⟨hobtained, hqueue⟩ := of_decide_eq_true hdec
  have hacc := hall s s' hreach hs _ (hobtained ▸ List.mem_singleton.mpr rfl)
  obtain ⟨-, -, rfl⟩ := destroy_cases hs
  -- the result that is discarded holds the only copy of the number
  exact (reach_inv hreach).queued (hqueue ▸ List.mem_singleton.mpr rfl) hacc

end Accepting

end Exios
