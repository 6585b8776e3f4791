import Exios.Base.Traces
import Mathlib.Logic.Function.Basic
import Mathlib.Data.List.Basic

namespace Exios.Executor

open Transition (Steps)

/-!
# Base — what an executor of asynchronous operations is for

An executor takes operations, waits for the source of each one, and runs its handler once with the
result.  Operations live independently of each other: the state is a stage for every operation, and
only two events look at more than one of them, `cancel` (all operations that wait for a source) and
`shutdown`.

* `Step` — the events, as a relation;
* `Steps.history` — the events of an operation, in any run, are the ones that its stage says, in
  the order of its life;
* `Steps.completed_iff` — its result is the cancelled one exactly if a `cancel` of its source came
  between its submission and its completion.
-/

variable {Op Key Res : Type*}

/-- What an executor knows of its operations. -/
structure Rules (Op Key Res : Type*) where
  /-- What the operation waits for; nothing, if it is complete when it is submitted. -/
  source : Op → Option Key
  /-- The results that its source can give. -/
  yields : Op → Res → Prop
  /-- The result of an operation that was cancelled. -/
  cancelled : Res
  /-- No source gives that result. -/
  yields_ne : ∀ op r, yields op r → r ≠ cancelled

/-- The life of an operation. -/
inductive Stage (Res : Type*)
  /-- Not submitted yet. -/
  | absent
  /-- Its source has not answered. -/
  | waiting
  /-- It was cancelled while it waited. -/
  | struck
  /-- It has its result; its handler was not called. -/
  | ready (r : Res)
  /-- Its handler runs. -/
  | running (r : Res)
  | finished (r : Res)
  /-- Its handler will not be called. -/
  | discarded
deriving DecidableEq

/-- What can be seen of an executor. -/
inductive Event (Op Key Res : Type*)
  | submit (op : Op)
  | cancel (k : Key)
  | complete (op : Op) (r : Res)
  | start (op : Op) (r : Res)
  | finish (op : Op)
  | shutdown
deriving DecidableEq

/-- An executor. -/
@[ext] structure State (Op Res : Type*) where
  stage : Op → Stage Res
  /-- It was shut down. -/
  closed : Bool

/-- Nothing was submitted. -/
def State.init : State Op Res := ⟨fun _ => .absent, false⟩

/-- What becomes of an operation when the executor is shut down. -/
def Stage.discard : Stage Res → Stage Res
  | .absent => .absent
  | .finished r => .finished r
  | _ => .discarded

variable [DecidableEq Op]

/-- An operation enters a stage. -/
def State.set (x : State Op Res) (op : Op) (p : Stage Res) : State Op Res :=
  { x with stage := Function.update x.stage op p }

@[simp] theorem State.set_stage_self (x : State Op Res) (op : Op) (p : Stage Res) :
    (x.set op p).stage op = p := Function.update_self _ _ _

/-- Setting the stage of one operation leaves the others where they are. -/
theorem State.set_stage_of_ne {op op' : Op} (h : op' ≠ op) (x : State Op Res) (p : Stage Res) :
    (x.set op p).stage op' = x.stage op' := Function.update_of_ne h _ _

/-! ### The events of an operation -/

/-- The operation that an event is about. -/
def Event.op? : Event Op Key Res → Option Op
  | .submit op | .complete op _ | .start op _ | .finish op => some op
  | .cancel _ | .shutdown => none

/-- The events of one operation. -/
def eventsOf (op : Op) (tr : List (Event Op Key Res)) : List (Event Op Key Res) :=
  tr.filter (fun e => decide (e.op? = some op))

/-- An event of an operation comes to the end of that operation's own events. -/
theorem eventsOf_self {tr : List (Event Op Key Res)} {op : Op} {e : Event Op Key Res}
    (he : e.op? = some op) : eventsOf op (tr ++ [e]) = eventsOf op tr ++ [e] := by
  simp [eventsOf, he]

/-- It leaves the events of the other operations as they are. -/
theorem eventsOf_other {tr : List (Event Op Key Res)} {op : Op} {e : Event Op Key Res}
    (he : e.op? ≠ some op) : eventsOf op (tr ++ [e]) = eventsOf op tr := by
  simp [eventsOf, he]

/-! ### The steps -/

variable [DecidableEq Key]

/-- The waiting operations on a source are cancelled. -/
def State.strike (R : Rules Op Key Res) (x : State Op Res) (k : Key) : State Op Res :=
  { x with stage := fun op =>
      if R.source op = some k then
        match x.stage op with
        | .waiting => .struck
        | p => p
      else x.stage op }

omit [DecidableEq Op] in

/-- A cancellation strikes the operations that wait on its key. -/
theorem State.strike_waiting {R : Rules Op Key Res} {x : State Op Res} {op : Op} {k : Key}
    (hk : R.source op = some k) (hp : x.stage op = .waiting) : (x.strike R k).stage op = .struck := by
  simp [strike, hk, hp]

omit [DecidableEq Op] in

/-- It leaves every other operation where it is. -/
theorem State.strike_other {R : Rules Op Key Res} {x : State Op Res} {op : Op} {k : Key}
    (h : R.source op = some k → x.stage op ≠ .waiting) : (x.strike R k).stage op = x.stage op := by
  rw [strike]
  dsimp only
  split
  · rename_i hk
    split
    · rename_i hp
      exact absurd hp (h hk)
    · rfl
  · rfl

/-- One event. -/
inductive Step (R : Rules Op Key Res) : State Op Res → Event Op Key Res → State Op Res → Prop
  | submit {x : State Op Res} {op : Op} (hopen : x.closed = false) (hp : x.stage op = .absent) :
    Step R x (.submit op) (x.set op .waiting)
  | cancel {x : State Op Res} {k : Key} (hopen : x.closed = false) :
    Step R x (.cancel k) (x.strike R k)
  | complete {x : State Op Res} {op : Op} {r : Res} (hopen : x.closed = false)
    (hp : x.stage op = .waiting) (hr : R.yields op r) :
    Step R x (.complete op r) (x.set op (.ready r))
  | completeStruck {x : State Op Res} {op : Op} (hopen : x.closed = false)
    (hp : x.stage op = .struck) :
    Step R x (.complete op R.cancelled) (x.set op (.ready R.cancelled))
  | start {x : State Op Res} {op : Op} {r : Res} (hopen : x.closed = false)
    (hp : x.stage op = .ready r) : Step R x (.start op r) (x.set op (.running r))
  | finish {x : State Op Res} {op : Op} {r : Res} (hopen : x.closed = false)
    (hp : x.stage op = .running r) : Step R x (.finish op) (x.set op (.finished r))
  | shutdown {x : State Op Res} (hopen : x.closed = false)
    (hidle : ∀ op r, x.stage op ≠ .running r) :
    Step R x .shutdown ⟨fun op => (x.stage op).discard, true⟩

variable {R : Rules Op Key Res} {x y : State Op Res} {tr : List (Event Op Key Res)}

/-! ### Lives -/

/-- What was seen of an operation that is in a stage. -/
def Lived (op : Op) : Stage Res → List (Event Op Key Res) → Prop
  | .absent, l => l = []
  | .waiting, l | .struck, l => l = [.submit op]
  | .ready r, l => l = [.submit op, .complete op r]
  | .running r, l => l = [.submit op, .complete op r, .start op r]
  | .finished r, l => l = [.submit op, .complete op r, .start op r, .finish op]
  | .discarded, l => l = [.submit op] ∨ ∃ r, l = [.submit op, .complete op r]

omit [DecidableEq Op] [DecidableEq Key] in
/-- Every stage has seen an initial piece of one life. -/
theorem Lived.initial [Inhabited Res] {op : Op} {p : Stage Res} {l : List (Event Op Key Res)}
    (h : Lived op p l) : ∃ r, l <+: [.submit op, .complete op r, .start op r, .finish op] := by
  cases p with
  | absent => exact ⟨default, h ▸ List.nil_prefix⟩
  | waiting | struck =>
    exact ⟨default, h ▸ ⟨[.complete op default, .start op default, .finish op], rfl⟩⟩
  | ready r => exact ⟨r, h ▸ ⟨[.start op r, .finish op], rfl⟩⟩
  | running r => exact ⟨r, h ▸ ⟨[.finish op], rfl⟩⟩
  | finished r => exact ⟨r, h ▸ List.prefix_rfl⟩
  | discarded =>
    rcases h with rfl | ⟨r, rfl⟩
    · exact ⟨default, [.complete op default, .start op default, .finish op], rfl⟩
    · exact ⟨r, [.start op r, .finish op], rfl⟩

omit [DecidableEq Key] in
/-- An event of an operation takes it from one stage to another; the others stay where they are. -/
theorem lived_set {x : State Op Res} {x₀ : Op} {p₀ p : Stage Res} {e : Event Op Key Res}
    (h : ∀ op, Lived op (x.stage op) (eventsOf op tr)) (he : e.op? = some x₀)
    (hp₀ : x.stage x₀ = p₀) (hp : ∀ l, Lived x₀ p₀ l → Lived x₀ p (l ++ [e])) (op : Op) :
    Lived op ((x.set x₀ p).stage op) (eventsOf op (tr ++ [e])) := by
  by_cases hop : op = x₀
  · subst hop
    rw [State.set_stage_self, eventsOf_self he]
    exact hp _ (hp₀ ▸ h op)
  · rw [State.set_stage_of_ne hop, eventsOf_other]
    · exact h op
    · rw [he, ne_eq, Option.some.injEq]
      exact fun heq => hop heq.symm

/-- **One event, in the lives of all operations.** -/
theorem Step.lived {e : Event Op Key Res} (hs : Step R x e y)
    (h : ∀ op, Lived op (x.stage op) (eventsOf op tr)) (op : Op) :
    Lived op (y.stage op) (eventsOf op (tr ++ [e])) := by
  cases hs with
  | submit hopen hp | complete hopen hp hr | completeStruck hopen hp | start hopen hp
  | finish hopen hp =>
    refine lived_set h rfl hp (fun l hl => ?_) op
    rw [Lived] at hl
    subst hl
    rfl
  | cancel hopen =>
    -- a struck operation has been seen like a waiting one
    have hop := h op
    rw [eventsOf_other (by simp [Event.op?]), State.strike]
    dsimp only
    split
    · cases hstage : x.stage op <;> rw [hstage] at hop <;> exact hop
    · exact hop
  | shutdown hopen hidle =>
    have hop := h op
    rw [eventsOf_other (by simp [Event.op?])]
    dsimp only
    cases hstage : x.stage op with
    | running r => exact absurd hstage (hidle op r)
    | absent | finished | discarded =>
      rw [hstage] at hop
      exact hop
    | waiting | struck =>
      rw [hstage] at hop
      exact .inl hop
    | ready r =>
      rw [hstage] at hop
      exact .inr ⟨r, hop⟩

/-- **The life of an operation**, in every run of an executor: it is submitted, completed, started
    with the result that it was completed with and finished, each once and in this order, as far as
    its stage says. -/
theorem Steps.history (h : Steps (Step R) .init tr x) (op : Op) :
    Lived op (x.stage op) (eventsOf op tr) := by
  have hinit : ∀ op, Lived op ((State.init : State Op Res).stage op)
      (eventsOf op ([] : List (Event Op Key Res))) := fun _ => rfl
  have hlived := Transition.Steps.invariant
    (fun tr (x : State Op Res) => ∀ op, Lived op (x.stage op) (eventsOf op tr))
    (fun _ _ _ _ hx hs => hs.lived hx) h hinit
  rw [List.nil_append] at hlived
  exact hlived op

/-! ### Cancellation -/

/-- Its source was cancelled after the operation had been submitted. -/
def Struck (R : Rules Op Key Res) (op : Op) (tr : List (Event Op Key Res)) : Prop :=
  ∃ a b k, R.source op = some k ∧ tr = a ++ .cancel k :: b ∧ .submit op ∈ a

omit [DecidableEq Op] [DecidableEq Key] in
/-- An event adds to this only if it is a `cancel` of the source. -/
theorem struck_append {op : Op} {e : Event Op Key Res} :
    Struck R op (tr ++ [e]) ↔
      Struck R op tr ∨ ∃ k, R.source op = some k ∧ e = .cancel k ∧ .submit op ∈ tr := by
  constructor
  · rintro ⟨a, b, k, hk, heq, hsub⟩
    rcases List.eq_nil_or_concat b with rfl | ⟨b, e', rfl⟩
    · obtain ⟨rfl, hlast⟩ := List.append_inj' heq rfl
      exact .inr ⟨k, hk, (List.cons.inj hlast).1, hsub⟩
    · rw [List.concat_eq_append, ← List.cons_append, ← List.append_assoc] at heq
      exact .inl ⟨a, b, k, hk, (List.append_inj' heq rfl).1, hsub⟩
  · rintro (⟨a, b, k, hk, rfl, hsub⟩ | ⟨k, hk, rfl, hsub⟩)
    · exact ⟨a, b ++ [e], k, hk, by simp, hsub⟩
    · exact ⟨tr, [], k, hk, rfl, hsub⟩

/-- What was seen of the cancellation of an operation that has no result yet. -/
def Marked (R : Rules Op Key Res) (op : Op) (tr : List (Event Op Key Res)) : Stage Res → Prop
  | .absent => .submit op ∉ tr
  | .waiting => .submit op ∈ tr ∧ ¬ Struck R op tr
  | .struck => Struck R op tr
  | _ => True

/-- The results that were seen are the cancelled one exactly where they should. -/
def Answered (R : Rules Op Key Res) (op : Op) (tr : List (Event Op Key Res)) : Prop :=
  ∀ a r b, tr = a ++ .complete op r :: b → (r = R.cancelled ↔ Struck R op a)

omit [DecidableEq Op] [DecidableEq Key] in

/-- One more event keeps the answers right, if a completion with the cancelled result follows a
    cancellation and no other completion does. -/
theorem Answered.append {op : Op} {e : Event Op Key Res} (h : Answered R op tr)
    (he : ∀ r, e = .complete op r → (r = R.cancelled ↔ Struck R op tr)) :
    Answered R op (tr ++ [e]) := by
  intro a r b heq
  rcases List.eq_nil_or_concat b with rfl | ⟨b, e', rfl⟩
  · obtain ⟨rfl, hlast⟩ := List.append_inj' heq rfl
    exact he r (List.cons.inj hlast).1
  · rw [List.concat_eq_append, ← List.cons_append, ← List.append_assoc] at heq
    exact h a r b (List.append_inj' heq rfl).1

omit [DecidableEq Op] [DecidableEq Key] in
/-- An event that neither submits nor cancels the operation. -/
theorem Marked.keep {op : Op} {p : Stage Res} {e : Event Op Key Res} (h : Marked R op tr p)
    (hsub : e ≠ .submit op) (hcan : ∀ k, R.source op = some k → e ≠ .cancel k) :
    Marked R op (tr ++ [e]) p := by
  have hstruck : Struck R op (tr ++ [e]) ↔ Struck R op tr := by
    rw [struck_append]
    exact or_iff_left (fun ⟨k, hk, he, _⟩ => hcan k hk he)
  cases p with
  | absent =>
    rw [Marked, List.mem_append, List.mem_singleton]
    rintro (hm | hm)
    · exact h hm
    · exact hsub hm.symm
  | waiting => exact ⟨List.mem_append_left _ h.1, fun hs => h.2 (hstruck.mp hs)⟩
  | struck => exact hstruck.mpr h
  | _ => trivial

omit [DecidableEq Key] in
/-- An event of an operation takes it from one stage to another. -/
theorem marked_set {x : State Op Res} {x₀ : Op} {p : Stage Res} {e : Event Op Key Res}
    (h : ∀ op, Marked R op tr (x.stage op)) (he : e.op? = some x₀)
    (hp : Marked R x₀ (tr ++ [e]) p) (op : Op) :
    Marked R op (tr ++ [e]) ((x.set x₀ p).stage op) := by
  by_cases hop : op = x₀
  · subst hop
    rw [State.set_stage_self]
    exact hp
  · rw [State.set_stage_of_ne hop]
    refine (h op).keep ?_ ?_
    · rintro rfl
      exact hop (Option.some.inj he)
    · rintro k - rfl
      exact absurd he (by simp [Event.op?])

/-- **One event, and what is known of the cancellations.** -/
theorem Step.marked {e : Event Op Key Res} (hs : Step R x e y)
    (h : ∀ op, Marked R op tr (x.stage op)) (op : Op) :
    Marked R op (tr ++ [e]) (y.stage op) := by
  cases hs with
  | @submit op₀ hopen hp =>
    have hnot := h op₀
    rw [hp] at hnot
    have hnew : Marked R op₀ (tr ++ [.submit op₀]) .waiting := by
      refine ⟨by simp, fun hs => ?_⟩
      rcases struck_append.mp hs with ⟨a, b, k, -, rfl, hsub⟩ | ⟨k, -, he, -⟩
      · exact hnot (List.mem_append_left _ hsub)
      · exact absurd he (by simp)
    exact marked_set h rfl hnew op
  | complete hopen hp hr | completeStruck hopen hp | start hopen hp | finish hopen hp =>
    -- nothing is known of an operation that has its result
    apply marked_set h rfl
    trivial
  | @cancel k hopen =>
    have hop := h op
    rw [State.strike]
    dsimp only
    split
    · rename_i hk
      cases hstage : x.stage op with
      | waiting =>
        rw [hstage] at hop
        exact struck_append.mpr (.inr ⟨k, hk, rfl, hop.1⟩)
      | struck =>
        rw [hstage] at hop
        exact struck_append.mpr (.inl hop)
      | absent =>
        rw [hstage] at hop
        rw [Marked, List.mem_append, List.mem_singleton]
        rintro (hm | hm)
        · exact hop hm
        · exact absurd hm (by simp)
      | _ => trivial
    · rename_i hk
      refine hop.keep (by simp) ?_
      rintro k' hk' heq
      rw [Event.cancel.injEq] at heq
      exact hk (heq ▸ hk')
  | shutdown hopen hidle =>
    have hop := (h op).keep (e := .shutdown) (by simp) (by simp)
    dsimp only
    cases hstage : x.stage op with
    | absent =>
      rw [hstage] at hop
      exact hop
    | _ => trivial

/-- **One event, and the results seen.** -/
theorem Step.answered {e : Event Op Key Res} (hs : Step R x e y) {op : Op}
    (hm : Marked R op tr (x.stage op)) (h : Answered R op tr) : Answered R op (tr ++ [e]) := by
  refine h.append ?_
  rintro r rfl
  cases hs with
  | complete hopen hp hr =>
    rw [hp] at hm
    exact iff_of_false (R.yields_ne _ _ hr) hm.2
  | completeStruck hopen hp =>
    rw [hp] at hm
    exact iff_of_true rfl hm

/-- **Cancellation is exact**: in every run of an executor, an operation is completed with the
    cancelled result exactly if its source was cancelled between its submission and this. -/
theorem Steps.completed_iff (h : Steps (Step R) .init tr x) {op : Op} {r : Res}
    {a b : List (Event Op Key Res)} (htr : tr = a ++ .complete op r :: b) :
    r = R.cancelled ↔ Struck R op a := by
  have hinit : (∀ op, Marked R op [] ((State.init : State Op Res).stage op)) ∧
      Answered R op ([] : List (Event Op Key Res)) :=
    ⟨fun _ => by simp [State.init, Marked], fun a r b heq => absurd heq (by simp)⟩
  have hinv := Transition.Steps.invariant
    (fun tr (x : State Op Res) => (∀ op, Marked R op tr (x.stage op)) ∧ Answered R op tr)
    (fun _ _ _ _ hx hs => ⟨hs.marked hx.1, hs.answered (hx.1 op) hx.2⟩) h hinit
  rw [List.nil_append] at hinv
  exact hinv.2 a r b htr

/-! ### Batches of completions -/

/-- Some operations have got their results. -/
def State.settle (x : State Op Res) (ops : List Op) (f : Op → Res) : State Op Res :=
  { x with stage := fun op => if op ∈ ops then .ready (f op) else x.stage op }

/-- Several operations are completed, one after the other. -/
theorem steps_complete {ops : List Op} (f : Op → Res) (hopen : x.closed = false) (hnd : ops.Nodup)
    (h : ∀ op ∈ ops, (x.stage op = .waiting ∧ R.yields op (f op)) ∨
      (x.stage op = .struck ∧ f op = R.cancelled)) :
    Steps (Step R) x (ops.map (fun op => .complete op (f op))) (x.settle ops f) := by
  induction ops generalizing x with
  | nil =>
    rw [State.settle]
    simp only [List.not_mem_nil, if_false]
    exact .nil x
  | cons op ops ih =>
    rw [List.nodup_cons] at hnd
    have hne : ∀ op' ∈ ops, op' ≠ op := fun op' hop' he => hnd.1 (he ▸ hop')
    have hfirst : Step R x (.complete op (f op)) (x.set op (.ready (f op))) := by
      rcases h op List.mem_cons_self with ⟨hp, hr⟩ | ⟨hp, hr⟩
      · exact .complete hopen hp hr
      · rw [hr]
        exact .completeStruck hopen hp
    have hrest : Steps (Step R) (x.set op (.ready (f op)))
        (ops.map (fun op => .complete op (f op))) ((x.set op (.ready (f op))).settle ops f) := by
      -- completing one operation leaves the stages of the others, as they are distinct
      refine ih hopen hnd.2 (fun op' hop' => ?_)
      rw [State.set_stage_of_ne (hne op' hop')]
      exact h op' (List.mem_cons_of_mem op hop')
    have hsettle : (x.set op (.ready (f op))).settle ops f = x.settle (op :: ops) f := by
      ext op'
      · by_cases he : op' = op
        · simp [State.settle, he, hnd.1]
        · simp [State.settle, State.set_stage_of_ne he, he]
      · rfl
    exact .cons hfirst (hsettle ▸ hrest)

end Exios.Executor
