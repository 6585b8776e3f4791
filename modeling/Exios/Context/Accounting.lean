import Exios.Context.Work

namespace Exios

/-!
# Context — work accounting

`remaining_count_` is the number of active `Work` objects, in every run:

* `WorkInv` — that, and where the `work` of a `wrap_work` is: in the operation until its storage
  is released, then in the frame of `dispatch` until the handler has ended;
* `step_workInv` — every step keeps it; the closures move with `dispatch` (`moveOut_workInv`),
  and the destructor of the context destroys the rest (`discard_workInv`);
* `work_accounting` — what follows: `release_work` never finds the count at zero, and `run`
  leaves its loop only when all operations made with `wrap_work` are over.
-/

namespace Works

open ContextThread (Step)

variable {K : Type} {n : Nat} {M : Kernel K} {s s' : Works K n} {t : Fin n}

/-- The thread is dispatching the operation, and its handler has not ended. -/
def Executing (s : Works K n) (t : Fin n) (op : AnyAsyncOperation) : Prop :=
  (s.ctx.threads t).pc.dispatching = some op ∧ s.ended t = false

/-- The operation whose closure a place is in. -/
def holder (s : Works K n) : WorkPlace n → Option AnyAsyncOperation
  | .operation op _ => some op
  | .frame t _ => (s.ctx.threads t).pc.dispatching
  | _ => none

/-- The operation owns an active `Work`. -/
def Owns (s : Works K n) (op : AnyAsyncOperation) : Prop :=
  ∃ p ∈ s.works.active, s.holder p = some op

/-! ### The invariant -/

/-- The invariant of the work count. -/
structure WorkInv (s : Works K n) : Prop where
  result : s.ctx.ResultInv
  place : s.ctx.PlaceInv
  count : s.ctx.remainingCount = s.works.count
  /-- An operation holds the `work` of its `wrap_work` until its storage is released, -/
  stored : ∀ op ∈ s.made, op ∉ s.ctx.released → .operation op 0 ∈ s.works.active
  /-- and then the frame of `dispatch` does, until the handler has ended. -/
  running : ∀ u, ∀ op ∈ s.made, s.Executing u op → .frame u 0 ∈ s.works.active
  settled : ∀ op ∈ s.ctx.released, op ∈ s.finished ∨ op ∈ s.discarded ∨ ∃ u, s.Executing u op
  dispatched : ∀ u op, (s.ctx.threads u).pc.dispatching = some op → op ∈ s.ctx.released
  ended : ∀ u, s.ended u = true → (s.ctx.threads u).pc.dispatching ≠ none
  frame : ∀ u i, .frame u i ∈ s.works.live → (s.ctx.threads u).pc.dispatching ≠ none
  slot : ∀ op, .operation op 0 ∈ s.works.live → op ∈ s.made
  temporary : ∀ u, .temporary u ∈ s.works.live → .temporary u ∈ s.works.active

/-- A constructed context has no work, and nothing to count. -/
theorem init_workInv (h : Init s) : s.WorkInv := by
  obtain ⟨hctx, hs⟩ := h
  -- nobody dispatches and nothing is released
  have hpc : ∀ u, (s.ctx.threads u).pc.dispatching = none := by
    intro u
    rw [hctx.2]
    rfl
  have hreleased : s.ctx.released = [] := by
    rw [hctx.2]
    rfl
  rw [hs]
  exact
    { result := ContextThread.init_resultInv hctx
      place := ContextThread.init_placeInv hctx
      count := by
        show s.ctx.remainingCount = 0
        rw [hctx.2]
      stored := by simp
      running := by simp
      settled := by simp [hreleased]
      dispatched := by simp [hpc]
      ended := by simp
      frame := by simp [Tokens.empty]
      slot := by simp [Tokens.empty]
      temporary := by simp [Tokens.empty] }

namespace WorkInv

/-- A step of the context that leaves the closures where they are. -/
theorem withCtx (h : s.WorkInv) {ctx : ContextThread K n} (hres : ctx.ResultInv)
    (hplace : ctx.PlaceInv) (hsame : ContextThread.SameDispatch s.ctx ctx)
    (hcount : ctx.remainingCount = s.works.count) : ({ s with ctx := ctx }).WorkInv where
  result := hres
  place := hplace
  count := hcount
  stored := fun op hop hnew => h.stored op hop (hsame.released ▸ hnew)
  running := fun u op hop hrun => h.running u op hop ⟨hsame.dispatching u ▸ hrun.1, hrun.2⟩
  -- a released operation's fate does not change while nobody is dispatched
  settled := by
    intro op hop
    rcases h.settled op (hsame.released ▸ hop) with hfin | hdis | ⟨u, hrun⟩
    · exact Or.inl hfin
    · exact Or.inr (Or.inl hdis)
    · exact Or.inr (Or.inr ⟨u, (hsame.dispatching u).trans hrun.1, hrun.2⟩)
  dispatched := by
    intro u op hop
    show op ∈ ctx.released
    rw [hsame.released]
    exact h.dispatched u op (hsame.dispatching u ▸ hop)
  ended := by
    intro u hu
    show (ctx.threads u).pc.dispatching ≠ none
    rw [hsame.dispatching u]
    exact h.ended u hu
  frame := by
    intro u i hu
    show (ctx.threads u).pc.dispatching ≠ none
    rw [hsame.dispatching u]
    exact h.frame u i hu
  slot := h.slot
  temporary := h.temporary

end WorkInv

/-- The objects that the invariant speaks of stay as they are. -/
structure Keeps (s : Works K n) (works : Tokens (WorkPlace n)) : Prop where
  operation : ∀ op, .operation op 0 ∈ s.works.active → .operation op 0 ∈ works.active
  frame : ∀ u, s.ended u = false → .frame u 0 ∈ s.works.active → .frame u 0 ∈ works.active
  temporary : ∀ u, .temporary u ∈ works.live → .temporary u ∈ works.active
  operation_live : ∀ op, .operation op 0 ∈ works.live → .operation op 0 ∈ s.works.live
  frame_live : ∀ u i, .frame u i ∈ works.live →
    .frame u i ∈ s.works.live ∨ (s.ctx.threads u).pc.dispatching ≠ none

/-- The objects change, and the count with them. -/
theorem WorkInv.withWorks (h : s.WorkInv) {works : Tokens (WorkPlace n)} (hkeeps : s.Keeps works)
    {ctx : ContextThread K n} (hres : ctx.ResultInv) (hplace : ctx.PlaceInv)
    (hsame : ContextThread.SameDispatch s.ctx ctx) (hcount : ctx.remainingCount = works.count) :
    ({ s with ctx := ctx, works := works }).WorkInv := by
  -- first the tokens alone, then the context under them
  have hworks : ({ s with
      ctx := { s.ctx with remainingCount := works.count }
      works := works }).WorkInv :=
    { result := h.result.shared _ _ _ _ _
      place := h.place.shared _ _ _ _
      count := rfl
      stored := fun op hop hnew => hkeeps.operation op (h.stored op hop hnew)
      running := fun u op hop hrun => hkeeps.frame u hrun.2 (h.running u op hop hrun)
      settled := h.settled
      dispatched := h.dispatched
      ended := h.ended
      frame := fun u i hu => (hkeeps.frame_live u i hu).elim (h.frame u i) id
      slot := fun op hop => h.slot op (hkeeps.operation_live op hop)
      temporary := hkeeps.temporary }
  exact hworks.withCtx hres hplace ⟨hsame.released, hsame.dispatching⟩ hcount

/-! ### `Work` objects -/

/-- The program cannot name the `work` of a `wrap_work`. -/
theorem accessible_ne (s : Works K n) {p : WorkPlace n} (hp : s.accessible t p = true) :
    (∀ u, p ≠ .temporary u) ∧ (∀ op, p ≠ .operation op 0) ∧ (∀ u, p ≠ .frame u 0) := by
  refine ⟨?_, ?_, ?_⟩ <;> rintro x rfl <;> simp [accessible] at hp

/-- A frame that the program can name is being used. -/
theorem accessible_frame (s : Works K n) {u : Fin n} {i : Nat}
    (hp : s.accessible t (.frame u i) = true) : (s.ctx.threads u).pc.dispatching ≠ none := by
  simp only [accessible, decide_eq_true_eq] at hp
  obtain ⟨rfl, -, hsome⟩ := hp
  exact Option.isSome_iff_ne_none.mp hsome

/-- What `destructible` adds. -/
theorem destructible_cases (s : Works K n) {p : WorkPlace n} (hp : s.destructible t p = true) :
    s.accessible t p = true ∨ p = .temporary t ∨ (p = .frame t 0 ∧ s.ended t = true) := by
  cases p with
  | object | operation => exact Or.inl hp
  | temporary u =>
    rw [destructible, decide_eq_true_eq] at hp
    exact Or.inr (Or.inl (by rw [hp]))
  | frame u i =>
    cases i with
    | zero =>
      rw [destructible, decide_eq_true_eq] at hp
      exact Or.inr (Or.inr ⟨by rw [hp.1], hp.2⟩)
    | succ i => exact Or.inl hp

/-- A new object, outside the operations and the unused frames. -/
theorem keeps_construct (h : s.WorkInv) {p : WorkPlace n} (hop : ∀ op, p ≠ .operation op 0)
    (hframe : ∀ u i, p = .frame u i → (s.ctx.threads u).pc.dispatching ≠ none) :
    s.Keeps (s.works.construct p) := by
  refine ⟨fun op hmem => ?_, fun u _ hmem => ?_, fun u hu => ?_, fun op hmem => ?_,
    fun u i hmem => ?_⟩
  · exact Tokens.mem_active_construct.mpr (Or.inr hmem)
  · exact Tokens.mem_active_construct.mpr (Or.inr hmem)
  · exact Tokens.mem_active_construct.mpr
      ((Tokens.mem_live_construct.mp hu).imp_right (h.temporary u))
  · exact (Tokens.mem_live_construct.mp hmem).resolve_left (hop op).symm
  · exact (Tokens.mem_live_construct.mp hmem).symm.imp_right (fun heq => hframe u i heq.symm)

/-- A move between places that the program can name. -/
theorem keeps_move (h : s.WorkInv) {p q : WorkPlace n} (hp : s.accessible t p = true)
    (hq : s.accessible t q = true) : s.Keeps (s.works.move p q) := by
  obtain ⟨hptemp, hpop, hpframe⟩ := s.accessible_ne hp
  obtain ⟨hqtemp, hqop, -⟩ := s.accessible_ne hq
  refine ⟨fun op hmem => ?_, fun u _ hmem => ?_, fun u hu => ?_, fun op hmem => ?_,
    fun u i hmem => ?_⟩
  · exact Tokens.mem_active_move.mpr (Or.inr ⟨(hpop op).symm, hmem⟩)
  · exact Tokens.mem_active_move.mpr (Or.inr ⟨(hpframe u).symm, hmem⟩)
  · have hlive := (Tokens.mem_live_move.mp hu).resolve_left (hqtemp u).symm
    exact Tokens.mem_active_move.mpr (Or.inr ⟨(hptemp u).symm, h.temporary u hlive⟩)
  · exact (Tokens.mem_live_move.mp hmem).resolve_left (hqop op).symm
  · rcases Tokens.mem_live_move.mp hmem with rfl | hlive
    · exact Or.inr (s.accessible_frame hq)
    · exact Or.inl hlive

/-- A `reset` or a destructor. -/
theorem GivesUp.keeps (h : s.WorkInv) {p : WorkPlace n} {a : WorkAct K n}
    {works : Tokens (WorkPlace n)} (hgive : GivesUp s t p a works) : s.Keeps works := by
  cases hgive with
  | reset hp =>
    -- an object of the program's own is no operation's closure and in no frame
    obtain ⟨htemp, hop, hframe⟩ := s.accessible_ne hp
    refine ⟨fun op hmem => ?_, fun u _ hmem => ?_, fun u hu => ?_,
      fun op hmem => Tokens.mem_live_reset.mp hmem,
      fun u i hmem => Or.inl (Tokens.mem_live_reset.mp hmem)⟩
    · exact Tokens.mem_active_reset.mpr ⟨(hop op).symm, hmem⟩
    · exact Tokens.mem_active_reset.mpr ⟨(hframe u).symm, hmem⟩
    · exact Tokens.mem_active_reset.mpr
        ⟨(htemp u).symm, h.temporary u (Tokens.mem_live_reset.mp hu)⟩
  -- what may be destroyed beside those is behind the operations, or in a frame whose handler has
  -- ended
  | destroy hp =>
    have hop : ∀ op, p ≠ .operation op 0 := by
      rintro op rfl
      rcases s.destructible_cases hp with hacc | heq | ⟨heq, -⟩
      · exact (s.accessible_ne hacc).2.1 op rfl
      · exact absurd heq (by simp)
      · exact absurd heq (by simp)
    have hframe : ∀ u, s.ended u = false → p ≠ .frame u 0 := by
      rintro u hu rfl
      rcases s.destructible_cases hp with hacc | heq | ⟨heq, hended⟩
      · exact (s.accessible_ne hacc).2.2 u rfl
      · exact absurd heq (by simp)
      · rw [WorkPlace.frame.injEq] at heq
        rw [heq.1, hended] at hu
        exact absurd hu (by simp)
    refine ⟨fun op hmem => ?_, fun u hu hmem => ?_, fun u hu => ?_, fun op hmem => ?_,
      fun u i hmem => ?_⟩
    · exact Tokens.mem_active_destroy.mpr ⟨(hop op).symm, hmem⟩
    · exact Tokens.mem_active_destroy.mpr ⟨(hframe u hu).symm, hmem⟩
    · obtain ⟨hne, hlive⟩ := Tokens.mem_live_destroy.mp hu
      exact Tokens.mem_active_destroy.mpr ⟨hne, h.temporary u hlive⟩
    · exact (Tokens.mem_live_destroy.mp hmem).2
    · exact Or.inl (Tokens.mem_live_destroy.mp hmem).2

/-- Giving up the work of a place counts as resetting it. -/
theorem GivesUp.count {p : WorkPlace n} {a : WorkAct K n} {works : Tokens (WorkPlace n)}
    (hgive : GivesUp s t p a works) : works.count = (s.works.reset p).count := by
  cases hgive with
  | reset => rfl
  | destroy => exact Tokens.count_destroy

/-! ### Steps -/

/-- The closure of `wrap_work` is moved into a new operation. -/
theorem make_workInv (h : s.WorkInv) {op : AnyAsyncOperation}
    (hlive : .temporary t ∈ s.works.live) (hmade : op ∉ s.made) (hhanded : op ∉ s.ctx.handed) :
    ({ s with
      works := (s.works.move (.temporary t) (.operation op 0)).destroy (.temporary t)
      made := s.made ++ [op] }).WorkInv := by
  have hfree : .operation op 0 ∉ s.works.live := fun hmem => hmade (h.slot op hmem)
  have hactive := h.temporary t hlive
  -- where the objects are afterwards
  have hactive_iff : ∀ x,
      x ∈ ((s.works.move (.temporary t) (.operation op 0)).destroy (.temporary t)).active ↔
        x = .operation op 0 ∨ (x ≠ .temporary t ∧ x ∈ s.works.active) := by
    intro x
    rw [Tokens.mem_active_destroy, Tokens.mem_active_move]
    by_cases hx : x = .operation op 0
    · simp [hx, hactive]
    · simp [hx]
  have hlive_iff : ∀ x,
      x ∈ ((s.works.move (.temporary t) (.operation op 0)).destroy (.temporary t)).live ↔
        x ≠ .temporary t ∧ (x = .operation op 0 ∨ x ∈ s.works.live) := by
    intro x
    rw [Tokens.mem_live_destroy, Tokens.mem_live_move]
  -- the new operation was not handed to the context, so nothing has happened to it
  have hnew : op ∉ s.ctx.released :=
    fun hrel => hhanded ((h.place.placed.mem_iff op).mpr ⟨.consumed, hrel⟩)
  refine
    { result := h.result
      place := h.place
      count := ?_
      stored := ?_
      running := ?_
      settled := h.settled
      dispatched := h.dispatched
      ended := h.ended
      frame := ?_
      slot := ?_
      temporary := ?_ }
  · show s.ctx.remainingCount = _
    rw [Tokens.relocate_swap hlive hfree, Tokens.count_relocate]
    exact h.count
  · intro x hx hrel
    rw [hactive_iff]
    rcases List.mem_append.mp hx with hx | hx
    · exact Or.inr ⟨by simp, h.stored x hx hrel⟩
    · rw [List.mem_singleton] at hx
      exact Or.inl (by rw [hx])
  · intro u x hx hrun
    rw [hactive_iff]
    rcases List.mem_append.mp hx with hx | hx
    · exact Or.inr ⟨by simp, h.running u x hx hrun⟩
    · rw [List.mem_singleton] at hx
      exact absurd (h.dispatched u x hrun.1) (hx ▸ hnew)
  · intro u i hu
    rw [hlive_iff] at hu
    exact h.frame u i (hu.2.resolve_left (by simp))
  · intro x hx
    rw [hlive_iff] at hx
    rcases hx.2 with heq | hx
    · rw [WorkPlace.operation.injEq] at heq
      exact List.mem_append.mpr (Or.inr (by simp [heq.1]))
    · exact List.mem_append.mpr (Or.inl (h.slot x hx))
  · intro u hu
    rw [hlive_iff] at hu
    rw [hactive_iff]
    exact Or.inr ⟨hu.1, h.temporary u (hu.2.resolve_left (by simp))⟩

/-- `dispatch` moves the closure of the first operation of the batch into its frame. -/
theorem moveOut_workInv (h : s.WorkInv) {op : AnyAsyncOperation} {rest : List AnyAsyncOperation}
    {ctx : ContextThread K n} (hbatch : (s.ctx.threads t).batch = op :: rest)
    (hs : Step M s.ctx (.thread t .drain) ctx) :
    ({ s with
      ctx := ctx
      works := s.works.relocate (moveOut_involutive op t).toPerm }).WorkInv := by
  have hres := ContextThread.step_resultInv h.result hs
  have hplace := ContextThread.step_placeInv h.result h.place hs
  have hcount := hs.remainingCount (by simp) (by simp)
  -- the thread dispatched nothing before, so its frame is empty
  obtain ⟨hidle, hreleased, hdispatching⟩ := hs.popFront hbatch
  have hended : s.ended t = false := by
    rw [← Bool.not_eq_true]
    exact fun he => h.ended t he hidle
  have hframe : ∀ i, .frame t i ∉ s.works.live := fun i hi => h.frame t i hi hidle
  have hstored : op ∉ s.ctx.released :=
    h.place.placed.not_mem (show Place.batch t ≠ .consumed by simp)
      (show op ∈ (s.ctx.threads t).batch by rw [hbatch]; exact List.mem_cons_self)
  refine
    { result := hres
      place := hplace
      count := ?_
      stored := ?_
      running := ?_
      settled := ?_
      dispatched := ?_
      ended := ?_
      frame := ?_
      slot := ?_
      temporary := ?_ }
  · show ctx.remainingCount = _
    rw [hcount, Tokens.count_relocate]
    exact h.count
  · -- the closures of the other operations stay where they are
    intro y hy hrel
    have hrel' : y ∉ s.ctx.released ∧ y ≠ op := by simpa [hreleased] using hrel
    rw [mem_active_moveOut]
    simpa [Exios.moveOut, hrel'.2] using h.stored y hy hrel'.1
  · -- the `work` of the operation is now in the frame of the thread
    rintro u y hy ⟨hrun, hnot⟩
    have hrun' : (if u = t then some op else (s.ctx.threads u).pc.dispatching) = some y :=
      (hdispatching u).symm.trans hrun
    rw [mem_active_moveOut]
    by_cases hu : u = t
    · rw [if_pos hu, Option.some.injEq] at hrun'
      subst hrun'
      simpa [Exios.moveOut, hu] using h.stored op hy hstored
    · rw [if_neg hu] at hrun'
      simpa [Exios.moveOut, hu] using h.running u y hy ⟨hrun', hnot⟩
  · -- what was released before is over or executing elsewhere; the operation itself executes here
    intro y hy
    have hy' : y ∈ s.ctx.released ∨ y = op := by simpa [hreleased] using hy
    rcases hy' with hy' | rfl
    · rcases h.settled y hy' with hfin | hdis | ⟨u, hrun, hnot⟩
      · exact Or.inl hfin
      · exact Or.inr (Or.inl hdis)
      · have hu : u ≠ t := by
          rintro rfl
          rw [hidle] at hrun
          exact absurd hrun (by simp)
        exact Or.inr (Or.inr ⟨u, (hdispatching u).trans (by rw [if_neg hu, hrun]), hnot⟩)
    · exact Or.inr (Or.inr ⟨t, (hdispatching t).trans (if_pos rfl), hended⟩)
  · intro u y hy
    have hy' : (if u = t then some op else (s.ctx.threads u).pc.dispatching) = some y :=
      (hdispatching u).symm.trans hy
    show y ∈ ctx.released
    rw [hreleased, List.mem_append, List.mem_singleton]
    split at hy'
    · exact Or.inr (Option.some.inj hy').symm
    · exact Or.inl (h.dispatched u y hy')
  · intro u hu
    show (ctx.threads u).pc.dispatching ≠ none
    rw [hdispatching]
    split
    · simp
    · exact h.ended u hu
  · intro u i hu
    show (ctx.threads u).pc.dispatching ≠ none
    rw [hdispatching]
    rw [mem_live_moveOut] at hu
    split
    · simp
    · rename_i hne
      exact h.frame u i (by simpa [Exios.moveOut, hne] using hu)
  · intro y hy
    rw [mem_live_moveOut] at hy
    by_cases hyop : y = op
    · have hfr : .frame t 0 ∈ s.works.live := by simpa [Exios.moveOut, hyop] using hy
      exact absurd hfr (hframe 0)
    · exact h.slot y (by simpa [Exios.moveOut, hyop] using hy)
  · intro u hu
    rw [mem_live_moveOut] at hu
    rw [mem_active_moveOut]
    exact h.temporary u hu

/-- The handler has ended and its closure is destroyed: `dispatch` is left. -/
theorem leave_workInv (h : s.WorkInv) {a : Act} {ctx : ContextThread K n}
    (ha : a = .handlerReturn ∨ a = .handlerThrow)
    (hclosed : ∀ p ∈ s.works.live, p.inFrame t = false) (hended : s.ended t = true)
    (hs : Step M s.ctx (.thread t a) ctx) :
    ({ s with ctx := ctx, ended := Function.update s.ended t false }).WorkInv := by
  have hres := ContextThread.step_resultInv h.result hs
  have hplace := ContextThread.step_placeInv h.result h.place hs
  have hcount := hs.remainingCount (by rcases ha with rfl | rfl <;> simp)
    (by rcases ha with rfl | rfl <;> simp)
  obtain ⟨hreleased, hdispatching⟩ := hs.leave ha
  have hother : ∀ u, u ≠ t → Function.update s.ended t false u = s.ended u :=
    fun u hu => Function.update_of_ne hu _ _
  -- what another thread is executing it was executing before, and the thread was executing nothing
  have hexec : ∀ u op, (({ s with
      ctx := ctx, ended := Function.update s.ended t false }).Executing u op ↔ s.Executing u op) := by
    intro u op
    unfold Executing
    dsimp only
    rw [hdispatching]
    by_cases hu : u = t
    · subst hu
      simp [hended]
    · rw [if_neg hu, hother u hu]
  refine
    { result := hres
      place := hplace
      count := hcount.trans h.count
      stored := fun op hop hrel => h.stored op hop (hreleased ▸ hrel)
      running := fun u op hop hrun => h.running u op hop ((hexec u op).mp hrun)
      settled := ?_
      dispatched := ?_
      ended := ?_
      frame := ?_
      slot := h.slot
      temporary := h.temporary }
  · intro op hop
    refine (h.settled op (hreleased ▸ hop)).imp_right (Or.imp_right ?_)
    rintro ⟨u, hrun⟩
    exact ⟨u, (hexec u op).mpr hrun⟩
  · intro u op hop
    show op ∈ ctx.released
    have hop' : (ctx.threads u).pc.dispatching = some op := hop
    rw [hdispatching] at hop'
    split at hop'
    · exact absurd hop' (by simp)
    · exact hreleased ▸ h.dispatched u op hop'
  · intro u hu
    show (ctx.threads u).pc.dispatching ≠ none
    have hut : u ≠ t := by
      rintro rfl
      exact absurd hu (by simp)
    rw [hdispatching, if_neg hut]
    exact h.ended u (hother u hut ▸ hu)
  · intro u i hu
    show (ctx.threads u).pc.dispatching ≠ none
    have hut : u ≠ t := by
      rintro rfl
      exact absurd (hclosed _ hu) (by simp [WorkPlace.inFrame])
    rw [hdispatching, if_neg hut]
    exact h.frame u i hu

/-- The releases of destroyed objects lower the count by their number. -/
theorem releaseAll_eq {k count : Nat} (h : k ≤ count) : releaseAll k count = .ok (count - k) := by
  induction k generalizing count with
  | zero => rfl
  | succ k ih =>
    rw [releaseAll, if_pos (by omega), ih (by omega)]
    congr 1
    omega

/-- The destructor of the context discards the operations that are left, with their closures. -/
theorem discard_workInv (h : s.WorkInv) {ctx : ContextThread K n} {count : Nat}
    (hs : Step M s.ctx .destroy ctx)
    (hcount : releaseAll (s.works.countAt (WorkPlace.inside s.leftOver)) ctx.remainingCount
      = .ok count) :
    ({ s with
      ctx := { ctx with remainingCount := count }
      works := s.works.discard (WorkPlace.inside s.leftOver)
      discarded := s.discarded ++ s.leftOver }).WorkInv := by
  have hres := ContextThread.step_resultInv h.result hs
  have hplace := ContextThread.step_placeInv h.result h.place hs
  have hout : (∀ u, (s.ctx.threads u).pc = .out) ∧ ctx = s.ctx.destroy := by
    cases hs with
    | destroy hlive hout => exact ⟨fun u => (hout u).1, rfl⟩
  obtain ⟨hout, rfl⟩ := hout
  -- the destructor runs when nobody is inside, so nothing is being dispatched
  have hidle : ∀ u, (s.ctx.threads u).pc.dispatching = none := by
    intro u
    rw [hout u]
    rfl
  have hreleased : s.ctx.destroy.released = s.ctx.released ++ s.leftOver := s.ctx.destroy_released
  have hsplit := s.works.count_discard (WorkPlace.inside s.leftOver)
  -- the releases find their units: what is left over was counted
  have hcount' : count = (s.works.discard (WorkPlace.inside s.leftOver)).count := by
    rw [show s.ctx.destroy.remainingCount = s.works.count from h.count,
      releaseAll_eq (by omega), Except.ok.injEq] at hcount
    omega
  refine
    { result := hres.shared _ _ _ _ _
      place := hplace.shared _ _ _ _
      count := hcount'
      stored := ?_
      running := fun u op _ hrun => absurd ((hidle u).symm.trans hrun.1) (by simp)
      settled := ?_
      dispatched := fun u op hop => absurd ((hidle u).symm.trans hop) (by simp)
      ended := fun u hu => absurd (hidle u) (h.ended u hu)
      frame := fun u i hu => absurd (hidle u) (h.frame u i (Tokens.mem_live_discard.mp hu).1)
      slot := fun op hop => h.slot op (Tokens.mem_live_discard.mp hop).1
      temporary := ?_ }
  · intro op hop hrel
    have hrel' : op ∉ s.ctx.destroy.released := hrel
    rw [hreleased, List.mem_append, not_or] at hrel'
    refine Tokens.mem_active_discard.mpr ⟨h.stored op hop hrel'.1, ?_⟩
    simpa [WorkPlace.inside] using hrel'.2
  · intro op hop
    have hop' : op ∈ s.ctx.destroy.released := hop
    rw [hreleased, List.mem_append] at hop'
    -- discarded before, or by this destructor
    rcases hop' with hop' | hop'
    · rcases h.settled op hop' with hfin | hdis | ⟨u, hrun⟩
      · exact Or.inl hfin
      · exact Or.inr (Or.inl (List.mem_append_left _ hdis))
      · exact absurd ((hidle u).symm.trans hrun.1) (by simp)
    · exact Or.inr (Or.inl (List.mem_append_right _ hop'))
  · intro u hu
    exact Tokens.mem_active_discard.mpr
      ⟨h.temporary u (Tokens.mem_live_discard.mp hu).1, rfl⟩

/-- A handler returns or throws. -/
theorem handlerEnd_workInv (h : s.WorkInv) {op : AnyAsyncOperation}
    (hpc : (s.ctx.threads t).pc = .handler op) :
    ({ s with
      ended := Function.update s.ended t true
      finished := s.finished ++ [op] }).WorkInv := by
  have hdispatching : (s.ctx.threads t).pc.dispatching = some op := by rw [hpc]; rfl
  have hother : ∀ u, u ≠ t → Function.update s.ended t true u = s.ended u :=
    fun u hu => Function.update_of_ne hu _ _
  refine
    { result := h.result
      place := h.place
      count := h.count
      stored := h.stored
      running := ?_
      settled := ?_
      dispatched := h.dispatched
      ended := ?_
      frame := h.frame
      slot := h.slot
      temporary := h.temporary }
  · rintro u x hx ⟨hrun, hnot⟩
    have hut : u ≠ t := by
      rintro rfl
      exact absurd hnot (by simp)
    exact h.running u x hx ⟨hrun, hother u hut ▸ hnot⟩
  · intro x hx
    rcases h.settled x hx with hfin | hdis | ⟨u, hrun, hnot⟩
    · exact Or.inl (List.mem_append_left _ hfin)
    · exact Or.inr (Or.inl hdis)
    · by_cases hut : u = t
      · -- the operation that was executing has finished
        rw [hut, hdispatching, Option.some.injEq] at hrun
        exact Or.inl (List.mem_append_right _ (by simp [hrun]))
      · exact Or.inr (Or.inr ⟨u, hrun, (hother u hut).trans hnot⟩)
  · intro u hu
    by_cases hut : u = t
    · show (s.ctx.threads u).pc.dispatching ≠ none
      rw [hut, hdispatching]
      simp
    · exact h.ended u (hother u hut ▸ hu)

/-- **Every step keeps the invariant.** -/
theorem step_workInv (h : s.WorkInv) {a : WorkAct K n} (hs : WorkStep M s a s') : s'.WorkInv := by
  have hres : ∀ {l ctx}, Step M s.ctx l ctx → ctx.ResultInv :=
    fun hs => ContextThread.step_resultInv h.result hs
  have hplace : ∀ {l ctx}, Step M s.ctx l ctx → ctx.PlaceInv :=
    fun hs => ContextThread.step_placeInv h.result h.place hs
  cases hs with
  | pass hl hs =>
    apply h.withCtx (hres hs) (hplace hs) (hs.sameDispatch (Or.inl hl))
    refine (hs.remainingCount ?_ ?_).trans h.count <;> rintro t rfl <;>
      -- `latch_work` and `release_work` are not steps that pass
      exact absurd hl (by simp [Label.passes])
  | drained hbatch hs =>
    exact h.withCtx (hres hs) (hplace hs) (hs.drained hbatch)
      ((hs.remainingCount (by simp) (by simp)).trans h.count)
  | moveOut hbatch hs => exact moveOut_workInv h hbatch hs
  | leave ha hclosed hended hs => exact leave_workInv h ha hclosed hended hs
  | discard hs hcount => exact discard_workInv h hs hcount
  | @wrapWork t ctx hfree hs =>
    refine h.withWorks (keeps_construct h (by simp) (by simp)) (hres hs) (hplace hs)
      (hs.sameDispatch (Or.inr ⟨t, Or.inl rfl⟩)) ?_
    rw [hs.latchWork, Tokens.count_construct hfree, h.count]
  | makeAsyncOperation hlive hmade hhanded => exact make_workInv h hlive hmade hhanded
  | @construct t p ctx hp hfree hs =>
    refine h.withWorks (keeps_construct h (s.accessible_ne hp).2.1 ?_) (hres hs) (hplace hs)
      (hs.sameDispatch (Or.inr ⟨t, Or.inl rfl⟩)) ?_
    · rintro u i rfl
      exact s.accessible_frame hp
    · -- one more `Work`, and one more in the count
      rw [hs.latchWork, Tokens.count_construct hfree, h.count]
  | move hp hq hfree =>
    refine h.withWorks (keeps_move h hp hq) h.result h.place ⟨rfl, fun _ => rfl⟩ ?_
    rw [Tokens.count_move hfree, h.count]
  | @release t p a works ctx hgive hactive hs =>
    refine h.withWorks (hgive.keeps h) (hres hs) (hplace hs)
      (hs.sameDispatch (Or.inr ⟨t, Or.inr rfl⟩)) ?_
    -- one `Work` less, and one less in the count
    rw [hs.releaseWork, hgive.count, Tokens.count_reset hactive, h.count]
  | inactive hgive hinactive =>
    refine h.withWorks (hgive.keeps h) h.result h.place ⟨rfl, fun _ => rfl⟩ ?_
    rw [hgive.count, Tokens.count_reset_inactive hinactive, h.count]
  | handlerEnd hpc => exact handlerEnd_workInv h hpc

/-- **The run lemma** for outstanding work. -/
theorem reach_workInv (h : Reach M s) : s.WorkInv :=
  Transition.Reach.invariant WorkInv (fun _ => init_workInv)
    (fun _ _ _ hinv _ hs => step_workInv hinv (work_cases hs)) h

/-! ### What the invariant gives -/

/-- An operation that is not over owns an active `Work`. -/
theorem WorkInv.owns (h : s.WorkInv) {op : AnyAsyncOperation} (hop : op ∈ s.made)
    (hfin : op ∉ s.finished) (hdis : op ∉ s.discarded) : s.Owns op := by
  by_cases hrel : op ∈ s.ctx.released
  · obtain ⟨u, hrun⟩ := ((h.settled op hrel).resolve_left hfin).resolve_left hdis
    exact ⟨.frame u 0, h.running u op hop hrun, hrun.1⟩
  · exact ⟨.operation op 0, h.stored op hop hrel, rfl⟩

/-- When the count is zero, the operations are all released, and none is executing. -/
theorem WorkInv.idle (h : s.WorkInv) (hzero : s.ctx.remainingCount = 0) {op : AnyAsyncOperation}
    (hop : op ∈ s.made) : op ∈ s.ctx.released ∧ ∀ u, ¬ s.Executing u op := by
  have hnone : ∀ p, p ∉ s.works.active := by
    intro p hp
    have hpos := s.works.count_pos hp
    rw [← h.count, hzero] at hpos
    omega
  constructor
  · by_contra hrel
    exact hnone _ (h.stored op hop hrel)
  · intro u hrun
    exact hnone _ (h.running u op hop hrun)

/-- `release_work` fails only where it is called, with the count at zero. -/
theorem release_of_error (h : s.ctx.ResultInv) {l : Label K n}
    (hs : s.ctx.step M l = some (.error .releaseWithoutWork)) :
    (∃ t, l = .thread t .releaseWork) ∧ s.ctx.remainingCount = 0 := by
  have hfails := ContextThread.step_fails h hs
  generalize hc : Contract.releaseWithoutWork = c at hfails
  cases hfails with
  | register | latch => exact absurd hc (by simp)
  | notifications hlive hpc hpoll hcontract =>
    rcases hcontract with rfl | rfl <;> exact absurd hc (by simp)
  | release hzero => exact ⟨⟨_, rfl⟩, hzero⟩

/-- The steps of the context other than `release_work` do not fail on the count. -/
theorem WorkInv.lift_ne (h : s.WorkInv) {l : Label K n} {f : ContextThread K n → Works K n}
    (hl : ∀ t, l ≠ .thread t .releaseWork) : s.lift M l f ≠ some (.error .releaseWithoutWork) := by
  intro hs
  obtain ⟨⟨t, ht⟩, -⟩ := release_of_error h.result (lift_error hs)
  exact hl t ht

/-- A `Work` that is released is active, so the count is positive. -/
theorem WorkInv.release_ne (h : s.WorkInv) (p : WorkPlace n) (works : Tokens (WorkPlace n)) :
    s.release M t p works ≠ some (.error .releaseWithoutWork) := by
  intro hs
  unfold release at hs
  split at hs
  · rename_i hactive
    obtain ⟨-, hzero⟩ := release_of_error h.result (lift_error hs)
    have hpos := s.works.count_pos hactive
    rw [← h.count, hzero] at hpos
    omega
  · exact absurd hs (by simp)

/-- A step that passes the work by does not release any. -/
theorem WorkInv.ctxStep_ne (h : s.WorkInv) (l : Label K n) :
    s.ctxStep M l ≠ some (.error .releaseWithoutWork) := by
  by_cases hl : l.passes = true
  · rw [ctxStep_passes hl]
    apply h.lift_ne
    rintro t rfl
    exact absurd hl (by simp [Label.passes])
  · intro hs
    cases l with
    | thread t a =>
      cases a with
      | latchWork | releaseWork => exact absurd hs (by simp [ctxStep])
      | drain => exact h.lift_ne (by simp) hs
      | handlerReturn | handlerThrow =>
        simp only [ctxStep, Option.ite_none_right_eq_some] at hs
        exact h.lift_ne (by simp) hs.2
      | _ => exact hl rfl
    | destroy =>
      simp only [ctxStep, Option.map_eq_some_iff] at hs
      obtain ⟨r, hr, herr⟩ := hs
      cases r with
      | error e =>
        obtain rfl : e = .releaseWithoutWork := by simpa [Except.bind] using herr
        obtain ⟨⟨t, ht⟩, -⟩ := release_of_error h.result hr
        exact absurd ht (by simp)
      | ok ctx =>
        -- what is discarded is part of the count
        have hcount : ctx.remainingCount = s.works.count :=
          ((ContextThread.step_cases hr).remainingCount (by simp) (by simp)).trans h.count
        have hsplit := s.works.count_discard (WorkPlace.inside s.leftOver)
        simp only [Except.bind] at herr
        rw [hcount, releaseAll_eq (by omega)] at herr
        exact absurd herr (by simp [Except.map])
    | kernel | forget => exact hl rfl

/-- **`release_work` never finds the count at zero.** -/
theorem WorkInv.step_ne (h : s.WorkInv) (a : WorkAct K n) :
    s.step M a ≠ some (.error .releaseWithoutWork) := by
  intro hs
  cases a with
  | ctx l => exact h.ctxStep_ne l hs
  | wrapWork t | construct t p =>
    simp only [step, Option.ite_none_right_eq_some] at hs
    exact h.lift_ne (by simp) hs.2
  | makeAsyncOperation t op | move t p q =>
    simp only [step, Option.ite_none_right_eq_some] at hs
    exact absurd hs.2 (by simp)
  | reset t p | destroy t p =>
    simp only [step, Option.ite_none_right_eq_some] at hs
    exact h.release_ne _ _ hs.2
  | handlerEnd t =>
    simp only [step] at hs
    split at hs
    · simp only [Option.ite_none_right_eq_some] at hs
      -- what does not release cannot fail its check
      exact absurd hs.2 (by simp)
    · exact absurd hs (by simp)

/-- `run` leaves its loop only at a count of zero. -/
theorem loop_exit (hs : s.next M (.ctx (.thread t .loop)) = some s')
    (hexit : (s'.ctx.threads t).pc = .exitWake) : s.ctx.remainingCount = 0 := by
  cases work_cases hs with
  | leave ha => rcases ha with ha | ha <;> exact absurd ha (by simp)
  | release hgive | inactive hgive => cases hgive
  | pass hl hstep =>
    cases hstep with
    | call hlive hcall huser hcallstep => cases hcallstep
    | rest hlive hrest => cases hrest
    | run hlive hcall hrun =>
      cases hrun with
      | loop hpc =>
        rw [ContextThread.goto_pc, if_pos rfl] at hexit
        split at hexit
        · exact absurd hexit (by simp)
        · omega

/-- **Work accounting.**  In every state of every run: the count is the number of active `Work`
    objects; an operation made with `wrap_work` owns an active one until its handler has returned
    or thrown, or the operation was discarded; `release_work` never fails its check; and when
    `run` reads a count of zero and leaves its loop, no such operation is in the completion queue,
    in a batch, in the scheduler or executing its handler. -/
theorem work_accounting (h : Reach M s) :
    s.ctx.remainingCount = s.works.active.card ∧
    (∀ op ∈ s.made, op ∉ s.finished → op ∉ s.discarded → s.Owns op) ∧
    (∀ a, s.step M a ≠ some (.error .releaseWithoutWork)) ∧
    ∀ t s', s.next M (.ctx (.thread t .loop)) = some s' → (s'.ctx.threads t).pc = .exitWake →
      ∀ op ∈ s.made, op ∉ s.ctx.completionQueue ∧ (∀ u, op ∉ (s.ctx.threads u).batch) ∧
        (∀ io ∈ s.ctx.sched.io.operations, op ≠ .io io) ∧ ∀ u, ¬ s.Executing u op := by
  have hinv := reach_workInv h
  refine ⟨hinv.count, fun op hop => hinv.owns hop, hinv.step_ne, ?_⟩
  intro t s' hs hexit op hop
  obtain ⟨hreleased, hidle⟩ := hinv.idle (loop_exit hs hexit) hop
  -- a released operation is in none of the other places
  have hnot : ∀ p, p ≠ Place.consumed → op ∉ s.ctx.place p :=
    fun p hp => hinv.place.placed.not_mem hp.symm hreleased
  refine ⟨hnot .queue (by simp), fun u => hnot (.batch u) (by simp), ?_, hidle⟩
  rintro io hio rfl
  exact hnot .scheduler (by simp) (List.mem_map_of_mem hio)

/-- A constructed context over the quiet kernel, with no `Work`. -/
def quietWorks (n : Nat) : Works Unit n :=
  ⟨ContextThread.quietContext n, .empty, [], fun _ => false, [], []⟩

theorem quietWorks_init (n : Nat) : Init (quietWorks n) :=
  ⟨ContextThread.quietContext_init n, rfl⟩

/-- The program holds a `Work` while it posts a completion; the handler throws, and `run` is
    called again. -/
def postUnderWork : List (WorkAct Unit 1) :=
  [.construct 0 (.object 0), .wrapWork 0, .makeAsyncOperation 0 (.plain 7),
    .ctx (.thread 0 (.post 7)), .ctx (.thread 0 .callWake), .ctx (.thread 0 .callNotify),
    .move 0 (.object 0) (.object 1), .reset 0 (.object 0), .reset 0 (.object 1),
    .ctx (.thread 0 .callWake), .ctx (.thread 0 .callNotify),
    .ctx (.thread 0 .enterRun), .ctx (.thread 0 .loop), .ctx (.thread 0 .test),
    .ctx (.thread 0 .take), .ctx (.thread 0 .drain), .ctx (.thread 0 .invoke), .handlerEnd 0,
    .destroy 0 (.frame 0 0), .ctx (.thread 0 .callWake), .ctx (.thread 0 .callNotify),
    .ctx (.thread 0 .handlerThrow), .ctx (.thread 0 .putBack), .ctx (.thread 0 .guardNotify),
    .ctx (.thread 0 .enterRun)]

/-- A run in which a handler throws: two `Work`s that were moved from are alive and count nothing, the
    one of the operation is gone, and `run` leaves its loop. -/
theorem work_accounting_after_throw :
    ∃ s s' : Works Unit 1, s.made = [.plain 7] ∧ s.works.live.card = 2 ∧ s.works.active.card = 0 ∧
      s.next quietKernel (.ctx (.thread 0 .loop)) = some s' ∧
      (s'.ctx.threads 0).pc = .exitWake ∧ .plain 7 ∉ s.ctx.completionQueue := by
  have hrun : ∃ s : Works Unit 1, Reach quietKernel s ∧
      (decide (s.made = [.plain 7] ∧ s.works.live.card = 2 ∧ s.works.active.card = 0) &&
        (s.next quietKernel (.ctx (.thread 0 .loop))).any
          (fun s' => decide ((s'.ctx.threads 0).pc = .exitWake))) = true :=
    Transition.exists_reach (quietWorks_init 1) postUnderWork _ (by decide)
  obtain ⟨s, hs, hp⟩ := hrun
  rw [Bool.and_eq_true] at hp
  obtain ⟨hp, hloop⟩ := hp
  have hp' := of_decide_eq_true hp
  rw [Option.any_eq_true] at hloop
  obtain ⟨s', hs', hexit⟩ := hloop
  have hexit' := of_decide_eq_true hexit
  refine ⟨s, s', hp'.1, hp'.2.1, hp'.2.2, hs', hexit', ?_⟩
  exact ((work_accounting hs).2.2.2 0 s' hs' hexit' (.plain 7) (by rw [hp'.1]; simp)).1

end Works

end Exios
