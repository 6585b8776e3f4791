import Exios.Base.Transition
import Mathlib.Logic.Function.Basic
import Mathlib.Data.List.Basic
import Mathlib.Tactic.Common

namespace Exios

/-!
# File descriptors — who owns and who closes

`FileDescriptor` values, and `IoObject` values through their `fd_` member, own a descriptor
number.  A state holds the live values and the trace of the calls that acquire and close
descriptors; `closeCounts n` reads off the trace how often `::close` was called on each
descriptor that was acquired under the number `n`.

* `Inv` — each open descriptor is held by exactly one value, and each other one was closed
  exactly once;
* `ClosesTwice` — `IoObject::close` on a value that holds a descriptor: the function closes by
  hand, then assigns an empty value, whose temporary closes again, and in between the number
  may have been handed out anew;
* `closed_exactly_once` — runs without that step close every descriptor exactly once.
-/

/-- The calls on descriptors. -/
inductive FdEvent
  /-- A call such as `::socket` returned the number. -/
  | acquired (fd : Int)
  /-- `::close(fd)`. -/
  | closed (fd : Int)
deriving DecidableEq, Repr

/-- `kInvalidDescriptor`. -/
def kInvalidDescriptor : Int := -1

/-- One event, as seen by the descriptors acquired under the number `n`, newest first. -/
def countEvent (n : Int) (counts : List Nat) : FdEvent → List Nat
  | .acquired fd => if fd = n then 0 :: counts else counts
  | .closed fd =>
    match counts with
    | [] => []
    | c :: rest => if fd = n then (c + 1) :: rest else c :: rest

/-- How often `::close` was called on each descriptor acquired under the number `n`, newest
    first. -/
def closeCounts (n : Int) (trace : List FdEvent) : List Nat := trace.foldl (countEvent n) []

/-- The live values by identity, each with its `fd_`, and the calls made, oldest first. -/
structure Values where
  fd : Nat → Option Int
  /-- The value is inside `IoObject::close`, between its two statements. -/
  closing : Nat → Bool
  trace : List FdEvent

namespace Values

/-- `::close(fd)`. -/
def closeCall (s : Values) (fd : Int) : Values := { s with trace := s.trace ++ [.closed fd] }

/-- `~FileDescriptor` of a value or temporary that holds `fd`. -/
def destruct (s : Values) (fd : Int) : Values := if 0 ≤ fd then s.closeCall fd else s

/-- Set `fd_` of a value. -/
def set (s : Values) (a : Nat) (fd : Option Int) : Values :=
  { s with fd := Function.update s.fd a fd }

/-- `swap(*this, tmp)` and the end of `tmp`'s life, in `operator=`. -/
def assignFrom (s : Values) (a : Nat) (mine tmp : Int) : Values :=
  (s.set a (some tmp)).destruct mine

end Values

/-- What a program does with values. -/
inductive FdAct
  /-- `FileDescriptor(int)` or the constructor of an I/O object, on the result of a call. -/
  | construct (a : Nat) (fd : Int)
  | constructEmpty (a : Nat)
  | moveConstruct (a src : Nat)
  | moveAssign (a src : Nat)
  | swap (a b : Nat)
  /-- `IoObject::close()`, up to its first statement `::close(fd_.value())`. -/
  | close (a : Nat)
  /-- The rest of it, `fd_ = FileDescriptor {}`. -/
  | closeRest (a : Nat)
  | destroy (a : Nat)
deriving DecidableEq, Repr

/-- The values a step uses. -/
def FdAct.operands : FdAct → List Nat
  | .construct a _ | .constructEmpty a | .close a | .destroy a => [a]
  | .moveConstruct a b | .moveAssign a b | .swap a b => [a, b]
  | .closeRest _ => []

/-- The number a step gets from the kernel. -/
def FdAct.handedOut : FdAct → Option Int
  | .construct _ fd => some fd
  | _ => none

namespace Values

/-- The number denotes an open descriptor: the newest one acquired under it was not closed. -/
def isOpen (s : Values) (n : Int) : Bool := decide ((closeCounts n s.trace).head? = some 0)

/-- Nobody uses a value that is inside `close`. -/
def idle (s : Values) (act : FdAct) : Bool := act.operands.all (fun a => !s.closing a)

/-- What the members of the values do.  A negative `fd` means that the call failed. -/
def call (s : Values) : FdAct → Option Values
  | .construct a fd =>
    if s.fd a = none then
      some { s.set a (some fd) with
        trace := if 0 ≤ fd then s.trace ++ [.acquired fd] else s.trace }
    else none
  | .constructEmpty a => if s.fd a = none then some (s.set a (some kInvalidDescriptor)) else none
  | .moveConstruct a src =>
    if s.fd a = none then
      (s.fd src).map (fun fd => (s.set src (some kInvalidDescriptor)).set a (some fd))
    else none
  | .moveAssign a src =>
    -- `auto tmp { std::move(other) }` comes first, so `*this` is read after it
    (s.fd src).bind (fun tmp =>
      ((s.set src (some kInvalidDescriptor)).fd a).map (fun mine =>
        (s.set src (some kInvalidDescriptor)).assignFrom a mine tmp))
  | .swap a b =>
    (s.fd a).bind (fun x => (s.fd b).map (fun y => (s.set a (some y)).set b (some x)))
  | .close a =>
    (s.fd a).map (fun mine => { s.closeCall mine with closing := Function.update s.closing a true })
  | .closeRest a =>
    if s.closing a then
      (s.fd a).map (fun mine =>
        { s.assignFrom a mine kInvalidDescriptor with closing := Function.update s.closing a false })
    else none
  | .destroy a => (s.fd a).map (fun mine => (s.set a none).destruct mine)

/-- One step.  The kernel hands out only numbers that are not open. -/
def step (s : Values) (act : FdAct) : Option Values :=
  if s.idle act && act.handedOut.all (fun n => !s.isOpen n) then s.call act else none

/-- No values and no calls. -/
def Init (s : Values) : Prop := s = ⟨fun _ => none, fun _ => false, []⟩

/-- `IoObject::close` on a value that holds a descriptor. -/
def ClosesTwice (s : Values) : FdAct → Prop
  | .close a => ∃ n, s.fd a = some n ∧ 0 ≤ n
  | _ => False

/-! ### Traces -/

theorem closeCounts_append (n : Int) (trace : List FdEvent) (e : FdEvent) :
    closeCounts n (trace ++ [e]) = countEvent n (closeCounts n trace) e := by
  simp [closeCounts]

/-- Acquiring a number begins a new count for it. -/
theorem closeCounts_acquired_self (n : Int) (trace : List FdEvent) :
    closeCounts n (trace ++ [.acquired n]) = 0 :: closeCounts n trace := by
  rw [closeCounts_append]
  exact if_pos rfl

theorem closeCounts_acquired_ne {n fd : Int} (h : fd ≠ n) (trace : List FdEvent) :
    closeCounts n (trace ++ [.acquired fd]) = closeCounts n trace := by
  rw [closeCounts_append]
  exact if_neg h

/-- Closing it counts one more. -/
theorem closeCounts_closed_self {n : Int} {trace : List FdEvent} {c : Nat} {rest : List Nat}
    (h : closeCounts n trace = c :: rest) :
    closeCounts n (trace ++ [.closed n]) = (c + 1) :: rest := by
  rw [closeCounts_append, h]
  exact if_pos rfl

theorem closeCounts_closed_ne {n fd : Int} (h : fd ≠ n) (trace : List FdEvent) :
    closeCounts n (trace ++ [.closed fd]) = closeCounts n trace := by
  rw [closeCounts_append]
  cases closeCounts n trace with
  | nil => rfl
  | cons c rest => exact if_neg h

/-! ### The invariant -/

/-- Some value holds the number. -/
def Held (s : Values) (n : Int) : Prop := ∃ a, s.fd a = some n

/-- Each open descriptor is held by exactly one value; each other descriptor that was acquired
    has been closed exactly once; a value inside `close` holds none. -/
structure Inv (s : Values) : Prop where
  owner : ∀ a b n, 0 ≤ n → s.fd a = some n → s.fd b = some n → a = b
  opened : ∀ n, 0 ≤ n → s.Held n → ∃ k, closeCounts n s.trace = 0 :: List.replicate k 1
  closed : ∀ n, 0 ≤ n → ¬ s.Held n → ∃ k, closeCounts n s.trace = List.replicate k 1
  closing : ∀ a, s.closing a = true → ∃ n, s.fd a = some n ∧ n < 0

/-- A step that leaves the values inside `close` alone. -/
theorem Inv.closing_keep {s t : Values} (h : s.Inv) (hclosing : t.closing = s.closing)
    (hfd : ∀ a, s.closing a = true → t.fd a = s.fd a) :
    ∀ a, t.closing a = true → ∃ n, t.fd a = some n ∧ n < 0 := by
  intro a ha
  rw [hclosing] at ha
  rw [hfd a ha]
  exact h.closing a ha

/-- A step without calls that leaves each descriptor held by one value. -/
theorem Inv.move {s s' : Values} (h : s.Inv) (htrace : s'.trace = s.trace)
    (howner : ∀ a b n, 0 ≤ n → s'.fd a = some n → s'.fd b = some n → a = b)
    (hheld : ∀ n, 0 ≤ n → (s'.Held n ↔ s.Held n))
    (hclosing : ∀ a, s'.closing a = true → ∃ n, s'.fd a = some n ∧ n < 0) : s'.Inv where
  owner := howner
  opened := fun n hn hh => by rw [htrace]; exact h.opened n hn ((hheld n hn).mp hh)
  closed := fun n hn hh => by
    rw [htrace]
    exact h.closed n hn (fun hm => hh ((hheld n hn).mpr hm))
  closing := hclosing

/-- The holder of a descriptor gives it up and closes it. -/
theorem Inv.release {s s' : Values} (h : s.Inv) {a : Nat} {m : Int} (hm : s.fd a = some m)
    (htrace : s'.trace = if 0 ≤ m then s.trace ++ [.closed m] else s.trace)
    (howner : ∀ a b n, 0 ≤ n → s'.fd a = some n → s'.fd b = some n → a = b)
    (hheld : ∀ n, 0 ≤ n → (s'.Held n ↔ s.Held n ∧ n ≠ m))
    (hclosing : ∀ a, s'.closing a = true → ∃ n, s'.fd a = some n ∧ n < 0) : s'.Inv := by
  -- a valid descriptor is closed as the object lets go of it, another is only forgotten
  by_cases hneg : 0 ≤ m
  · rw [if_pos hneg] at htrace
    refine ⟨howner, ?_, ?_, hclosing⟩
    · intro n hn hh
      obtain ⟨hh', hne⟩ := (hheld n hn).mp hh
      rw [htrace, closeCounts_closed_ne (fun he => hne he.symm)]
      exact h.opened n hn hh'
    · intro n hn hh
      by_cases hnm : n = m
      · subst hnm
        obtain ⟨k, hk⟩ := h.opened n hn ⟨a, hm⟩
        exact ⟨k + 1, by rw [htrace, closeCounts_closed_self hk]; rfl⟩
      · rw [htrace, closeCounts_closed_ne (fun he => hnm he.symm)]
        exact h.closed n hn (fun hm' => hh ((hheld n hn).mpr ⟨hm', hnm⟩))
  · rw [if_neg hneg] at htrace
    refine h.move htrace howner (fun n hn => ?_) hclosing
    rw [hheld n hn]
    exact and_iff_left (by omega)

theorem destruct_trace (s : Values) (m : Int) :
    (s.destruct m).trace = if 0 ≤ m then s.trace ++ [.closed m] else s.trace := by
  unfold destruct
  split <;> rfl

theorem destruct_fd (s : Values) (m : Int) : (s.destruct m).fd = s.fd := by
  unfold destruct
  split <;> rfl

theorem destruct_closing (s : Values) (m : Int) : (s.destruct m).closing = s.closing := by
  unfold destruct
  split <;> rfl

theorem set_fd (s : Values) (a b : Nat) (x : Option Int) :
    (s.set a x).fd b = if b = a then x else s.fd b :=
  Function.update_apply _ _ _ _

/-! ### Steps -/

/-- Before anything is constructed nothing is owned. -/
theorem init_inv {s : Values} (h : Init s) : s.Inv := by
  rw [h]
  exact ⟨by simp, by simp [Held], fun n _ _ => ⟨0, rfl⟩, by simp⟩

/-- A number that is not open is held by nobody. -/
theorem Inv.not_held {s : Values} (h : s.Inv) {n : Int} (hn : 0 ≤ n)
    (hopen : s.isOpen n = false) : ¬ s.Held n := by
  intro hh
  obtain ⟨k, hk⟩ := h.opened n hn hh
  simp [isOpen, hk] at hopen

/-- A number nobody holds comes to be held. -/
theorem construct_inv {s s' : Values} (h : s.Inv) {a : Nat} {fd : Int} (hidle : s.closing a = false)
    (hopen : s.isOpen fd = false) (hs : s.call (.construct a fd) = some s') : s'.Inv := by
  simp only [call, Option.ite_none_right_eq_some, Option.some.injEq] at hs
  obtain ⟨hfree, rfl⟩ := hs
  have hnot : 0 ≤ fd → ¬ s.Held fd := fun hn => h.not_held hn hopen
  -- the new value holds the number, the others what they held
  have hset : ∀ b n, 0 ≤ n → ((s.set a (some fd)).fd b = some n ↔
      (b = a ∧ n = fd) ∨ s.fd b = some n) := by
    intro b n hn
    rw [set_fd]
    grind
  have hheld : ∀ n, 0 ≤ n → ((s.set a (some fd)).Held n ↔ n = fd ∨ s.Held n) := by
    intro n hn
    unfold Held
    simp only [hset _ n hn]
    grind
  have howner : ∀ b c n, 0 ≤ n → (s.set a (some fd)).fd b = some n →
      (s.set a (some fd)).fd c = some n → b = c := by
    intro b c n hn hb hc
    rcases (hset b n hn).mp hb with ⟨rfl, rfl⟩ | hb' <;>
      rcases (hset c n hn).mp hc with ⟨rfl, hfd⟩ | hc'
    · rfl
    · exact absurd ⟨c, hc'⟩ (hnot hn)
    · exact absurd ⟨b, hfd ▸ hb'⟩ (hnot (hfd ▸ hn))
    · exact h.owner b c n hn hb' hc'
  have hclosing := h.closing_keep (t := s.set a (some fd)) rfl
    (fun b hb => by rw [set_fd]; grind)
  -- a failed call returns a negative number, which is nobody's descriptor
  by_cases hneg : 0 ≤ fd
  · refine ⟨howner, ?_, ?_, hclosing⟩ <;> simp only [if_pos hneg]
    · intro n hn hh
      by_cases hne : n = fd
      · subst hne
        obtain ⟨k, hk⟩ := h.closed n hn (hnot hn)
        exact ⟨k, by rw [closeCounts_acquired_self, hk]⟩
      · rw [closeCounts_acquired_ne (fun he => hne he.symm)]
        exact h.opened n hn (((hheld n hn).mp hh).resolve_left hne)
    · intro n hn hh
      have hh' : ¬ (n = fd ∨ s.Held n) := fun hm => hh ((hheld n hn).mpr hm)
      rw [not_or] at hh'
      rw [closeCounts_acquired_ne (fun he => hh'.1 he.symm)]
      exact h.closed n hn hh'.2
  · refine h.move (if_neg hneg) howner (fun n hn => ?_) hclosing
    exact (hheld n hn).trans (or_iff_right (by omega))

/-- Move construction hands the number over. -/
theorem moveConstruct_inv {s s' : Values} (h : s.Inv) {a src : Nat} (hdst : s.closing a = false)
    (hsrc : s.closing src = false) (hs : s.call (.moveConstruct a src) = some s') : s'.Inv := by
  simp only [call, Option.ite_none_right_eq_some, Option.map_eq_some_iff] at hs
  obtain ⟨hfree, fd, hfd, rfl⟩ := hs
  have howner := h.owner
  refine h.move rfl ?_ ?_ (h.closing_keep rfl (fun b hb => by simp only [set_fd]; grind))
  · intro b c n hn hb hc
    simp only [set_fd] at hb hc
    grind [kInvalidDescriptor]
  · intro n hn
    unfold Held
    simp only [set_fd]
    grind [kInvalidDescriptor]

/-- Move assignment hands the numbers on, and closes the one that was held before. -/
theorem moveAssign_inv {s s' : Values} (h : s.Inv) {a src : Nat} (hdst : s.closing a = false)
    (hsrc : s.closing src = false) (hs : s.call (.moveAssign a src) = some s') : s'.Inv := by
  simp only [call, Option.bind_eq_some_iff, Option.map_eq_some_iff] at hs
  obtain ⟨tmp, hfd, mine, hmine, rfl⟩ := hs
  have howner := h.owner
  have hclosing := h.closing_keep (t := (s.set src (some kInvalidDescriptor)).assignFrom a mine tmp)
    (destruct_closing _ _) (fun b hb => by simp only [assignFrom, destruct_fd, set_fd]; grind)
  by_cases hself : a = src
  · -- self-assignment: the value gets its own descriptor back
    subst hself
    rw [set_fd, if_pos rfl, Option.some.injEq] at hmine
    subst hmine
    refine h.move (destruct_trace _ _) ?_ ?_ hclosing
    · intro b c n hn hb hc
      simp only [assignFrom, destruct_fd, set_fd] at hb hc
      grind [kInvalidDescriptor]
    · intro n hn
      unfold Held
      simp only [assignFrom, destruct_fd, set_fd]
      grind [kInvalidDescriptor]
  · rw [set_fd, if_neg hself] at hmine
    refine h.release hmine (destruct_trace _ _) ?_ ?_ hclosing
    · intro b c n hn hb hc
      simp only [assignFrom, destruct_fd, set_fd] at hb hc
      grind [kInvalidDescriptor]
    · intro n hn
      unfold Held
      simp only [assignFrom, destruct_fd, set_fd]
      grind [kInvalidDescriptor]

theorem swap_inv {s s' : Values} (h : s.Inv) {a b : Nat} (ha : s.closing a = false)
    (hb : s.closing b = false) (hs : s.call (.swap a b) = some s') : s'.Inv := by
  simp only [call, Option.bind_eq_some_iff, Option.map_eq_some_iff] at hs
  obtain ⟨x, hx, y, hy, rfl⟩ := hs
  have howner := h.owner
  refine h.move rfl ?_ ?_ (h.closing_keep rfl (fun c hc => by simp only [set_fd]; grind))
  · intro b c n hn hb hc
    simp only [set_fd] at hb hc
    grind
  · intro n hn
    unfold Held
    simp only [set_fd]
    grind

/-- `IoObject::close` on a value that holds nothing calls `::close(-1)`. -/
theorem close_inv {s s' : Values} (h : s.Inv) {a : Nat} (hok : ¬ s.ClosesTwice (.close a))
    (hs : s.call (.close a) = some s') : s'.Inv := by
  simp only [call, Option.map_eq_some_iff] at hs
  obtain ⟨mine, hmine, rfl⟩ := hs
  -- the trace gets `::close(-1)`, which counts for no descriptor
  have hneg : ¬ 0 ≤ mine := fun hn => hok ⟨mine, hmine, hn⟩
  have hcounts : ∀ n, 0 ≤ n → closeCounts n (s.closeCall mine).trace = closeCounts n s.trace :=
    fun n hn => closeCounts_closed_ne (by omega) s.trace
  refine ⟨h.owner, ?_, ?_, ?_⟩
  · intro n hn hh
    rw [hcounts n hn]
    exact h.opened n hn hh
  · intro n hn hh
    rw [hcounts n hn]
    exact h.closed n hn hh
  · intro b hb
    by_cases hba : b = a
    · exact ⟨mine, hba ▸ hmine, by omega⟩
    · exact h.closing b ((Function.update_of_ne hba true s.closing).symm.trans hb)

/-- The end of `close`, with its number given up. -/
theorem closeRest_inv {s s' : Values} (h : s.Inv) {a : Nat}
    (hs : s.call (.closeRest a) = some s') : s'.Inv := by
  simp only [call, Option.ite_none_right_eq_some, Option.map_eq_some_iff] at hs
  obtain ⟨hin, mine, hmine, rfl⟩ := hs
  -- a value inside `close` holds nothing, so the temporary closes nothing
  obtain ⟨n, hn, hneg⟩ := h.closing a hin
  rw [hmine, Option.some.injEq] at hn
  have howner := h.owner
  have hclosing := h.closing
  refine h.move ((destruct_trace _ _).trans (if_neg (by omega))) ?_ ?_ ?_
  · intro b c n hn hb hc
    simp only [assignFrom, destruct_fd, set_fd] at hb hc
    grind [kInvalidDescriptor]
  · intro n hn
    unfold Held
    simp only [assignFrom, destruct_fd, set_fd]
    grind [kInvalidDescriptor]
  · intro b hb
    simp only [Function.update_apply] at hb
    simp only [assignFrom, destruct_fd, set_fd]
    grind [kInvalidDescriptor]

theorem destroy_inv {s s' : Values} (h : s.Inv) {a : Nat} (hidle : s.closing a = false)
    (hs : s.call (.destroy a) = some s') : s'.Inv := by
  -- the value is gone, then its descriptor is closed
  simp only [call, Option.map_eq_some_iff] at hs
  obtain ⟨mine, hmine, rfl⟩ := hs
  have howner := h.owner
  have hclosing := h.closing_keep (t := (s.set a none).destruct mine) (destruct_closing _ _)
    (fun b hb => by simp only [destruct_fd, set_fd]; grind)
  refine h.release hmine (destruct_trace _ _) ?_ ?_ hclosing
  · intro b c n hn hb hc
    simp only [destruct_fd, set_fd] at hb hc
    grind
  · intro n hn
    unfold Held
    simp only [destruct_fd, set_fd]
    grind

/-- **The step lemma**: every number acquired has one owner, or was closed. -/
theorem step_inv {s s' : Values} {act : FdAct} (h : s.Inv) (hok : ¬ s.ClosesTwice act)
    (hs : s.step act = some s') : s'.Inv := by
  simp only [step, Option.ite_none_right_eq_some, Bool.and_eq_true] at hs
  obtain ⟨⟨hidle, hnew⟩, hcall⟩ := hs
  cases act with
  | construct a fd =>
    simp only [idle, FdAct.operands, FdAct.handedOut, List.all_cons, List.all_nil, Bool.and_true,
      Option.all_some, Bool.not_eq_eq_eq_not, Bool.not_true] at hidle hnew
    exact construct_inv h hidle hnew hcall
  -- an empty value holds no descriptor that anyone else could hold
  | constructEmpty a =>
    simp only [call, Option.ite_none_right_eq_some, Option.some.injEq] at hcall
    obtain ⟨hfree, rfl⟩ := hcall
    have howner := h.owner
    simp [idle, FdAct.operands] at hidle
    refine h.move rfl ?_ ?_ (h.closing_keep rfl (fun b hb => by rw [set_fd]; grind))
    · intro b c n hn hb hc
      simp only [set_fd] at hb hc
      grind [kInvalidDescriptor]
    · intro n hn
      unfold Held
      simp only [set_fd]
      grind [kInvalidDescriptor]
  | moveConstruct a src =>
    simp [idle, FdAct.operands] at hidle
    exact moveConstruct_inv h hidle.1 hidle.2 hcall
  | moveAssign a src =>
    simp [idle, FdAct.operands] at hidle
    exact moveAssign_inv h hidle.1 hidle.2 hcall
  | swap a b =>
    simp [idle, FdAct.operands] at hidle
    exact swap_inv h hidle.1 hidle.2 hcall
  | close a => exact close_inv h hok hcall
  | closeRest a => exact closeRest_inv h hcall
  | destroy a =>
    simp [idle, FdAct.operands] at hidle
    exact destroy_inv h hidle hcall

/-! ### Runs -/

/-- States reached by runs whose steps satisfy `ok`. -/
def Reach (ok : Values → FdAct → Prop) : Values → Prop := Transition.Reach Init step ok

/-- No two live values hold the same descriptor; `::close` was called at most once on each
    acquired descriptor, and exactly once when no value is left. -/
def ClosedOnce (s : Values) : Prop :=
  (∀ a b n, 0 ≤ n → s.fd a = some n → s.fd b = some n → a = b) ∧
    (∀ n, 0 ≤ n → ∀ c ∈ closeCounts n s.trace, c ≤ 1) ∧
    ((∀ a, s.fd a = none) → ∀ n, 0 ≤ n → ∀ c ∈ closeCounts n s.trace, c = 1)

/-- **Every descriptor is closed exactly once** in runs that never call `IoObject::close` on a
    value that holds a descriptor. -/
theorem closed_exactly_once {s : Values} (h : Reach (fun s act => ¬ s.ClosesTwice act) s) :
    s.ClosedOnce := by
  have hinv : s.Inv :=
    Transition.Reach.invariant Inv (fun _ => init_inv) (fun _ _ _ hi hok hs => step_inv hi hok hs) h
  refine ⟨hinv.owner, ?_, ?_⟩
  · intro n hn c hc
    -- still held: the closes so far were before its last opening
    by_cases hh : s.Held n
    · obtain ⟨k, hk⟩ := hinv.opened n hn hh
      rw [hk, List.mem_cons] at hc
      rcases hc with rfl | hc
      · omega
      · exact Nat.le_of_eq (List.eq_of_mem_replicate hc)
    · obtain ⟨k, hk⟩ := hinv.closed n hn hh
      rw [hk] at hc
      exact Nat.le_of_eq (List.eq_of_mem_replicate hc)
  · intro hnone n hn c hc
    -- at the end nothing is held, so only the closed case is left
    have hh : ¬ s.Held n := by
      rintro ⟨a, ha⟩
      rw [hnone a] at ha
      exact absurd ha (by simp)
    obtain ⟨k, hk⟩ := hinv.closed n hn hh
    rw [hk] at hc
    exact List.eq_of_mem_replicate hc

instance (s : Values) (act : FdAct) : Decidable (s.ClosesTwice act) :=
  match act with
  | .close a =>
    decidable_of_iff ((s.fd a).any (fun n => decide (0 ≤ n)) = true)
      (by simp [ClosesTwice, Option.any_eq_true])
  | .construct _ _ => isFalse id
  | .constructEmpty _ => isFalse id
  | .moveConstruct _ _ => isFalse id
  | .moveAssign _ _ => isFalse id
  | .swap _ _ => isFalse id
  | .destroy _ => isFalse id
  | .closeRest _ => isFalse id

theorem start_init : Init ⟨fun _ => none, fun _ => false, []⟩ := rfl

/-- A descriptor is moved, assigned to itself and over another one, then everything is
    destroyed. -/
theorem closed_once_after_moves :
    ∃ s : Values, closeCounts 3 s.trace = [1] ∧ closeCounts 4 s.trace = [1] ∧ s.ClosedOnce := by
  have hrun : ∃ s, Reach (fun s act => ¬ s.ClosesTwice act) s ∧
      decide (closeCounts 3 s.trace = [1] ∧ closeCounts 4 s.trace = [1]) = true :=
    Transition.exists_reach start_init
      [FdAct.construct 0 3, .construct 1 4, .moveConstruct 2 0, .moveAssign 2 2, .moveAssign 1 2,
        .close 0, .closeRest 0, .destroy 0, .destroy 1, .destroy 2] _ (by decide)
  obtain ⟨s, hs, hp⟩ := hrun
  have hp' := of_decide_eq_true hp
  exact ⟨s, hp'.1, hp'.2, closed_exactly_once hs⟩

/-- `IoObject::close` closes twice. -/
theorem close_closes_twice :
    ¬ ∀ s : Values, Reach Transition.always s → s.ClosedOnce := by
  intro hall
  have hrun : ∃ s, Reach Transition.always s ∧ decide (closeCounts 3 s.trace = [2]) = true :=
    Transition.exists_reach start_init [FdAct.construct 0 3, .close 0, .closeRest 0] _ (by decide)
  obtain ⟨s, hs, hp⟩ := hrun
  have hcount := (hall s hs).2.1 3 (by decide) 2 (by rw [of_decide_eq_true hp]; simp)
  omega

end Values

end Exios
