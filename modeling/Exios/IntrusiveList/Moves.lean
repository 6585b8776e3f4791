import Exios.IntrusiveList.Heap

namespace Exios.IntrusiveList

open Exios.Ring

/-!
# Intrusive list — move construction and move assignment

The sentinel lives inside the list object, so a moved list has to be rewired to a new sentinel.
The address `null` stands for `nullptr`: the links of a new sentinel are null, and a write
through a null pointer is a `Fault`.

The move constructor hangs the elements of the other list onto the new sentinel, but never sets
the links of the new sentinel itself; the move assignment is written with `std::swap`, which is
again written with the move assignment.

* `moveConstruct_iff` — the constructed list denotes the moved sequence only if it is empty;
* `moveAssign_never_ok` — no move assignment from another list ever returns normally: from an
  empty one it calls itself without end (`moveAssign_diverges`), from any other it dereferences
  a null link (`moveAssign_faults`).
-/

variable {A : Type*} [DecidableEq A] (null : A)

/-! ### The special members -/

/-- What stops a call other than a contract check. -/
inductive Fault
  | nullDereference
deriving DecidableEq, Repr

/-- `p->next = x`. -/
def writeNext (h : Links A) (p x : A) : Except Fault (Links A) :=
  if p = null then .error .nullDereference else .ok (setNext h p x)

/-- `p->prev = x`. -/
def writePrev (h : Links A) (p x : A) : Except Fault (Links A) :=
  if p = null then .error .nullDereference else .ok (setPrev h p x)

/-- `s.next = s.prev = &s` for the sentinel at `s`. -/
def selfLink (h : Links A) (s : A) : Links A := setNext (setPrev h s s) s s

/-- `IntrusiveList(IntrusiveList&& other)` for a new list with its sentinel at `s`, whose
    members are initialised to null. -/
def moveConstruct (h : Links A) (s o : A) : Except Fault (Links A) :=
  let h₀ := setNext (setPrev h s null) s null
  if empty h₀ o then .ok (selfLink h₀ s)
  else
    match writePrev null h₀ (h₀.next o) s with
    | .error e => .error e
    | .ok h₁ =>
      match writeNext null h₁ (h₁.prev o) s with
      | .error e => .error e
      | .ok h₂ => .ok (selfLink h₂ o)

/-- `std::swap(a, b)` over the given move assignment, with its temporary at `tmp`. -/
def stdSwap (assign : Links A → A → A → Option (Except Fault (Links A))) (tmp : A) (h : Links A)
    (a b : A) : Option (Except Fault (Links A)) :=
  match moveConstruct null h tmp a with
  | .error e => some (.error e)
  | .ok h₁ =>
    match assign h₁ a b with
    | some (.ok h₂) => assign h₂ b tmp
    | r => r

/-- `operator=(IntrusiveList&& other)` of the list at `t`.  `stack` are the addresses of the
    temporaries, two for every level of nesting. -/
def moveAssign (stack : Nat → A) :
    Nat → Nat → Links A → A → A → Option (Except Fault (Links A))
  | 0, _, _, _, _ => none
  | fuel + 1, depth, h, t, o =>
    if t = o then some (.ok h)
    else
      let tmp := stack (2 * depth)
      match moveConstruct null h tmp o with
      | .error e => some (.error e)
      | .ok h₁ =>
        stdSwap null (moveAssign stack fuel (depth + 1)) (stack (2 * depth + 1)) h₁ t tmp

/-! ### Move construction -/

variable {null} {h : Links A} {s o x : A} {xs : List A}

/-- A sentinel linked to itself is an empty list. -/
theorem selfLink_isRing (h : Links A) (s : A) : IsRing (selfLink h s) s [] := by
  rw [isRing_nil]
  simp [selfLink, setNext, setPrev]

theorem selfLink_sameOutside {zs : List A} (hs : s ∈ zs) (h : Links A) :
    SameOutside zs h (selfLink h s) := by
  intro y hy
  have hys : y ≠ s := fun he => hy (he ▸ hs)
  simp [selfLink, setNext, setPrev, hys]

theorem setNext_sameOutside {zs : List A} (hs : s ∈ zs) (h : Links A) (y : A) :
    SameOutside zs h (setNext h s y) := by
  intro z hz
  have hzs : z ≠ s := fun he => hz (he ▸ hs)
  simp [setNext, hzs]

theorem setPrev_sameOutside {zs : List A} (hs : s ∈ zs) (h : Links A) (y : A) :
    SameOutside zs h (setPrev h s y) := by
  intro z hz
  have hzs : z ≠ s := fun he => hz (he ▸ hs)
  simp [setPrev, hzs]

/-- The members of a new sentinel do not touch the other list. -/
theorem newSentinel_isRing (hr : IsRing h o xs) (hs : s ∉ o :: xs) :
    IsRing (setNext (setPrev h s null) s null) o xs := by
  have hsame : SameOutside [s] h (setNext (setPrev h s null) s null) :=
    (setPrev_sameOutside List.mem_cons_self h null).trans
      (setNext_sameOutside List.mem_cons_self _ null)
  refine hr.frame hsame (fun y hy he => hs ?_)
  rw [← List.mem_singleton.mp he]
  exact hy

/-- Moving an empty list. -/
theorem moveConstruct_nil (hr : IsRing h o []) (hs : s ≠ o) :
    ∃ h', moveConstruct null h s o = .ok h' ∧ IsRing h' s [] ∧ IsRing h' o [] ∧
      SameOutside [s] h h' := by
  have hr₀ : IsRing (setNext (setPrev h s null) s null) o [] :=
    newSentinel_isRing hr (by simpa using hs)
  have hempty : empty (setNext (setPrev h s null) s null) o = true := by
    simp [empty, beginIt, hr₀.next_sentinel]
  have hsame : SameOutside [s] (setNext (setPrev h s null) s null)
      (selfLink (setNext (setPrev h s null) s null) s) :=
    selfLink_sameOutside List.mem_cons_self _
  refine ⟨_, ?_, selfLink_isRing _ s, hr₀.frame hsame (by simpa using hs.symm), ?_⟩
  · simp only [moveConstruct, hempty, if_true]
  · exact ((setPrev_sameOutside List.mem_cons_self h null).trans
      (setNext_sameOutside List.mem_cons_self _ null)).trans hsame

/-- **Moving a non-empty list** leaves the links of the new sentinel null. -/
theorem moveConstruct_cons (hr : IsRing h o (x :: xs)) (hs : s ∉ o :: x :: xs)
    (hnull : null ∉ x :: xs) :
    ∃ h', moveConstruct null h s o = .ok h' ∧ h'.next s = null ∧ IsRing h' o [] ∧
      SameOutside (s :: o :: x :: xs) h h' := by
  have hr₀ : IsRing (setNext (setPrev h s null) s null) o (x :: xs) := newSentinel_isRing hr hs
  have hempty : empty (setNext (setPrev h s null) s null) o = false := by
    have hr₀' : IsRing (setNext (setPrev h s null) s null) o ([] ++ x :: xs) := hr₀
    exact empty_of_mem hr₀'
  have hfirst : (setNext (setPrev h s null) s null).next o = x := hr₀.next_sentinel
  have hlast : (setNext (setPrev h s null) s null).prev o = lastOf o (x :: xs) := hr₀.prev_sentinel
  have hmem : lastOf o (x :: xs) ∈ x :: xs := by
    rw [lastOf, List.getLast_cons (by simp)]
    exact List.getLast_mem _
  have hxo : o ≠ x := by
    rintro rfl
    exact hr.sentinel_not_mem List.mem_cons_self
  have hxn : x ≠ null := fun he => hnull (he ▸ List.mem_cons_self)
  have hln : lastOf o (x :: xs) ≠ null := fun he => hnull (he ▸ hmem)
  have hls : s ≠ lastOf o (x :: xs) := fun he => hs (List.mem_cons_of_mem o (he ▸ hmem))
  have hso : s ≠ o := fun he => hs (he ▸ List.mem_cons_self)
  -- the first and the last element get the new sentinel as neighbour, and the old one is reset
  refine ⟨selfLink (setNext (setPrev (setNext (setPrev h s null) s null) x s)
    (lastOf o (x :: xs)) s) o, ?_, ?_, selfLink_isRing _ o, ?_⟩
  · have hprev : (setPrev (setNext (setPrev h s null) s null) x s).prev o
        = lastOf o (x :: xs) := by
      rw [← hlast]
      exact Function.update_of_ne hxo _ _
    simp only [moveConstruct, hempty, Bool.false_eq_true, if_false, hfirst, writePrev,
      if_neg hxn, hprev, writeNext, if_neg hln]
  · simp [selfLink, setNext, setPrev, hso, hls]
  · refine (setPrev_sameOutside ?_ h null).trans ((setNext_sameOutside ?_ _ null).trans
      ((setPrev_sameOutside ?_ _ s).trans ((setNext_sameOutside ?_ _ s).trans
        (selfLink_sameOutside ?_ _))))
    · exact List.mem_cons_self
    · exact List.mem_cons_self
    · simp
    · exact List.mem_cons_of_mem s (List.mem_cons_of_mem o hmem)
    · simp

/-- Moving any well-formed list returns and leaves it empty. -/
theorem moveConstruct_ok (hr : IsRing h o xs) (hs : s ∉ o :: xs) (hnull : null ∉ xs) :
    ∃ h', moveConstruct null h s o = .ok h' ∧ IsRing h' o [] ∧
      SameOutside (s :: o :: xs) h h' := by
  cases xs with
  | nil =>
    obtain ⟨h', hmove, -, hring, hsame⟩ := moveConstruct_nil hr (by simpa using hs)
    exact ⟨h', hmove, hring, hsame.mono (by simp)⟩
  | cons x xs =>
    obtain ⟨h', hmove, -, hring, hsame⟩ := moveConstruct_cons hr hs hnull
    exact ⟨h', hmove, hring, hsame⟩

/-- The promise of the move constructor. -/
def ConstructMoves (null : A) (h : Links A) (s o : A) (xs : List A) : Prop :=
  ∃ h', moveConstruct null h s o = .ok h' ∧ IsRing h' s xs ∧ IsRing h' o []

/-- **Move construction** keeps its promise only for an empty list. -/
theorem moveConstruct_iff (hr : IsRing h o xs) (hs : s ∉ o :: xs) (hnull : null ∉ xs) :
    ConstructMoves null h s o xs ↔ xs = [] := by
  constructor
  · rintro ⟨h', hmove, hring, -⟩
    cases xs with
    | nil => rfl
    | cons x xs =>
      -- the new sentinel should be linked to the first element
      obtain ⟨h'', hmove', hnext, -, -⟩ := moveConstruct_cons hr hs hnull
      rw [hmove, Except.ok.injEq] at hmove'
      rw [← hmove', hring.next_sentinel, headOf_cons] at hnext
      exact absurd (hnext ▸ List.mem_cons_self) hnull
  · rintro rfl
    obtain ⟨h', hmove, hnew, hold, -⟩ := moveConstruct_nil hr (by simpa using hs)
    exact ⟨h', hmove, hnew, hold⟩

/-! ### Move assignment -/

variable {stack : Nat → A} {t : A} {ys : List A}

/-- A swap that returns normally has done a move assignment that does. -/
theorem stdSwap_ok {assign : Links A → A → A → Option (Except Fault (Links A))} {tmp a b : A}
    {h' : Links A} (hswap : stdSwap null assign tmp h a b = some (.ok h')) :
    ∃ h₁ h₂, assign h₁ a b = some (.ok h₂) := by
  rw [stdSwap] at hswap
  split at hswap
  · exact absurd hswap (by simp)
  · rename_i h₁ _
    split at hswap
    · rename_i h₂ hassign
      exact ⟨h₁, h₂, hassign⟩
    · rename_i hnot
      exact ⟨h₁, h', hswap⟩

/-- **No move assignment from another list returns normally**: it would have to wait for one
    from its own temporary. -/
theorem moveAssign_never_ok (hstack : ∀ n, t ≠ stack n) (hto : t ≠ o) (fuel depth : Nat)
    (h' : Links A) : moveAssign null stack fuel depth h t o ≠ some (.ok h') := by
  induction fuel generalizing depth h o h' with
  | zero => simp [moveAssign]
  | succ fuel ih =>
    intro hassign
    rw [moveAssign, if_neg hto] at hassign
    simp only at hassign
    split at hassign
    · exact absurd hassign (by simp)
    · obtain ⟨h₁, h₂, hinner⟩ := stdSwap_ok hassign
      exact ih (hstack _) (depth + 1) h₂ hinner

/-- Moving the target list into the temporary of the swap leaves the first temporary as it is. -/
private theorem swap_start (ht : IsRing h t ys) (hnull : null ∉ ys)
    (hinj : Function.Injective stack) (hstack : ∀ n, stack n ∉ t :: ys) (n : Nat) :
    ∃ h', moveConstruct null h (stack (n + 1)) t = .ok h' ∧ IsRing h' t [] ∧
      h'.next (stack n) = h.next (stack n) ∧ h'.prev (stack n) = h.prev (stack n) := by
  obtain ⟨h', hmove, hring, hsame⟩ := moveConstruct_ok ht (hstack (n + 1)) hnull
  refine ⟨h', hmove, hring, hsame _ ?_⟩
  rw [List.mem_cons, not_or]
  exact ⟨fun he => absurd (hinj he) (by omega), hstack n⟩

/-- A move assignment from an empty list calls itself without end. -/
theorem moveAssign_diverges (ht : IsRing h t ys) (ho : IsRing h o []) (hto : t ≠ o)
    (hnull : null ∉ ys) (hinj : Function.Injective stack) (hstack : ∀ n, stack n ∉ t :: ys)
    (fuel depth : Nat) (hfresh : ∀ n, 2 * depth ≤ n → stack n ≠ o) :
    moveAssign null stack fuel depth h t o = none := by
  induction fuel generalizing depth h o ys with
  | zero => rfl
  | succ fuel ih =>
    have hmove := @moveConstruct_nil A _ null h _ o ho (hfresh (2 * depth) le_rfl)
    obtain ⟨h₁, hmove₁, htmp, -, hsame⟩ := hmove
    have ht₁ : IsRing h₁ t ys := by
      refine ht.frame hsame (fun y hy he => hstack (2 * depth) ?_)
      rw [← List.mem_singleton.mp he]
      exact hy
    obtain ⟨h₂, hmove₂, ht₂, hnext, hprev⟩ := swap_start ht₁ hnull hinj hstack (2 * depth)
    -- both lists are empty now, and the assignment starts again one level deeper
    have htmp₂ : IsRing h₂ (stack (2 * depth)) [] := by
      rw [isRing_nil] at htmp ⊢
      exact ⟨hnext.trans htmp.1, hprev.trans htmp.2⟩
    have htt : t ≠ stack (2 * depth) := fun he => hstack (2 * depth) (he ▸ List.mem_cons_self)
    have hstack' : ∀ n, stack n ∉ [t] := by
      intro n hn
      exact hstack n (List.mem_cons.mpr (Or.inl (List.mem_singleton.mp hn)))
    have hrec := ih ht₂ htmp₂ htt (by simp) hstack' (depth + 1)
      (fun n hn he => absurd (hinj he) (by omega))
    rw [moveAssign, if_neg hto]
    simp only [hmove₁, stdSwap, hmove₂, hrec]

/-- A move assignment from a non-empty list dereferences the null links of its temporary. -/
theorem moveAssign_faults (ht : IsRing h t ys) (ho : IsRing h o (x :: xs)) (hto : t ≠ o)
    (hdis : ∀ y ∈ t :: ys, y ∉ o :: x :: xs) (hnullt : null ∉ ys) (hnullo : null ∉ x :: xs)
    (hinj : Function.Injective stack) (hstack : ∀ n, stack n ∉ t :: ys)
    (hfresh : ∀ n, stack n ∉ o :: x :: xs) (hstackn : ∀ n, stack n ≠ null) (fuel depth : Nat) :
    moveAssign null stack (fuel + 2) depth h t o = some (.error .nullDereference) := by
  obtain ⟨h₁, hmove₁, hnull₁, -, hsame⟩ := moveConstruct_cons ho (hfresh (2 * depth)) hnullo
  have ht₁ : IsRing h₁ t ys := by
    refine ht.frame hsame (fun y hy he => ?_)
    rcases List.mem_cons.mp he with rfl | he
    · exact hstack _ hy
    · exact hdis y hy he
  obtain ⟨h₂, hmove₂, -, hnext, -⟩ := swap_start ht₁ hnullt hinj hstack (2 * depth)
  have htt : t ≠ stack (2 * depth) := fun he => hstack (2 * depth) (he ▸ List.mem_cons_self)
  -- the temporary's first element is taken to be at null
  have hne : stack (2 * depth) ≠ stack (2 * (depth + 1)) := fun he => absurd (hinj he) (by omega)
  have hinner : moveConstruct null h₂ (stack (2 * (depth + 1))) (stack (2 * depth))
      = .error .nullDereference := by
    have hfirst : (setNext (setPrev h₂ (stack (2 * (depth + 1))) null)
        (stack (2 * (depth + 1))) null).next (stack (2 * depth)) = null := by
      simp [setNext, setPrev, hne, hnext, hnull₁]
    simp [moveConstruct, empty, beginIt, hfirst, (hstackn _).symm, writePrev]
  rw [moveAssign, if_neg hto]
  simp only [hmove₁, stdSwap, hmove₂]
  rw [moveAssign, if_neg htt]
  simp only [hinner]

/-- The promise of the move assignment. -/
def AssignMoves (null : A) (stack : Nat → A) (h : Links A) (t o : A) (xs : List A) : Prop :=
  ∃ fuel h', moveAssign null stack fuel 0 h t o = some (.ok h') ∧ IsRing h' t xs ∧ IsRing h' o []

/-- **Moving a list.** For every well-formed list, moving it into a new list object keeps its
    elements only if there are none, and moving it to another list object never does. -/
theorem moves_iff (hr : IsRing h o xs) (hnull : null ∉ xs) :
    (∀ s, s ∉ o :: xs → (ConstructMoves null h s o xs ↔ xs = [])) ∧
    (∀ t stack, t ≠ o → (∀ n, t ≠ stack n) → ¬ AssignMoves null stack h t o xs) := by
  refine ⟨fun s hs => moveConstruct_iff hr hs hnull, ?_⟩
  rintro t stack hto hstack ⟨fuel, h', hassign, -⟩
  exact moveAssign_never_ok hstack hto fuel 0 h' hassign

/-- A list of the one element 1 with its sentinel at 0; all other nodes are empty lists. -/
def oneNode : Links Nat := ⟨fun n => if n < 2 then 1 - n else n, fun n => if n < 2 then 1 - n else n⟩

theorem oneNode_isRing : IsRing oneNode 0 [1] := by
  simp [IsRing, Ring.Joined, oneNode]

/-- A list of one element is neither moved into a new list nor assigned to an empty one. -/
theorem oneNode_not_moved :
    ¬ ConstructMoves 9 oneNode 5 0 [1] ∧ ¬ AssignMoves 9 (fun n => n + 10) oneNode 2 0 [1] := by
  constructor
  · rw [moveConstruct_iff oneNode_isRing (by simp) (by simp)]
    simp
  · rintro ⟨fuel, h', hassign, -⟩
    exact moveAssign_never_ok (by intro n; omega) (by simp) fuel 0 h' hassign

/-- An empty list is moved into a new one. -/
theorem moves_iff_empty : ConstructMoves 9 oneNode 5 2 [] := by
  have hempty : IsRing oneNode 2 [] := by
    simp [IsRing, Ring.Joined, oneNode]
  exact ((moves_iff hempty (by simp)).1 5 (by simp)).mpr rfl

end Exios.IntrusiveList
