import Exios.Base.Ring
import Exios.Base.Search

namespace Exios.Ring

/-!
# Base — iterators over a ring

An iterator of a doubly linked ring is the address of a node; `end()` is the sentinel.  The
algorithms of the C++ standard library are defined here by the steps that they take along the
links, so that they know nothing about the sequence that the ring visits.

Every lemma is about a range `r` of a ring that visits `a ++ (r ++ b)`: the range starts at
`headOf s (r ++ b)` and ends at `headOf s b`.

* `distance_range`, `advance_range` — counting and stepping;
* `lowerBoundIt_range` — the halving search stands where `Search.lowerBound` says;
* `findIf_range`, `forEach_range` — a range is scanned from its start.
-/

variable {A : Type*} {σ : Type*}

/-! ### The algorithms -/

/-- `std::distance(it, last)`; `none` when `last` is not met within `fuel` steps. -/
def distance (h : Links A) [DecidableEq A] (last : A) : Nat → A → Option Nat
  | 0, _ => none
  | fuel + 1, it => if it = last then some 0 else (distance h last fuel (h.next it)).map (· + 1)

/-- `std::advance(it, n)`. -/
def advance (h : Links A) : Nat → A → A
  | 0, it => it
  | n + 1, it => advance h n (h.next it)

/-- The loop of `std::lower_bound` on the `len` nodes from `first` on; `fuel` bounds the number
    of halvings. -/
def lowerBoundItLoop (h : Links A) (p : A → Bool) : Nat → Nat → A → A
  | 0, _, first => first
  | fuel + 1, len, first =>
    if len = 0 then first
    else
      let middle := advance h (len / 2) first
      if p middle then lowerBoundItLoop h p fuel (len - len / 2 - 1) (h.next middle)
      else lowerBoundItLoop h p fuel (len / 2) first

/-- `std::lower_bound(first, last, ..)`, where `p` holds of the nodes that compare less. -/
def lowerBoundIt (fuel : Nat) (h : Links A) [DecidableEq A] (p : A → Bool) (first last : A) :
    Option A :=
  (distance h last fuel first).map (fun len => lowerBoundItLoop h p len len first)

/-- `std::find_if(it, last, p)`. -/
def findIf (h : Links A) [DecidableEq A] (last : A) (p : A → Bool) : Nat → A → Option A
  | 0, _ => none
  | fuel + 1, it =>
    if it = last then some last else if p it then some it else findIf h last p fuel (h.next it)

/-- `std::for_each(it, last, f)`, with the state that `f` updates. -/
def forEach (h : Links A) [DecidableEq A] (last : A) (f : σ → A → σ) : Nat → A → σ → Option σ
  | 0, _, _ => none
  | fuel + 1, it, st => if it = last then some st else forEach h last f fuel (h.next it) (f st it)

/-! ### On a ring -/

variable {h : Links A} {s : A} {a r b : List A}

/-- A step from the first node of a range. -/
theorem IsRing.next_range {x : A} (hr : IsRing h s (a ++ (x :: r ++ b))) :
    h.next x = headOf s (r ++ b) := by
  rw [List.cons_append] at hr
  exact hr.neighbours.2

/-- A node of a range is not the end of the range. -/
theorem IsRing.ne_last {x : A} (hr : IsRing h s (a ++ (x :: r ++ b))) : x ≠ headOf s b := by
  intro he
  have hnd : (s :: (a ++ (x :: (r ++ b)))).Nodup := hr.1
  rw [List.nodup_cons, List.nodup_middle, List.nodup_cons] at hnd
  have hmem := headOf_mem s b
  rw [← he, List.mem_append, List.mem_singleton] at hmem
  rcases hmem with hx | hx
  · exact hnd.2.1 (List.mem_append_right _ (List.mem_append_right _ hx))
  · exact hnd.1 (hx ▸ List.mem_append_right _ List.mem_cons_self)

/-- The ring seen from the second node of the range. -/
theorem IsRing.shift {x : A} (hr : IsRing h s (a ++ (x :: r ++ b))) :
    IsRing h s ((a ++ [x]) ++ (r ++ b)) := by
  simpa using hr

/-- Stepping inside a range. -/
theorem advance_range (hr : IsRing h s (a ++ (r ++ b))) {n : Nat} (hn : n ≤ r.length) :
    advance h n (headOf s (r ++ b)) = headOf s (r.drop n ++ b) := by
  induction n generalizing a r with
  | zero => rfl
  | succ n ih =>
    cases r with
    | nil => exact absurd hn (by simp)
    | cons x r =>
      rw [advance, List.cons_append, headOf_cons, hr.next_range, ih hr.shift (by simpa using hn)]
      rfl

variable [DecidableEq A]

/-- The length of a range. -/
theorem distance_range (hr : IsRing h s (a ++ (r ++ b))) {fuel : Nat} (hfuel : r.length < fuel) :
    distance h (headOf s b) fuel (headOf s (r ++ b)) = some r.length := by
  induction r generalizing a fuel with
  | nil =>
    obtain ⟨m, rfl⟩ : ∃ m, fuel = m + 1 := ⟨fuel - 1, by omega⟩
    simp [distance]
  | cons x r ih =>
    rw [List.length_cons] at hfuel
    obtain ⟨m, rfl⟩ : ∃ m, fuel = m + 1 := ⟨fuel - 1, by omega⟩
    rw [List.cons_append, headOf_cons, distance, if_neg hr.ne_last, hr.next_range,
      ih hr.shift (by omega)]
    rfl

omit [DecidableEq A] in
/-- The halving loop takes the same turns on the links as on the sequence. -/
theorem lowerBoundItLoop_range (p : A → Bool) (hr : IsRing h s (a ++ (r ++ b))) (fuel : Nat) :
    lowerBoundItLoop h p fuel r.length (headOf s (r ++ b))
      = headOf s (r.drop (Search.lowerBoundLoop p fuel r) ++ b) := by
  induction fuel generalizing a r b with
  | zero => rfl
  | succ fuel ih =>
    by_cases hlen : r.length = 0
    · obtain rfl := List.eq_nil_of_length_eq_zero hlen
      simp [lowerBoundItLoop]
    · have hhalf : r.length / 2 < r.length := by omega
      have hdrop : r.drop (r.length / 2) = r[r.length / 2] :: r.drop (r.length / 2 + 1) :=
        List.drop_eq_getElem_cons hhalf
      have hmid : advance h (r.length / 2) (headOf s (r ++ b)) = r[r.length / 2] := by
        rw [advance_range hr (le_of_lt hhalf), hdrop]
        rfl
      -- the range cut in front of its middle node
      have hcut : r = r.take (r.length / 2) ++ (r[r.length / 2] :: r.drop (r.length / 2 + 1)) := by
        rw [← hdrop, List.take_append_drop]
      rw [lowerBoundItLoop, if_neg hlen, Search.lowerBoundLoop, hdrop]
      simp only [hmid]
      split
      · -- the search goes on behind the middle node
        have hmid' : IsRing h s ((a ++ r.take (r.length / 2)) ++
            (r[r.length / 2] :: r.drop (r.length / 2 + 1) ++ b)) := by
          have hr' := hr
          rw [hcut] at hr'
          simpa only [List.append_assoc, List.cons_append] using hr'
        have hlen' : (r.drop (r.length / 2 + 1)).length = r.length - r.length / 2 - 1 := by
          rw [List.length_drop]
          omega
        have hrest := ih hmid'.shift
        rw [hmid'.next_range, ← hlen', hrest, List.drop_drop]
      · -- the search goes on in front of it
        have hfront : IsRing h s (a ++ (r.take (r.length / 2) ++ (r.drop (r.length / 2) ++ b))) := by
          rwa [← List.append_assoc (r.take _), List.take_append_drop]
        have hlen' : (r.take (r.length / 2)).length = r.length / 2 := by
          rw [List.length_take]
          omega
        have hle := Search.lowerBoundLoop_le p fuel (r.take (r.length / 2))
        have hrest := ih hfront
        rw [hlen', ← List.append_assoc (r.take _), List.take_append_drop, ← List.append_assoc,
          ← List.drop_append_of_le_length hle, List.take_append_drop] at hrest
        exact hrest

/-- **The halving search on the links** stands where the search on the sequence says. -/
theorem lowerBoundIt_range (p : A → Bool) (hr : IsRing h s (a ++ (r ++ b))) {fuel : Nat}
    (hfuel : r.length < fuel) :
    lowerBoundIt fuel h p (headOf s (r ++ b)) (headOf s b)
      = some (headOf s (r.drop (Search.lowerBound p r) ++ b)) := by
  rw [lowerBoundIt, distance_range hr hfuel, Option.map_some, lowerBoundItLoop_range p hr]
  rfl

/-- **Scanning a range for a node**: the nodes `r` in front of it do not satisfy `p`. -/
theorem findIf_range {p : A → Bool} {c : List A} (hr : IsRing h s (a ++ (r ++ (c ++ b))))
    (hskip : ∀ y ∈ r, p y = false) (hstop : ∀ x, c.head? = some x → p x = true) {fuel : Nat}
    (hfuel : r.length < fuel) :
    findIf h (headOf s b) p fuel (headOf s (r ++ (c ++ b))) = some (headOf s (c ++ b)) := by
  induction r generalizing a fuel with
  | nil =>
    -- nothing left to skip: the search stops at `last`, or at the first item that is found
    obtain ⟨m, rfl⟩ : ∃ m, fuel = m + 1 := ⟨fuel - 1, by omega⟩
    cases c with
    | nil => simp [findIf]
    | cons x c =>
      have hne : x ≠ headOf s b := IsRing.ne_last (r := c) hr
      simp [findIf, hne, hstop x rfl]
  | cons y r ih =>
    rw [List.length_cons] at hfuel
    obtain ⟨m, rfl⟩ : ∃ m, fuel = m + 1 := ⟨fuel - 1, by omega⟩
    have hr' : IsRing h s (a ++ (y :: (r ++ c) ++ b)) := by simpa using hr
    -- one step of the walk, along the link of `y`
    rw [List.cons_append, headOf_cons, findIf, if_neg hr'.ne_last, hskip y List.mem_cons_self,
      if_neg (by simp), hr.next_range, ih hr.shift (fun z hz => hskip z (List.mem_cons_of_mem y hz))
        (by omega)]

/-- **Visiting a range.** -/
theorem forEach_range (f : σ → A → σ) (hr : IsRing h s (a ++ (r ++ b))) {fuel : Nat}
    (hfuel : r.length < fuel) (st : σ) :
    forEach h (headOf s b) f fuel (headOf s (r ++ b)) st = some (r.foldl f st) := by
  induction r generalizing a fuel st with
  | nil =>
    obtain ⟨m, rfl⟩ : ∃ m, fuel = m + 1 := ⟨fuel - 1, by omega⟩
    simp [forEach]
  | cons x r ih =>
    rw [List.length_cons] at hfuel
    obtain ⟨m, rfl⟩ : ∃ m, fuel = m + 1 := ⟨fuel - 1, by omega⟩
    rw [List.cons_append, headOf_cons, forEach, if_neg hr.ne_last, hr.next_range,
      ih hr.shift (by omega)]
    rfl

end Exios.Ring
