import Mathlib.Data.List.Nodup
import Mathlib.Data.List.TakeWhile

namespace Exios.Cursor

/-!
# Base — sequences with cursors

A *cursor* into a duplicate-free sequence `xs : List α` is an `Option α`: `some x` stands on
the element `x`, `none` stands past the end.  Cursors name elements, not offsets, so they
stay put when other elements come and go; this is what an iterator of a linked list is.

* `front xs p` / `back xs p` — the elements before the cursor, and those from the cursor on.
* `next xs x` — the cursor after the element `x`.
* `insert x p xs` — the sequence with `x` put directly in front of `p`.

Every lemma has the same shape: the sequence is written `as ++ bs` and the cursor is
`bs.head?`, so that the operations become plain list surgery at the seam.
-/

variable {α : Type*} [DecidableEq α]

/-- The elements strictly before the cursor. -/
def front (xs : List α) (p : Option α) : List α := xs.takeWhile (fun x => some x ≠ p)

/-- The elements from the cursor on. -/
def back (xs : List α) (p : Option α) : List α := xs.dropWhile (fun x => some x ≠ p)

/-- The cursor directly after the element `x`. -/
def next (xs : List α) (x : α) : Option α := (back xs (some x)).tail.head?

/-- Put `x` directly in front of the cursor `p`. -/
def insert (x : α) (p : Option α) (xs : List α) : List α := front xs p ++ x :: back xs p

/-- A cursor splits a list in two: what is in front of it, and what begins with it. -/
theorem front_append_back (xs : List α) (p : Option α) : front xs p ++ back xs p = xs :=
  List.takeWhile_append_dropWhile

@[simp] theorem front_none (xs : List α) : front xs none = xs := by
  simp [front]

@[simp] theorem back_none (xs : List α) : back xs none = [] := by
  simp [back]

omit [DecidableEq α] in
/-- The seam of a duplicate-free sequence: the head of the second part is not in the first. -/
private theorem ne_head_of_mem {as bs : List α} (h : (as ++ bs).Nodup) {x : α} (hx : x ∈ as) :
    some x ≠ bs.head? := by
  cases bs with
  | nil => simp
  | cons b bs =>
    rintro ⟨⟩
    exact List.disjoint_of_nodup_append h hx (by simp)

/-- **Front at a seam.** -/
theorem front_append {as bs : List α} (h : (as ++ bs).Nodup) :
    front (as ++ bs) bs.head? = as := by
  rw [front, List.takeWhile_append_of_pos (fun x hx => by simpa using ne_head_of_mem h hx)]
  cases bs with
  | nil => simp
  | cons b bs => simp

/-- **Back at a seam.** -/
theorem back_append {as bs : List α} (h : (as ++ bs).Nodup) :
    back (as ++ bs) bs.head? = bs := by
  have hsplit := front_append_back (as ++ bs) bs.head?
  rw [front_append h] at hsplit
  exact List.append_cancel_left hsplit

/-- **Insertion at a seam.** -/
theorem insert_append {as bs : List α} (h : (as ++ bs).Nodup) (x : α) :
    insert x bs.head? (as ++ bs) = as ++ x :: bs := by
  rw [insert, front_append h, back_append h]

/-- The cursor after an element is the head of what follows it. -/
theorem next_append {as bs : List α} {x : α} (h : (as ++ x :: bs).Nodup) :
    next (as ++ x :: bs) x = bs.head? := by
  have hback : back (as ++ x :: bs) (x :: bs).head? = x :: bs := back_append h
  rw [next, show some x = (x :: bs).head? from rfl, hback, List.tail_cons]

/-- Erasing an element of a duplicate-free sequence joins its two sides. -/
theorem erase_append {as bs : List α} {x : α} (h : (as ++ x :: bs).Nodup) :
    (as ++ x :: bs).erase x = as ++ bs := by
  have hx : x ∉ as := fun hm => (List.disjoint_of_nodup_append h) hm (by simp)
  rw [List.erase_append_right _ hx, List.erase_cons_head]

end Exios.Cursor
