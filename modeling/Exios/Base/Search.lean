import Mathlib.Data.List.TakeWhile
import Mathlib.Order.Lattice

namespace Exios.Search

/-!
# Base — binary search on a sequence

`lowerBound p xs` is the halving search of the C++ standard library: the range is cut at
`length / 2`, and the search goes on behind the middle element when `p` holds of it and in
front of it otherwise.  On a sequence *partitioned* by `p` (every element satisfying `p`
comes first) it returns the size of the first part (`lowerBound_append`); on any other
sequence its answer means nothing, so callers have to bring the partition.

`exists_split_of_sorted` gives the partition for a sequence sorted by a key.
-/

variable {α : Type*}

/-- The halving loop; `fuel` bounds the number of halvings. -/
def lowerBoundLoop (p : α → Bool) : Nat → List α → Nat
  | 0, _ => 0
  | fuel + 1, xs =>
    match xs.drop (xs.length / 2) with
    | [] => 0
    | mid :: rest =>
      if p mid then xs.length / 2 + 1 + lowerBoundLoop p fuel rest
      else lowerBoundLoop p fuel (xs.take (xs.length / 2))

/-- Offset of the first element that does not satisfy `p`, by binary search. -/
def lowerBound (p : α → Bool) (xs : List α) : Nat := lowerBoundLoop p xs.length xs

/-- The loop stays inside the sequence. -/
theorem lowerBoundLoop_le (p : α → Bool) (fuel : Nat) (xs : List α) :
    lowerBoundLoop p fuel xs ≤ xs.length := by
  induction fuel generalizing xs with
  | zero => exact Nat.zero_le _
  | succ fuel ih =>
    rw [lowerBoundLoop]
    split
    · exact Nat.zero_le _
    · rename_i mid rest hdrop
      have hlen : xs.length - xs.length / 2 = rest.length + 1 := by
        rw [← List.length_drop, hdrop, List.length_cons]
      split
      · -- in the back half, behind the middle
        have := ih rest
        omega
      · -- in the front half
        have := ih (xs.take (xs.length / 2))
        rw [List.length_take] at this
        omega

/-- The loop on a partitioned sequence, for any fuel that covers its length. -/
theorem lowerBoundLoop_append (p : α → Bool) (fuel : Nat) (ys zs : List α)
    (hys : ∀ y ∈ ys, p y = true) (hzs : ∀ z ∈ zs, p z = false)
    (hfuel : (ys ++ zs).length ≤ fuel) :
    lowerBoundLoop p fuel (ys ++ zs) = ys.length := by
  induction fuel generalizing ys zs with
  | zero =>
    have hlen : ys.length = 0 := by simp at hfuel; simp [hfuel.1]
    simp [lowerBoundLoop, hlen]
  | succ fuel ih =>
    rw [lowerBoundLoop]
    generalize hh : (ys ++ zs).length / 2 = half
    have hlen : (ys ++ zs).length = ys.length + zs.length := List.length_append
    by_cases hlt : half < ys.length
    · -- the middle element lies in the first part: the search goes on behind it
      have hdrop : (ys ++ zs).drop half = ys[half] :: (ys.drop (half + 1) ++ zs) := by
        rw [List.drop_append_of_le_length (le_of_lt hlt), List.drop_eq_getElem_cons hlt]
        rfl
      have hrest := ih (ys.drop (half + 1)) zs (fun y hy => hys y (List.mem_of_mem_drop hy)) hzs
        (by simp only [List.length_append, List.length_drop]; omega)
      rw [hdrop]
      simp only [hys _ (List.getElem_mem hlt), if_true, hrest, List.length_drop]
      omega
    · cases hdrop : (ys ++ zs).drop half with
      | nil =>
        have hle : (ys ++ zs).length ≤ half := List.drop_eq_nil_iff.mp hdrop
        show 0 = ys.length
        omega
      | cons mid rest =>
        -- the middle element lies in the second part: the search goes on in front of it
        have hmid : mid ∈ zs := by
          have hm : mid ∈ (ys ++ zs).drop half := by rw [hdrop]; simp
          rw [List.drop_append, List.drop_eq_nil_of_le (by omega), List.nil_append] at hm
          exact List.mem_of_mem_drop hm
        have htake : (ys ++ zs).take half = ys ++ zs.take (half - ys.length) := by
          rw [List.take_append, List.take_of_length_le (by omega)]
        have hfront := ih ys (zs.take (half - ys.length)) hys
          (fun z hz => hzs z (List.mem_of_mem_take hz))
          (by simp only [List.length_append, List.length_take]; omega)
        simp only [hzs mid hmid, Bool.false_eq_true, if_false]
        rw [htake, hfront]

/-- **Binary search is right on a partitioned sequence.** -/
theorem lowerBound_append (p : α → Bool) (ys zs : List α)
    (hys : ∀ y ∈ ys, p y = true) (hzs : ∀ z ∈ zs, p z = false) :
    lowerBound p (ys ++ zs) = ys.length :=
  lowerBoundLoop_append p _ ys zs hys hzs le_rfl

/-- A sequence sorted by `key` splits at a value into the smaller, the equal and the greater
    elements. -/
theorem exists_split_of_sorted {β : Type*} [LinearOrder β] (key : α → β) (v : β) (xs : List α)
    (hs : xs.Pairwise (fun a b => key a ≤ key b)) :
    ∃ lo eq hi, xs = lo ++ (eq ++ hi) ∧ (∀ x ∈ lo, key x < v) ∧ (∀ x ∈ eq, key x = v) ∧
      (∀ x ∈ hi, v < key x) := by
  induction xs with
  | nil => exact ⟨[], [], [], by simp⟩
  | cons x xs ih =>
    rw [List.pairwise_cons] at hs
    obtain ⟨lo, eq, hi, rfl, hlo, heq, hhi⟩ := ih hs.2
    rcases lt_trichotomy (key x) v with hx | hx | hx
    · exact ⟨x :: lo, eq, hi, rfl, by simpa [hx] using hlo, heq, hhi⟩
    · -- nothing smaller than `v` can stand behind `x`
      have hlo' : lo = [] := by
        rw [List.eq_nil_iff_forall_not_mem]
        intro y hy
        exact absurd (hlo y hy) (not_lt.mpr (hx ▸ hs.1 y (by simp [hy])))
      subst hlo'
      exact ⟨[], x :: eq, hi, rfl, by simp, by simpa [hx] using heq, hhi⟩
    · have hgt : ∀ y ∈ lo ++ (eq ++ hi), v < key y := fun y hy => lt_of_lt_of_le hx (hs.1 y hy)
      exact ⟨[], [], x :: (lo ++ (eq ++ hi)), rfl, by simp, by simp, by simpa [hx] using hgt⟩

end Exios.Search
