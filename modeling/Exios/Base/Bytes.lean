import Mathlib.Data.BitVec
import Mathlib.Data.List.Basic
import Mathlib.Data.Nat.Digits.Defs

namespace Exios

/-!
# Base — numbers as bytes, and stores into an array

`Bytes.le n v` is the object representation of the number `v` in `n` bytes, the least
significant byte first, and `Bytes.value` the number that a sequence of bytes represents.

A `Buffer` is an array together with the indices it was stored through, in order: a store
behind the end leaves the cells alone but stays on record.

* `Bytes.value_le`, `Bytes.le_value` — the two round trips between numbers and bytes;
* `Buffer.copy_eq` — a copy to ascending indices replaces a segment of the cells;
* `Buffer.copyBack_eq` — a copy through a reverse iterator stores the reversed sequence.
-/

/-! ### Numbers as bytes -/

namespace Bytes

/-- The `n` low bytes of a number, the least significant one first. -/
def le (n v : Nat) : List (BitVec 8) :=
  (List.range n).map fun i => BitVec.ofNat 8 (v / 256 ^ i)

/-- The number that a sequence of bytes represents, the least significant one first. -/
def value (bytes : List (BitVec 8)) : Nat := Nat.ofDigits 256 (bytes.map BitVec.toNat)

/-- A representation has the size that was asked for. -/
@[simp] theorem length_le (n v : Nat) : (le n v).length = n := by
  simp [le]

@[simp] theorem le_zero (v : Nat) : le 0 v = [] := rfl

/-- The first byte, and the bytes of the rest. -/
theorem le_succ (n v : Nat) : le (n + 1) v = BitVec.ofNat 8 v :: le n (v / 256) := by
  rw [le, List.range_succ_eq_map, List.map_cons, List.map_map, le]
  congr 1
  · rw [pow_zero, Nat.div_one]
  · apply List.map_congr_left
    intro i _
    rw [Function.comp_apply, Nat.succ_eq_add_one, pow_succ', Nat.div_div_eq_div_mul]

@[simp] theorem value_nil : value [] = 0 := rfl

@[simp] theorem value_cons (b : BitVec 8) (bs : List (BitVec 8)) :
    value (b :: bs) = b.toNat + 256 * value bs := by
  rw [value, List.map_cons, Nat.ofDigits_cons, value]

/-- `n` bytes represent a number below `256 ^ n`. -/
theorem value_lt (bytes : List (BitVec 8)) : value bytes < 256 ^ bytes.length := by
  have hdigits : ∀ x ∈ bytes.map BitVec.toNat, x < 256 := by
    intro x hx
    obtain ⟨b, _, rfl⟩ := List.mem_map.mp hx
    exact b.isLt
  have hlt := Nat.ofDigits_lt_base_pow_length (by decide : 1 < 256) hdigits
  rwa [List.length_map] at hlt

/-- **From a number to bytes and back.**  The number is cut to the width. -/
theorem value_le (n v : Nat) : value (le n v) = v % 256 ^ n := by
  induction n generalizing v with
  | zero => rw [le_zero, value_nil, pow_zero, Nat.mod_one]
  | succ n ih =>
    have hbyte : (BitVec.ofNat 8 v).toNat = v % 256 := BitVec.toNat_ofNat v 8
    rw [le_succ, value_cons, ih, hbyte, pow_succ', Nat.mod_mul]

/-- **From bytes to a number and back.** -/
theorem le_value (bytes : List (BitVec 8)) : le bytes.length (value bytes) = bytes := by
  induction bytes with
  | nil => rfl
  | cons b bs ih =>
    have hb : b.toNat < 256 := b.isLt
    have hlow : BitVec.ofNat 8 (value (b :: bs)) = b := by
      apply BitVec.eq_of_toNat_eq
      rw [BitVec.toNat_ofNat, value_cons]
      omega
    have hhigh : value (b :: bs) / 256 = value bs := by
      rw [value_cons]
      omega
    rw [List.length_cons, le_succ, hlow, hhigh, ih]

/-- The bytes of a number, from a sequence of bytes with that value. -/
theorem le_eq_of_value {n v : Nat} {bytes : List (BitVec 8)} (hn : n = bytes.length)
    (hv : value bytes = v) : le n v = bytes := by
  rw [hn, ← hv, le_value]

end Bytes

/-! ### Stores into an array -/

/-- An array, with the indices it was stored through. -/
structure Buffer (α : Type*) where
  cells : List α
  stores : List Nat
deriving DecidableEq, Repr

namespace Buffer

variable {α : Type*}

/-- An array that nothing was stored into yet. -/
def ofCells (cells : List α) : Buffer α := ⟨cells, []⟩

/-- `p[i] = c`. -/
def store (b : Buffer α) (i : Nat) (c : α) : Buffer α := ⟨b.cells.set i c, b.stores ++ [i]⟩

/-- Copy to the indices from `i` on. -/
def copy (b : Buffer α) (i : Nat) : List α → Buffer α
  | [] => b
  | c :: cs => (b.store i c).copy (i + 1) cs

/-- Copy through a reverse iterator with base `p`: to the indices `p - 1`, `p - 2` and so on. -/
def copyBack (b : Buffer α) (p : Nat) : List α → Buffer α
  | [] => b
  | c :: cs => (b.store (p - 1) c).copyBack (p - 1) cs

/-- Every store landed in the array. -/
def InBounds (b : Buffer α) : Prop := ∀ i ∈ b.stores, i < b.cells.length

/-- **A copy to ascending indices** replaces the segment it is copied over. -/
theorem copy_eq (front : List α) {seg src : List α} (behind : List α) (log : List Nat)
    (h : seg.length = src.length) :
    copy ⟨front ++ seg ++ behind, log⟩ front.length src
      = ⟨front ++ src ++ behind, log ++ List.range' front.length src.length⟩ := by
  induction src generalizing front seg log with
  | nil =>
    obtain rfl : seg = [] := List.eq_nil_of_length_eq_zero h
    simp [copy]
  | cons c cs ih =>
    cases seg with
    | nil => simp at h
    | cons x seg =>
      -- the first byte is written at the end of what is in front, which is one longer from then on
      have hset : (front ++ (x :: seg) ++ behind).set front.length c
          = (front ++ [c]) ++ seg ++ behind := by
        simp
      have hrec := ih (front ++ [c]) (log ++ [front.length]) (by simpa using h)
      rw [copy, store, hset, show front.length + 1 = (front ++ [c]).length by simp, hrec]
      simp [List.range'_succ]

/-- **A copy through a reverse iterator** stores the reversed sequence. -/
theorem copyBack_eq {seg src : List α} (behind : List α) (log : List Nat)
    (h : seg.length = src.length) :
    copyBack ⟨seg ++ behind, log⟩ seg.length src
      = ⟨src.reverse ++ behind, log ++ (List.range src.length).reverse⟩ := by
  induction src generalizing seg behind log with
  | nil =>
    obtain rfl : seg = [] := List.eq_nil_of_length_eq_zero h
    simp [copyBack]
  | cons c cs ih =>
    -- the cell stored into is the last one of the segment
    rcases List.eq_nil_or_concat' seg with rfl | ⟨seg, x, rfl⟩
    · simp at h
    · have hlen : seg.length = cs.length := by simpa using h
      have hset : (seg ++ [x] ++ behind).set seg.length c = seg ++ (c :: behind) := by
        simp
      have hrec := ih (c :: behind) (log ++ [seg.length]) hlen
      rw [copyBack, store, List.length_append, List.length_singleton, Nat.add_sub_cancel, hset,
        hrec]
      simp [List.range_succ, hlen]

end Buffer

end Exios
