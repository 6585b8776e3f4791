import Mathlib.Data.Finset.Card
import Mathlib.Logic.Equiv.Basic

namespace Exios

/-!
# Base — objects that each hold one unit of a shared count

Objects live at places `ι`.  A live object is *active* when it still holds the unit that it took
at its construction; moving from it, resetting it and destroying it end that.  This is a
move-only handle with a flag, as in reference counting or work tracking.

* `Tokens ι` — the live objects and, among them, the active ones;
* `construct`, `reset`, `move`, `destroy` — what is done to one object;
* `relocate` — objects that are moved, with the moved-from ones destroyed
  (`relocate_swap`: one object);
* `discard` — all objects of some places are destroyed;
* `count` — the number of active objects, and what each operation does to it.
-/

/-- The live objects, and those of them that hold a unit. -/
@[ext] structure Tokens (ι : Type*) where
  live : Finset ι
  active : Finset ι
  active_subset : active ⊆ live

namespace Tokens

variable {ι : Type*}

/-- No objects. -/
def empty : Tokens ι := ⟨∅, ∅, Finset.Subset.refl _⟩

/-- The number of active objects. -/
def count (T : Tokens ι) : Nat := T.active.card

/-- An active token is alive. -/
theorem mem_live (T : Tokens ι) {p : ι} (hp : p ∈ T.active) : p ∈ T.live := T.active_subset hp

/-- An active token is counted. -/
theorem count_pos (T : Tokens ι) {p : ι} (hp : p ∈ T.active) : 0 < T.count :=
  Finset.card_pos.mpr ⟨p, hp⟩

/-- The objects change places along a permutation of the places. -/
def relocate (T : Tokens ι) (e : ι ≃ ι) : Tokens ι where
  live := T.live.map e.toEmbedding
  active := T.active.map e.toEmbedding
  active_subset := Finset.map_subset_map.mpr T.active_subset

@[simp] theorem mem_active_relocate {T : Tokens ι} {e : ι ≃ ι} {p : ι} :
    p ∈ (T.relocate e).active ↔ e.symm p ∈ T.active := Finset.mem_map_equiv

@[simp] theorem mem_live_relocate {T : Tokens ι} {e : ι ≃ ι} {p : ι} :
    p ∈ (T.relocate e).live ↔ e.symm p ∈ T.live := Finset.mem_map_equiv

@[simp] theorem count_relocate (T : Tokens ι) (e : ι ≃ ι) : (T.relocate e).count = T.count :=
  Finset.card_map _

/-- The objects at some places are destroyed. -/
def discard (T : Tokens ι) (b : ι → Bool) : Tokens ι where
  live := T.live.filter (fun p => b p = false)
  active := T.active.filter (fun p => b p = false)
  active_subset := Finset.filter_subset_filter _ T.active_subset

@[simp] theorem mem_active_discard {T : Tokens ι} {b : ι → Bool} {p : ι} :
    p ∈ (T.discard b).active ↔ p ∈ T.active ∧ b p = false := Finset.mem_filter

@[simp] theorem mem_live_discard {T : Tokens ι} {b : ι → Bool} {p : ι} :
    p ∈ (T.discard b).live ↔ p ∈ T.live ∧ b p = false := Finset.mem_filter

/-- The active objects at some places. -/
def countAt (T : Tokens ι) (b : ι → Bool) : Nat := (T.active.filter (fun p => b p = true)).card

/-- What a filter drops and what it leaves add up to the count. -/
theorem count_discard (T : Tokens ι) (b : ι → Bool) :
    T.countAt b + (T.discard b).count = T.count := by
  have hsplit := T.active.card_filter_add_card_filter_not (fun p => b p = true)
  simp only [Bool.not_eq_true] at hsplit
  exact hsplit

@[simp] theorem countAt_false (T : Tokens ι) : T.countAt (fun _ => false) = 0 := by
  simp [countAt]

/-- The active objects at places of two separate kinds. -/
theorem countAt_or (T : Tokens ι) {b c d : ι → Bool} (h : ∀ p, d p = (b p || c p))
    (hdisj : ∀ p, b p = true → c p = false) : T.countAt d = T.countAt b + T.countAt c := by
  -- count the union by whether the first predicate holds
  have hsplit := (T.active.filter (fun p => d p = true)).card_filter_add_card_filter_not
    (fun p => b p = true)
  have hfirst : (T.active.filter (fun p => d p = true)).filter (fun p => b p = true)
      = T.active.filter (fun p => b p = true) := by
    rw [Finset.filter_filter]
    apply Finset.filter_congr
    intro p _
    rw [h p]
    cases b p <;> simp
  have hsecond : (T.active.filter (fun p => d p = true)).filter (fun p => ¬ b p = true)
      = T.active.filter (fun p => c p = true) := by
    rw [Finset.filter_filter]
    apply Finset.filter_congr
    intro p _
    have hp := hdisj p
    rw [h p]
    cases hb : b p with
    | false => simp
    | true => simp [hp hb]
  rw [hfirst, hsecond] at hsplit
  exact hsplit.symm

/-! ### One object -/

variable [DecidableEq ι]

/-- A new object takes a unit. -/
def construct (T : Tokens ι) (p : ι) : Tokens ι where
  live := insert p T.live
  active := insert p T.active
  active_subset := Finset.insert_subset_insert p T.active_subset

/-- The object gives its unit back, if it still holds it. -/
def reset (T : Tokens ι) (p : ι) : Tokens ι where
  live := T.live
  active := T.active.erase p
  active_subset := (Finset.erase_subset p T.active).trans T.active_subset

/-- A new object at `q` takes over what the object at `p` holds; that one stays, inactive. -/
def move (T : Tokens ι) (p q : ι) : Tokens ι where
  live := insert q T.live
  active := if p ∈ T.active then insert q (T.active.erase p) else T.active
  active_subset := by
    split
    · exact Finset.insert_subset_insert q ((Finset.erase_subset p T.active).trans T.active_subset)
    · exact T.active_subset.trans (Finset.subset_insert q T.live)

/-- The object is destroyed, and gives back what it holds. -/
def destroy (T : Tokens ι) (p : ι) : Tokens ι where
  live := T.live.erase p
  active := T.active.erase p
  active_subset := Finset.erase_subset_erase p T.active_subset

variable {T : Tokens ι} {p q x : ι}

@[simp] theorem mem_live_construct : x ∈ (T.construct p).live ↔ x = p ∨ x ∈ T.live :=
  Finset.mem_insert

@[simp] theorem mem_active_construct : x ∈ (T.construct p).active ↔ x = p ∨ x ∈ T.active :=
  Finset.mem_insert

@[simp] theorem mem_live_reset : x ∈ (T.reset p).live ↔ x ∈ T.live := Iff.rfl

@[simp] theorem mem_active_reset : x ∈ (T.reset p).active ↔ x ≠ p ∧ x ∈ T.active :=
  Finset.mem_erase

@[simp] theorem mem_live_move : x ∈ (T.move p q).live ↔ x = q ∨ x ∈ T.live := Finset.mem_insert

@[simp] theorem mem_active_move :
    x ∈ (T.move p q).active ↔ (x = q ∧ p ∈ T.active) ∨ (x ≠ p ∧ x ∈ T.active) := by
  unfold move
  dsimp only
  split
  · rename_i hp
    simp [hp]
  · rename_i hp
    simp only [hp, and_false, false_or]
    exact ⟨fun hx => ⟨fun heq => hp (heq ▸ hx), hx⟩, And.right⟩

@[simp] theorem mem_live_destroy : x ∈ (T.destroy p).live ↔ x ≠ p ∧ x ∈ T.live := Finset.mem_erase

@[simp] theorem mem_active_destroy : x ∈ (T.destroy p).active ↔ x ≠ p ∧ x ∈ T.active :=
  Finset.mem_erase

/-- A new token is active, and counts. -/
theorem count_construct (hp : p ∉ T.live) : (T.construct p).count = T.count + 1 :=
  Finset.card_insert_of_notMem (fun hmem => hp (T.mem_live hmem))

/-- Resetting an active token takes it out of the count. -/
theorem count_reset (hp : p ∈ T.active) : (T.reset p).count = T.count - 1 :=
  Finset.card_erase_of_mem hp

/-- Resetting an inactive token counts nothing. -/
theorem count_reset_inactive (hp : p ∉ T.active) : (T.reset p).count = T.count :=
  congrArg Finset.card (Finset.erase_eq_of_notMem hp)

/-- Destroying an object gives back what resetting it does. -/
theorem count_destroy : (T.destroy p).count = (T.reset p).count := rfl

/-- **Moving keeps the count.** -/
theorem count_move (hq : q ∉ T.live) : (T.move p q).count = T.count := by
  unfold move count
  dsimp only
  split
  · rename_i hp
    have hfresh : q ∉ T.active.erase p :=
      fun hmem => hq (T.mem_live (Finset.mem_of_mem_erase hmem))
    rw [Finset.card_insert_of_notMem hfresh]
    exact Finset.card_erase_add_one hp
  · rfl

/-- **A move followed by the destruction of the moved-from object** only changes the place. -/
theorem relocate_swap (hp : p ∈ T.live) (hq : q ∉ T.live) :
    (T.move p q).destroy p = T.relocate (Equiv.swap p q) := by
  have hpq : q ≠ p := fun heq => hq (heq ▸ hp)
  have hqa : q ∉ T.active := fun hmem => hq (T.mem_live hmem)
  ext x
  · -- the two sets of tokens agree at `p`, at `q` and everywhere else
    rw [mem_live_destroy, mem_live_move, mem_live_relocate, Equiv.symm_swap]
    by_cases hxp : x = p
    · simp [hxp, hq]
    · by_cases hxq : x = q
      · simp [hxq, hp, hpq]
      · simp [hxp, hxq, Equiv.swap_apply_of_ne_of_ne hxp hxq]
  · rw [mem_active_destroy, mem_active_move, mem_active_relocate, Equiv.symm_swap]
    by_cases hxp : x = p
    · simp [hxp, hqa]
    · by_cases hxq : x = q
      · simp [hxq, hpq, hqa]
      · simp [hxp, hxq, Equiv.swap_apply_of_ne_of_ne hxp hxq]

end Tokens

end Exios
