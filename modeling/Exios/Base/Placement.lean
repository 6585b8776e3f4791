import Mathlib.Data.List.Perm.Lattice
import Mathlib.Data.List.Nodup

namespace Exios.Placement

/-!
# Base — items that move between places

Items of a pool `pool : List α` sit in places `place : ι → List α`, each item in exactly one
place and once there.  A system that only hands items from one place to another keeps this
true, whatever else it does:

* `Placed pool place` — every item of the pool is in exactly one place, exactly once;
* `Placed.move` — two places exchange items;
* `Placed.add` — a new item enters the pool;
* `Placed.congr` — a place is reordered;
* `Placed.perm_flatMap` — the places put together are the pool.
-/

variable {ι α : Type*}

/-- Every item of the pool is in exactly one place, exactly once. -/
structure Placed (pool : List α) (place : ι → List α) : Prop where
  nodup : ∀ p, (place p).Nodup
  unique : ∀ p q x, x ∈ place p → x ∈ place q → p = q
  mem_iff : ∀ x, x ∈ pool ↔ ∃ p, x ∈ place p

namespace Placed

variable {pool : List α} {place place' : ι → List α}

/-- Nothing is anywhere. -/
theorem empty (h : ∀ p, place p = []) : Placed [] place where
  nodup := fun p => by rw [h p]; exact List.nodup_nil
  unique := fun p q x hx => by rw [h p] at hx; exact absurd hx (by simp)
  mem_iff := fun x => by simp [h]

/-- The place of an item of the pool. -/
theorem existsUnique (h : Placed pool place) {x : α} (hx : x ∈ pool) : ∃! p, x ∈ place p := by
  obtain ⟨p, hp⟩ := (h.mem_iff x).mp hx
  exact ⟨p, hp, fun q hq => h.unique q p x hq hp⟩

/-- Two different places share nothing. -/
theorem not_mem (h : Placed pool place) {p q : ι} (hpq : p ≠ q) {x : α} (hx : x ∈ place p) :
    x ∉ place q :=
  fun hq => hpq (h.unique p q x hx hq)

/-- Places that hold the same items in another order. -/
theorem congr (h : Placed pool place) (hp : ∀ p, (place' p).Perm (place p)) :
    Placed pool place' where
  nodup := fun p => (hp p).nodup_iff.mpr (h.nodup p)
  unique := fun p q x hx hy => h.unique p q x ((hp p).mem_iff.mp hx) ((hp q).mem_iff.mp hy)
  mem_iff := fun x => by
    rw [h.mem_iff]
    exact exists_congr (fun p => (hp p).mem_iff.symm)

/-- Where an item is after an exchange: in one of the two places, which held it between them, or
    where it was. -/
theorem mem_move {p q : ι} (hperm : (place' p ++ place' q).Perm (place p ++ place q))
    (hother : ∀ r, r ≠ p → r ≠ q → place' r = place r) {r : ι} {x : α} (hx : x ∈ place' r) :
    ((r = p ∨ r = q) ∧ (x ∈ place p ∨ x ∈ place q)) ∨ (r ≠ p ∧ r ≠ q ∧ x ∈ place r) := by
  have hpair : x ∈ place' p ∨ x ∈ place' q → x ∈ place p ∨ x ∈ place q := by
    rw [← List.mem_append, ← List.mem_append]
    exact hperm.mem_iff.mp
  by_cases hrp : r = p
  · subst hrp
    exact Or.inl ⟨Or.inl rfl, hpair (Or.inl hx)⟩
  · by_cases hrq : r = q
    · subst hrq
      exact Or.inl ⟨Or.inr rfl, hpair (Or.inr hx)⟩
    · rw [hother r hrp hrq] at hx
      exact Or.inr ⟨hrp, hrq, hx⟩

/-- An exchange loses nothing. -/
theorem exists_of_move {p q : ι} (hperm : (place' p ++ place' q).Perm (place p ++ place q))
    (hother : ∀ r, r ≠ p → r ≠ q → place' r = place r) {x : α} (hx : ∃ r, x ∈ place' r) :
    ∃ r, x ∈ place r := by
  obtain ⟨r, hr⟩ := hx
  rcases mem_move hperm hother hr with ⟨-, hp | hq⟩ | ⟨-, -, hr⟩
  · exact ⟨p, hp⟩
  · exact ⟨q, hq⟩
  · exact ⟨r, hr⟩

/-- **Move.** Two places exchange items and the others keep theirs. -/
theorem move (h : Placed pool place) {p q : ι} (hpq : p ≠ q)
    (hperm : (place' p ++ place' q).Perm (place p ++ place q))
    (hother : ∀ r, r ≠ p → r ≠ q → place' r = place r) : Placed pool place' := by
  have hboth : (place p ++ place q).Nodup :=
    List.nodup_append'.mpr ⟨h.nodup p, h.nodup q, fun x hx => h.not_mem hpq hx⟩
  have hnd := List.nodup_append'.mp (hperm.nodup_iff.mpr hboth)
  -- what `p` and `q` held between them is in no third place
  have hthird : ∀ r x, r ≠ p → r ≠ q → x ∈ place r → ¬ (x ∈ place p ∨ x ∈ place q) := by
    rintro r x hrp hrq hx (hy | hy)
    · exact hrp (h.unique r p x hx hy)
    · exact hrq (h.unique r q x hx hy)
  refine ⟨?_, ?_, ?_⟩
  · intro r
    by_cases hrp : r = p
    · exact hrp ▸ hnd.1
    · by_cases hrq : r = q
      · exact hrq ▸ hnd.2.1
      · rw [hother r hrp hrq]
        exact h.nodup r
  · intro r r' x hx hx'
    rcases mem_move hperm hother hx with ⟨hr, hor⟩ | ⟨hrp, hrq, hxr⟩
    · rcases mem_move hperm hother hx' with ⟨hr', -⟩ | ⟨hrp', hrq', hxr'⟩
      · -- both are among the two, which are still disjoint
        rcases hr with rfl | rfl <;> rcases hr' with rfl | rfl
        · rfl
        · exact absurd hx' (hnd.2.2 hx)
        · exact absurd hx (hnd.2.2 hx')
        · rfl
      · exact absurd hor (hthird r' x hrp' hrq' hxr')
    · rcases mem_move hperm hother hx' with ⟨-, hor⟩ | ⟨-, -, hxr'⟩
      · exact absurd hor (hthird r x hrp hrq hxr)
      · exact h.unique r r' x hxr hxr'
  · intro x
    rw [h.mem_iff]
    constructor
    · exact exists_of_move hperm.symm (fun r hrp hrq => (hother r hrp hrq).symm)
    · exact exists_of_move hperm hother

/-- **Add.** A new item enters the pool at one place. -/
theorem add (h : Placed pool place) {p : ι} {x : α} (hx : x ∉ pool)
    (hperm : (place' p).Perm (x :: place p)) (hother : ∀ r, r ≠ p → place' r = place r) :
    Placed (pool ++ [x]) place' := by
  have hnew : ∀ r, x ∉ place r := fun r hm => hx ((h.mem_iff x).mpr ⟨r, hm⟩)
  -- where an item is afterwards, it was before, unless it is the new one
  have hmem : ∀ r y, y ∈ place' r ↔ (r = p ∧ y = x) ∨ y ∈ place r := by
    intro r y
    by_cases hr : r = p
    · rw [hr, hperm.mem_iff, List.mem_cons]
      simp
    · rw [hother r hr]
      simp [hr]
  refine ⟨?_, ?_, ?_⟩
  · intro r
    by_cases hr : r = p
    · rw [hr, hperm.nodup_iff]
      exact List.nodup_cons.mpr ⟨hnew p, h.nodup p⟩
    · rw [hother r hr]
      exact h.nodup r
  · intro r r' y hy hy'
    rcases (hmem r y).mp hy with ⟨rfl, rfl⟩ | hy
    · rcases (hmem r' y).mp hy' with ⟨rfl, -⟩ | hy'
      · rfl
      · exact absurd hy' (hnew r')
    · rcases (hmem r' y).mp hy' with ⟨rfl, rfl⟩ | hy'
      · exact absurd hy (hnew r)
      · exact h.unique r r' y hy hy'
  · intro y
    rw [List.mem_append, List.mem_singleton, h.mem_iff]
    constructor
    · rintro (⟨r, hr⟩ | rfl)
      · exact ⟨r, (hmem r y).mpr (Or.inr hr)⟩
      · exact ⟨p, (hmem p y).mpr (Or.inl ⟨rfl, rfl⟩)⟩
    · rintro ⟨r, hr⟩
      rcases (hmem r y).mp hr with ⟨-, rfl⟩ | hr
      · exact Or.inr rfl
      · exact Or.inl ⟨r, hr⟩

/-- **The places put together are the pool**, when `ps` are the places that hold anything. -/
theorem perm_flatMap (h : Placed pool place) (hpool : pool.Nodup) {ps : List ι} (hps : ps.Nodup)
    (hrest : ∀ p, p ∉ ps → place p = []) : pool.Perm (ps.flatMap place) := by
  -- two places share nothing, so their concatenation repeats nothing
  have hnodup : (ps.flatMap place).Nodup := by
    rw [List.nodup_flatMap]
    refine ⟨fun p _ => h.nodup p, hps.imp ?_⟩
    intro p q hpq x hx hy
    exact h.not_mem hpq hx hy
  rw [List.perm_ext_iff_of_nodup hpool hnodup]
  intro x
  rw [h.mem_iff, List.mem_flatMap]
  constructor
  · rintro ⟨p, hp⟩
    refine ⟨p, ?_, hp⟩
    by_contra hnot
    rw [hrest p hnot] at hp
    exact absurd hp (by simp)
  · rintro ⟨p, -, hp⟩
    exact ⟨p, hp⟩

end Placed

end Exios.Placement
