import Exios.IntrusiveList

namespace Exios.IntrusiveList

open Exios.Ring

/-!
# Intrusive list — splicing within one list

`splice(before, first, last)` moves a range of a list in front of another position of the same
list.  A list that denotes `a ++ r ++ d` is spliced with the range `r`; the position is `end()`
or an element of `a` or of `d`.

* `run_spliceBefore` — the loop when the position is in front of the range: it ends, and moves
  the range in order;
* `splice_moves_iff` — `splice` does what it promises unless the position is the end of the
  range, the range has two or more elements, and it is not the whole list.
-/

variable {A : Type*} [DecidableEq A]

/-- The sequence with the range `r` put in front of the cursor. -/
def insertRange (r : List A) (before : Option A) (xs : List A) : List A :=
  Cursor.front xs before ++ (r ++ Cursor.back xs before)

/-- A range goes in before the items behind the cursor. -/
theorem insertRange_append {r as bs : List A} (hnd : (as ++ bs).Nodup) :
    insertRange r bs.head? (as ++ bs) = as ++ (r ++ bs) := by
  rw [insertRange, Cursor.front_append hnd, Cursor.back_append hnd]

/-- The promise of a same-list splice: it returns `first`, and the range `r` of `a ++ r ++ d`
    stands in front of `before`, everything else in its old order. -/
def MovesRange (h : Links A) (s : A) (a r d : List A) (before : Option A) : Prop :=
  ∃ h' n, (∀ fuel, n ≤ fuel →
      splice fuel h s (iter s before) s (iter s (r ++ d).head?) (iter s d.head?)
        = some (.ok (h', iter s (r ++ d).head?))) ∧
    IsRing h' s (insertRange r before (a ++ d))

variable {h : Links A} {s : A} {a r d : List A} {before : Option A}

/-! ### The position is in front of the range -/

/-- **The loop moves the range forward.** -/
theorem run_spliceBefore {c : List A} (hc : c ≠ []) (hr : IsRing h s (a ++ (c ++ (r ++ d)))) :
    ∃ h', (∀ fuel, r.length < fuel →
        Loop.run (spliceBody s (iter s d.head?)) fuel
          (h, iter s (r ++ d).head?, iter s c.head?) = some (.ok h')) ∧
      IsRing h' s (a ++ (r ++ (c ++ d))) := by
  induction r generalizing h a with
  | nil =>
    refine ⟨h, ?_, hr⟩
    intro fuel hfuel
    obtain ⟨n, rfl⟩ : ∃ n, fuel = n + 1 := ⟨fuel - 1, by omega⟩
    exact Loop.run_exit (by simp [spliceBody]) n
  | cons v r ih =>
    have hr₀ : IsRing h s ((a ++ c) ++ (v :: r ++ d)) := by simpa using hr
    have hrv : IsRing h s ((a ++ c) ++ v :: (r ++ d)) := hr₀
    obtain ⟨h₁, herase, hr₁, -⟩ := erase_refines hrv
    -- the position keeps its element, so the next one lands behind `v`
    have hpos : (c ++ (r ++ d)).head? = c.head? := by
      cases c with
      | nil => exact absurd rfl hc
      | cons x c => rfl
    have hr₁' : IsRing h₁ s (a ++ (c ++ (r ++ d))) := by simpa using hr₁
    have hv : v ∉ s :: (a ++ (c ++ (r ++ d))) := by
      have hnd := hrv.1
      rw [List.nodup_cons, List.nodup_middle, List.nodup_cons] at hnd
      rw [List.mem_cons, not_or]
      exact ⟨fun he => hnd.1 (by simp [he]), by simpa using hnd.2.1⟩
    obtain ⟨hr₂, -⟩ := insert_refines hr₁' hv
    rw [hpos] at hr₂
    have hr₃ : IsRing (insert h₁ v (iter s c.head?)).1 s ((a ++ [v]) ++ (c ++ (r ++ d))) := by
      simpa using hr₂
    obtain ⟨h', hrun, hr'⟩ := ih hr₃
    refine ⟨h', ?_, by simpa using hr'⟩
    intro fuel hfuel
    obtain ⟨n, rfl⟩ : ∃ n, fuel = n + 1 := ⟨fuel - 1, by omega⟩
    have hbody := spliceBody_cons (ne_iter_of_isRing hr₀) herase (iter s c.head?)
    rw [List.cons_append, List.head?_cons]
    refine (Loop.run_step hbody n).trans (hrun n ?_)
    rw [List.length_cons] at hfuel
    omega

omit [DecidableEq A] in
/-- Iterators of a well-formed list that differ as cursors differ as addresses. -/
theorem iter_inj {xs : List A} (hs : s ∉ xs) {p q : Option A} (hp : ∀ x, p = some x → x ∈ xs)
    (hq : ∀ x, q = some x → x ∈ xs) (h : iter s p = iter s q) : p = q := by
  cases p with
  | none =>
    cases q with
    | none => rfl
    | some y => exact absurd (hq y rfl) (by rw [← show s = y from h]; exact hs)
  | some x =>
    cases q with
    | none => exact absurd (hp x rfl) (by rw [show x = s from h]; exact hs)
    | some y => exact congrArg some h

omit [DecidableEq A] in
theorem mem_of_head? {xs : List A} {x : A} (h : xs.head? = some x) : x ∈ xs :=
  List.mem_of_mem_head? (by simp [h])

/-- **The loop is entered** unless the position is `first` or the range is the whole list. -/
theorem splice_same (hr : IsRing h s (a ++ (r ++ d))) (hpos : ∀ x, before = some x → x ∈ a ++ d)
    (hfirst : before ≠ (r ++ d).head?) (hwhole : a ≠ [] ∨ d ≠ []) (fuel : Nat) :
    splice fuel h s (iter s before) s (iter s (r ++ d).head?) (iter s d.head?)
      = (Loop.run (spliceBody s (iter s d.head?)) fuel
          (h, iter s (r ++ d).head?, iter s before)).map
        (·.map (·, iter s (r ++ d).head?)) := by
  have hs := hr.sentinel_not_mem
  have hin : ∀ x, (r ++ d).head? = some x → x ∈ a ++ (r ++ d) :=
    fun x hx => List.mem_append_right a (mem_of_head? hx)
  have hne : ¬ (s = s ∧ iter s before = iter s (r ++ d).head?) := by
    rintro ⟨-, heq⟩
    refine hfirst (iter_inj hs (fun x hx => ?_) hin heq)
    have hx := hpos x hx
    simp only [List.mem_append] at hx ⊢
    tauto
  have hnot : ¬ (s = s ∧ iter s (r ++ d).head? = beginIt h s ∧ iter s d.head? = s) := by
    rintro ⟨-, hbegin, hlast⟩
    have hd : d = [] := by
      refine List.head?_eq_none_iff.mp (iter_inj hs (fun x hx => ?_) (by simp) hlast)
      exact List.mem_append_right a (List.mem_append_right r (mem_of_head? hx))
    rw [beginIt, hr.next_sentinel] at hbegin
    have ha : (r ++ d).head? = (a ++ (r ++ d)).head? :=
      iter_inj hs hin (fun x hx => mem_of_head? hx) hbegin
    -- an element in front of the range would be the first
    cases a with
    | nil => exact hwhole.elim (fun hc => hc rfl) (fun hc => hc hd)
    | cons x a =>
      rw [List.cons_append, List.head?_cons] at ha
      have hx : x ∈ r ++ d := mem_of_head? ha
      have hnd := (List.nodup_cons.mp hr.1).2
      exact (List.nodup_cons.mp hnd).1 (List.mem_append_right a hx)
  rw [splice, if_neg hne, if_neg hnot]

/-- A splice towards the front keeps its promise. -/
theorem movesRange_before {c : List A} (hc : c ≠ []) (hr : IsRing h s ((a ++ c) ++ (r ++ d))) :
    MovesRange h s (a ++ c) r d c.head? := by
  have hr' : IsRing h s (a ++ (c ++ (r ++ d))) := by simpa using hr
  have hnd := (List.nodup_cons.mp hr.1).2
  obtain ⟨x, c, rfl⟩ := List.exists_cons_of_ne_nil hc
  obtain ⟨h', hrun, hring⟩ := run_spliceBefore hc hr'
  -- `first` and `before` are different nodes, so the loop runs
  have hfirst : (x :: c).head? ≠ (r ++ d).head? := by
    intro heq
    have hx : x ∈ r ++ d := mem_of_head? heq.symm
    exact List.disjoint_of_nodup_append hnd (by simp : x ∈ a ++ x :: c) hx
  refine ⟨h', r.length + 1, ?_, ?_⟩
  · intro fuel hfuel
    rw [splice_same hr (by simp) hfirst (Or.inl (by simp)), hrun fuel (by omega)]
    rfl
  · have hsub : (a ++ (x :: c ++ d)).Nodup := hnd.sublist (by simp)
    have heq := insertRange_append (r := r) hsub
    rw [List.cons_append, List.head?_cons] at heq
    rw [List.append_assoc, List.cons_append, List.head?_cons, heq]
    exact hring

/-! ### The position is behind the range -/

/-- A splice towards the back keeps its promise when it can. -/
theorem movesRange_after {b c : List A} (hr : IsRing h s (a ++ (r ++ (b ++ c))))
    (hfirst : c.head? ≠ (r ++ (b ++ c)).head?) (hmov : Movable a r b c) :
    MovesRange h s a r (b ++ c) c.head? := by
  have hnd := (List.nodup_cons.mp hr.1).2
  have hsub : ((a ++ b) ++ c).Nodup := hnd.sublist (by simp)
  have heq := insertRange_append (r := r) hsub
  rw [List.append_assoc] at heq
  by_cases hrange : r = []
  · -- nothing to move
    subst hrange
    have hwhole : a ≠ [] ∨ b ++ c ≠ [] := by
      refine Or.inr (fun hbc => hfirst ?_)
      rw [List.nil_append, hbc, (List.append_eq_nil_iff.mp hbc).2]
    refine ⟨h, 1, ?_, ?_⟩
    · intro fuel hfuel
      obtain ⟨n, rfl⟩ : ∃ n, fuel = n + 1 := ⟨fuel - 1, by omega⟩
      have hpos : ∀ x, c.head? = some x → x ∈ a ++ (b ++ c) :=
        fun x hx => List.mem_append_right a (List.mem_append_right b (mem_of_head? hx))
      have hexit : Loop.run (spliceBody s (iter s (b ++ c).head?)) (n + 1)
          (h, iter s ([] ++ (b ++ c)).head?, iter s c.head?) = some (.ok h) :=
        Loop.run_exit (by simp [spliceBody]) n
      rw [splice_same hr hpos hfirst hwhole, hexit]
      rfl
    · rw [heq]
      simpa using hr
  · have hseq := spliceSeq_moves hnd hrange hmov (r.length + 1) (by omega)
    have hagree := splice_refines hr hrange (r.length + 1)
    rw [hseq] at hagree
    have hhead : (r ++ (b ++ c)).head? = r.head? := by
      obtain ⟨v, r, rfl⟩ := List.exists_cons_of_ne_nil hrange
      rfl
    -- what the sequence does, the links do
    obtain ⟨⟨h', it⟩, hres, hring, rfl⟩ := hagree.exists_ok
    refine ⟨h', r.length + 1, ?_, ?_⟩
    · intro fuel hfuel
      rw [hhead]
      exact splice_mono hres hfuel
    · rw [heq]
      simpa using hring

/-- A splice to the back that cannot be done never returns. -/
theorem splice_diverges {b c : List A} (hr : IsRing h s (a ++ (r ++ (b ++ c))))
    (hmov : ¬ Movable a r b c) (fuel : Nat) :
    splice fuel h s (iter s c.head?) s (iter s (r ++ (b ++ c)).head?) (iter s (b ++ c).head?)
      = none := by
  have hnd := (List.nodup_cons.mp hr.1).2
  have hrange : r ≠ [] := by
    rintro rfl
    exact hmov (Or.inr (Or.inl (by simp)))
  have hhead : (r ++ (b ++ c)).head? = r.head? := by
    obtain ⟨v, r, rfl⟩ := List.exists_cons_of_ne_nil hrange
    rfl
  have hagree := splice_refines hr hrange fuel
  rw [spliceSeq_diverges hnd hmov fuel] at hagree
  rw [hhead]
  exact hagree.eq_none

/-! ### Every position -/

omit [DecidableEq A] in
/-- In a list without duplicates, the rest behind a segment starts where the segment does only if
    the segment is empty. -/
theorem head?_eq_append_iff {b c : List A} (hnd : (b ++ c).Nodup) :
    c.head? = (b ++ c).head? ↔ b = [] := by
  cases b with
  | nil => simp
  | cons x b =>
    rw [List.cons_append, List.head?_cons]
    simp only [reduceCtorEq, iff_false]
    intro hc
    exact List.disjoint_of_nodup_append hnd List.mem_cons_self (mem_of_head? hc)

omit [DecidableEq A] in
/-- A range is movable unless the position is its end, it has two or more elements, and there are
    others. -/
theorem movable_iff {a r b c : List A} (hnd : (b ++ c).Nodup) :
    Movable a r b c ↔
      ¬ (c.head? = (b ++ c).head? ∧ 2 ≤ r.length ∧ ¬ (a = [] ∧ b ++ c = [])) := by
  rw [head?_eq_append_iff hnd, Movable]
  constructor
  · rintro hm ⟨rfl, hlen, hwhole⟩
    rcases hm with h | h | h
    · exact h rfl
    · omega
    · exact hwhole (by simpa using h)
  · -- the cursor stands at the end of the range: short ranges and whole lists are moved all the
    -- same
    intro hm
    by_cases hbn : b = []
    · subst hbn
      by_cases hlen : r.length ≤ 1
      · exact Or.inr (Or.inl hlen)
      · refine Or.inr (Or.inr ?_)
        by_contra hwhole
        exact hm ⟨rfl, by omega, by simpa using hwhole⟩
    · exact Or.inl hbn

/-- **Same-list splice.** For every well-formed list, every range of it and every position that
    is not in the range and not `first`, the splice keeps its promise unless the position is
    `last`, the range has two or more elements and is not the whole list. -/
theorem splice_moves_iff (hr : IsRing h s (a ++ (r ++ d)))
    (hpos : ∀ x, before = some x → x ∈ a ++ d) (hfirst : before ≠ (r ++ d).head?) :
    MovesRange h s a r d before
      ↔ ¬ (before = d.head? ∧ 2 ≤ r.length ∧ ¬ (a = [] ∧ d = [])) := by
  have hnd := (List.nodup_cons.mp hr.1).2
  have hafter : ∀ b c, d = b ++ c → before = c.head? → (MovesRange h s a r d before
      ↔ ¬ (before = d.head? ∧ 2 ≤ r.length ∧ ¬ (a = [] ∧ d = []))) := by
    rintro b c rfl rfl
    have hsub : (b ++ c).Nodup := hnd.sublist (by simp)
    rw [← movable_iff hsub]
    constructor
    · rintro ⟨h', n, hrun, -⟩
      by_contra hnot
      have hret := hrun n le_rfl
      rw [splice_diverges hr hnot] at hret
      exact absurd hret (by simp)
    · exact movesRange_after hr hfirst
  cases hbefore : before with
  | none =>
    rw [← hbefore]
    exact hafter d [] (by simp) (by simpa using hbefore)
  | some x =>
    rcases List.mem_append.mp (hpos x hbefore) with hx | hx
    · -- in front of the range, where nothing can go wrong
      obtain ⟨a₁, a₂, rfl⟩ := List.append_of_mem hx
      apply iff_of_true (movesRange_before (c := x :: a₂) (by simp) hr)
      rintro ⟨hlast, -, -⟩
      have hxd : x ∈ d := mem_of_head? hlast.symm
      exact List.disjoint_of_nodup_append hnd hx (List.mem_append_right r hxd)
    · obtain ⟨b, c, rfl⟩ := List.append_of_mem hx
      rw [← hbefore]
      exact hafter b (x :: c) rfl hbefore

/-- A list of three elements, with its sentinel at 0. -/
def threeNodes : Links Nat := ⟨fun n => (n + 1) % 4, fun n => (n + 3) % 4⟩

theorem threeNodes_isRing : IsRing threeNodes 0 [1, 2, 3] := by
  simp [IsRing, Ring.Joined, threeNodes]

/-- The last of three elements moved to the front. -/
theorem splice_moves_iff_last : MovesRange threeNodes 0 [1, 2] [3] [] (some 1) :=
  (splice_moves_iff (d := []) threeNodes_isRing (by simp) (by simp)).mpr (by simp)

/-- Splicing the first two of three elements in front of the third never returns. -/
theorem splice_two_before_last : ¬ MovesRange threeNodes 0 [] [1, 2] [3] (some 3) := by
  have hring : IsRing threeNodes 0 ([] ++ ([1, 2] ++ ([] ++ [3]))) := threeNodes_isRing
  rintro ⟨h', n, hrun, -⟩
  have hnone := splice_diverges hring (by simp [Movable]) n
  have hret := hrun n le_rfl
  exact absurd (hnone.symm.trans hret) (by simp)

end Exios.IntrusiveList
