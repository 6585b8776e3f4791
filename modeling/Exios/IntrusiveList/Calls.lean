import Exios.IntrusiveList.Heap

namespace Exios.IntrusiveList

open Exios.Ring

/-!
# Intrusive list — one call on a heap of lists

What a caller needs to know about a call on one of many lists that share their nodes' link
fields: that it returns, what the lists denote afterwards, and that it writes to no node outside
the lists, except to the one it inserts (`KeepsUnlinked`).

* `WellFormed.erase_ok`, `WellFormed.popFront_ok` — an element leaves a list;
* `WellFormed.pushBack_ok`, `WellFormed.insert_ok` — an unlinked node enters one;
* `WellFormed.spliceAll_ok` — a whole list moves into another one;
* `WellFormed.permute`, `splice_sameOutside` — a list is rewired within itself.
-/

variable {A ι : Type*} {sentinel : ι → A} {h h₁ h' : Links A} {xs xs₁ : ι → List A}

/-- The nodes in no list are not written to, except `item`. -/
def KeepsUnlinked (sentinel : ι → A) (xs : ι → List A) (item : Option A) (h h' : Links A) : Prop :=
  ∀ x, Unlinked sentinel xs x → some x ≠ item → h'.next x = h.next x ∧ h'.prev x = h.prev x

/-- A call that writes to the nodes of one list and to its item. -/
theorem KeepsUnlinked.of_sameOutside {zs : List A} {item : Option A} (hsame : SameOutside zs h h')
    (hzs : ∀ z ∈ zs, some z = item ∨ ∃ i, z ∈ sentinel i :: xs i) :
    KeepsUnlinked sentinel xs item h h' := by
  intro x hx hne
  apply hsame x
  intro hz
  rcases hzs x hz with he | ⟨i, hi⟩
  · exact hne he
  · exact hx i hi

/-- Two calls in a row, when the second finds no node linked that the first did not. -/
theorem KeepsUnlinked.trans {item item' : Option A}
    (h₀₁ : KeepsUnlinked sentinel xs item h h₁) (h₁₂ : KeepsUnlinked sentinel xs₁ item' h₁ h')
    (hsub : ∀ x, Unlinked sentinel xs x → some x ≠ item → Unlinked sentinel xs₁ x ∧ some x ≠ item') :
    KeepsUnlinked sentinel xs item h h' := by
  intro x hx hne
  obtain ⟨hx₁, hne'⟩ := hsub x hx hne
  obtain ⟨hn, hp⟩ := h₀₁ x hx hne
  obtain ⟨hn', hp'⟩ := h₁₂ x hx₁ hne'
  exact ⟨hn'.trans hn, hp'.trans hp⟩

/-- The lists depend on the links of their own nodes only. -/
theorem WellFormed.congr (hw : WellFormed sentinel h xs)
    (hs : ∀ i, ∀ x ∈ sentinel i :: xs i, h'.next x = h.next x ∧ h'.prev x = h.prev x) :
    WellFormed sentinel h' xs :=
  ⟨fun i => (hw.ring i).congr (hs i), hw.own⟩

/-- The lists answer `empty()` by what they denote. -/
theorem WellFormed.empty_eq [DecidableEq A] (hw : WellFormed sentinel h xs) (i : ι) :
    empty h (sentinel i) = (xs i).isEmpty := by
  have hring := hw.ring i
  cases hxs : xs i with
  | nil =>
    rw [hxs] at hring
    simp [empty, beginIt, (isRing_nil.mp hring).1]
  | cons v bs =>
    rw [hxs] at hring
    exact empty_of_mem (show IsRing h (sentinel i) ([] ++ v :: bs) from hring)

/-- `begin()` is the iterator to the first element. -/
theorem WellFormed.begin_eq (hw : WellFormed sentinel h xs) (i : ι) :
    beginIt h (sentinel i) = iter (sentinel i) (xs i).head? := (hw.ring i).next_sentinel

variable [DecidableEq A] [DecidableEq ι]

/-- `erase` on a heap. -/
theorem WellFormed.erase_ok (hw : WellFormed sentinel h xs) {i : ι} {v : A} {as bs : List A}
    (hi : xs i = as ++ v :: bs) :
    ∃ h', erase h (sentinel i) v = .ok (h', iter (sentinel i) bs.head?) ∧
      WellFormed sentinel h' (Function.update xs i (as ++ bs)) ∧
      KeepsUnlinked sentinel xs none h h' := by
  have hr := hw.ring i
  rw [hi] at hr
  obtain ⟨h', hrun, hring, hsame⟩ := erase_refines hr
  rw [← hi] at hsame
  refine ⟨h', hrun, (hw.rewireErase hring hsame ?_).1, .of_sameOutside hsame ?_⟩
  · intro y hy
    rw [hi]
    simp only [List.mem_append, List.mem_cons] at hy ⊢
    grind
  · intro z hz
    exact Or.inr ⟨i, hz⟩

/-- `pop_front` on a heap. -/
theorem WellFormed.popFront_ok (hw : WellFormed sentinel h xs) {i : ι} {v : A} {bs : List A}
    (hi : xs i = v :: bs) :
    ∃ h', popFront h (sentinel i) = .ok h' ∧ WellFormed sentinel h' (Function.update xs i bs) ∧
      KeepsUnlinked sentinel xs none h h' := by
  have hr := hw.ring i
  rw [hi] at hr
  obtain ⟨h', hrun, hring, hsame⟩ := popFront_refines hr
  rw [← hi] at hsame
  refine ⟨h', hrun, (hw.rewireErase hring hsame ?_).1, .of_sameOutside hsame ?_⟩
  · intro y hy
    rw [hi]
    exact List.mem_cons_of_mem v hy
  · intro z hz
    exact Or.inr ⟨i, hz⟩

/-- `push_back` on a heap. -/
theorem WellFormed.pushBack_ok (hw : WellFormed sentinel h xs) {v : A}
    (hv : Unlinked sentinel xs v) (i : ι) :
    ∃ h', pushBack h (sentinel i) (some v) = .ok h' ∧
      WellFormed sentinel h' (Function.update xs i (xs i ++ [v])) ∧
      KeepsUnlinked sentinel xs (some v) h h' := by
  obtain ⟨h', hrun, hring, hsame⟩ := pushBack_refines (hw.ring i) (hv i)
  refine ⟨h', hrun, (hw.rewireInsert hv hring hsame (by simp [or_comm])).1, .of_sameOutside hsame ?_⟩
  intro z hz
  rcases List.mem_cons.mp hz with rfl | hz
  · exact Or.inl rfl
  · exact Or.inr ⟨i, hz⟩

/-- `insert` on a heap. -/
theorem WellFormed.insert_ok (hw : WellFormed sentinel h xs) {v : A}
    (hv : Unlinked sentinel xs v) {i : ι} {as bs : List A} (hi : xs i = as ++ bs) :
    ∃ h', insertItem h (some v) (iter (sentinel i) bs.head?)
        = .ok (h', iter (sentinel i) bs.head?) ∧
      WellFormed sentinel h' (Function.update xs i (as ++ v :: bs)) ∧
      KeepsUnlinked sentinel xs (some v) h h' := by
  have hr := hw.ring i
  have hvi := hv i
  rw [hi] at hr hvi
  obtain ⟨h', hrun, hring, hsame⟩ := insertItem_refines hr hvi
  rw [← hi] at hsame
  refine ⟨h', hrun, (hw.rewireInsert hv hring hsame ?_).1, .of_sameOutside hsame ?_⟩
  · -- the items were there or are the new one
    intro y hy
    rw [hi]
    simp only [List.mem_append, List.mem_cons] at hy ⊢
    grind
  · intro z hz
    rcases List.mem_cons.mp hz with rfl | hz
    · exact Or.inl rfl
    · exact Or.inr ⟨i, hz⟩

/-- `splice(before, other)` on a heap: all of list `j` goes in front of a position of list `i`. -/
theorem WellFormed.spliceAll_ok (hw : WellFormed sentinel h xs) {i j : ι} (hij : i ≠ j)
    {as bs : List A} (hi : xs i = as ++ bs) :
    ∃ h', (∀ fuel, (xs j).length < fuel →
        splice fuel h (sentinel i) (iter (sentinel i) bs.head?) (sentinel j)
          (beginIt h (sentinel j)) (sentinel j) = some (.ok (h', beginIt h (sentinel j)))) ∧
      WellFormed sentinel h'
        (Function.update (Function.update xs j []) i (as ++ (xs j ++ bs))) ∧
      KeepsUnlinked sentinel xs none h h' := by
  have hri := hw.ring i
  have hrj : IsRing h (sentinel j) ([] ++ (xs j ++ [])) := by simpa using hw.ring j
  have hdis : ∀ x ∈ sentinel i :: xs i, x ∉ sentinel j :: ([] ++ (xs j ++ [])) := by
    intro x hxi hxj
    exact hij (hw.own i j x hxi (by simpa using hxj))
  rw [hi] at hri hdis
  -- the whole of the other list is spliced, from its first item to its end
  obtain ⟨h', hrun, hringi, hringj, hsame⟩ := spliceOther_refines hri hrj hdis
  rw [List.append_nil, List.nil_append, ← hi] at hsame
  have hj : xs j = [] ++ (xs j ++ []) := by simp
  refine ⟨h', fun fuel hfuel => ?_, (hw.rewireTwo hij hi hj hringi hringj hsame).1,
    .of_sameOutside hsame ?_⟩
  · have hbegin : beginIt h (sentinel j) = iter (sentinel j) (xs j ++ []).head? := by
      rw [hw.begin_eq, List.append_nil]
    rw [hbegin]
    exact hrun fuel hfuel
  · intro z hz
    rcases List.mem_append.mp hz with hz | hz
    · exact Or.inr ⟨i, hz⟩
    · exact Or.inr ⟨j, hz⟩

omit [DecidableEq A] in
/-- Rewiring one list within its own nodes. -/
theorem WellFormed.permute (hw : WellFormed sentinel h xs) {i : ι} {ys : List A}
    (hring : IsRing h' (sentinel i) ys) (hperm : ys.Perm (xs i))
    (hsame : SameOutside (sentinel i :: xs i) h h') :
    WellFormed sentinel h' (Function.update xs i ys) ∧ KeepsUnlinked sentinel xs none h h' :=
  ⟨(hw.rewireErase hring hsame (fun _ hy => hperm.mem_iff.mp hy)).1,
    .of_sameOutside hsame (fun _ hz => Or.inr ⟨i, hz⟩)⟩

/-! ### Same-list splices -/

omit [DecidableEq ι] in
/-- A round of a same-list splice writes to the nodes of the list, and permutes its sequence. -/
theorem spliceBody_writes {s : A} {before last : Option A} {hs hs' : Links A × A × A}
    {ts : List A × Option A} (h : SpliceRel s before last hs ts)
    (hbody : spliceBody s (iter s last) hs = .ok (.inl hs')) :
    SameOutside (s :: ts.1) hs.1 hs'.1 ∧
      ∃ ts', SpliceRel s before last hs' ts' ∧ ts'.1.Perm ts.1 := by
  have hmatch := spliceBody_refines h
  rw [hbody] at hmatch
  obtain ⟨a, r, b, c, rfl, hring, rfl, rfl, hit, hbef⟩ := h
  obtain ⟨h, it, bef⟩ := hs
  simp only at hring hit hbef
  subst hit hbef
  cases r with
  -- the loop would have ended
  | nil => exact absurd hbody (by simp [spliceBody])
  | cons v r =>
    have hring' : IsRing h s (a ++ v :: (r ++ (b ++ c))) := hring
    obtain ⟨h₁, herase, hring₁, hsame₁⟩ := erase_refines hring'
    have hvfresh : v ∉ s :: ((a ++ (r ++ b)) ++ c) := by
      have hnd := hring'.1
      rw [List.nodup_cons, List.nodup_middle, List.nodup_cons] at hnd
      simp only [List.mem_cons, not_or]
      exact ⟨fun he => hnd.1 (he ▸ by simp), by simpa using hnd.2.1⟩
    have hring₁' : IsRing h₁ s ((a ++ (r ++ b)) ++ c) := by simpa using hring₁
    obtain ⟨-, hsame₂⟩ := insert_refines hring₁' hvfresh
    have hlinks := spliceBody_cons (ne_iter_of_isRing hring) herase (iter s c.head?)
    rw [List.cons_append, List.head?_cons] at hbody
    have hhs : hs' = ((insert h₁ v (iter s c.head?)).1, iter s (r ++ (b ++ c)).head?,
        iter s c.head?) := by
      have := hlinks.symm.trans hbody
      simpa using this.symm
    -- both writes of the round are to nodes of the list
    refine ⟨?_, ?_⟩
    · rw [hhs]
      refine (hsame₁.mono ?_).trans (hsame₂.mono ?_) <;>
      · intro x hx
        simp only [List.mem_cons, List.mem_append, List.cons_append] at hx ⊢
        grind
    · have hnd := (List.nodup_cons.mp hring.1).2
      have hlast : some v ≠ (b ++ c).head? := by
        intro he
        apply ne_iter_of_isRing hring
        rw [← he]
        rfl
      have hseq := spliceSeqBody_cons hnd hlast
      rw [List.cons_append, List.head?_cons] at hmatch
      rw [List.cons_append] at hseq
      rw [hseq] at hmatch
      exact ⟨_, hmatch, splice_perm⟩

omit [DecidableEq ι] in
/-- **A same-list splice** writes to the nodes of its list only. -/
theorem splice_sameOutside {s : A} {a r b c : List A} {it : A}
    (hring : IsRing h s (a ++ (r ++ (b ++ c)))) (hr : r ≠ []) {fuel : Nat}
    (hrun : splice fuel h s (iter s c.head?) s (iter s r.head?) (iter s (b ++ c).head?)
      = some (.ok (h', it))) : SameOutside (s :: (a ++ (r ++ (b ++ c)))) h h' := by
  rw [splice] at hrun
  split at hrun
  · exact absurd hrun (by simp)
  · split at hrun
    · simp only [Option.some.injEq, Except.ok.injEq, Prod.mk.injEq] at hrun
      exact hrun.1 ▸ SameOutside.refl _ h
    · rw [Option.map_eq_some_iff] at hrun
      obtain ⟨q, hq, hmap⟩ := hrun
      cases q with
      | error e => exact absurd hmap (by simp [Except.map])
      | ok q =>
        simp only [Except.map, Except.ok.injEq, Prod.mk.injEq] at hmap
        obtain ⟨rfl, -⟩ := hmap
        -- what has been written so far, and where the loop stands
        refine Loop.run_invariant
          (fun hs => SameOutside (s :: (a ++ (r ++ (b ++ c)))) h hs.1 ∧
            ∃ ts, SpliceRel s c.head? (b ++ c).head? hs ts ∧ ts.1.Perm (a ++ (r ++ (b ++ c))))
          (fun h' => SameOutside (s :: (a ++ (r ++ (b ++ c)))) h h') ?_ ?_ ?_ hq
        · rintro hs hs' ⟨hsame, ts, hrel, hperm⟩ hbody
          obtain ⟨hsame', ts', hrel', hperm'⟩ := spliceBody_writes hrel hbody
          refine ⟨hsame.trans (hsame'.mono ?_), ts', hrel', hperm'.trans hperm⟩
          intro x hx
          exact (List.Perm.cons s hperm).mem_iff.mp hx
        · rintro ⟨h₁, it, bef⟩ h' ⟨hsame, -⟩ hbody
          simp only [spliceBody] at hbody
          split at hbody
          · simp only [Except.ok.injEq, Sum.inr.injEq] at hbody
            exact hbody ▸ hsame
          · split at hbody <;> simp at hbody
        · refine ⟨SameOutside.refl _ h, _, ⟨a, r, b, c, rfl, hring, rfl, rfl, ?_, rfl⟩, .refl _⟩
          obtain ⟨v, r, rfl⟩ := List.exists_cons_of_ne_nil hr
          rfl

end Exios.IntrusiveList
