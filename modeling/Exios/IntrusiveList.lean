import Exios.Base.Cursor
import Exios.Base.Loop
import Exios.Base.Ring
import Exios.Contracts

namespace Exios.IntrusiveList

open Exios.Ring

/-!
# Intrusive list — `insert`, `erase` and `splice`

The list nodes carry their own links, so the heap is a `Links A` and a list is the address
`s` of its sentinel; `begin()` is `next s` and `end()` is `s` itself.  The definitions below
follow `intrusive_list.hpp` assignment by assignment.

Over a well-formed ring the operations act on the denoted sequence, where an iterator is a
`Cursor` (`none` for `end()`).  `spliceSeq` is `splice` on that level, with the same loop;
`splice_refines` shows that the two agree for every amount of fuel.  What the loop does
depends on where the range `r` of `a ++ r ++ b ++ c` sits before the target `c`:

* `spliceSeq_moves` — with something between range and target, or at most one element to
  move, the loop ends and the range is moved in order;
* `spliceSeq_diverges` — with two or more elements directly in front of the target the loop
  re-inserts every element where it will meet it again, and never ends.
-/

variable {A : Type*} [DecidableEq A]

/-! ### The operations on the links -/

/-- `begin()`. -/
def beginIt (h : Links A) (s : A) : A := h.next s

/-- `empty()`. -/
def empty (h : Links A) (s : A) : Bool := decide (beginIt h s = s)

/-- `erase(pos)`: the returned iterator is the successor read before the rewiring. -/
def erase (h : Links A) (s pos : A) : Except Contract (Links A × A) :=
  if pos = s then .error .eraseAtEnd
  else if empty h s then .error .eraseFromEmpty
  else
    let nextItem := h.next pos
    let prv := h.prev pos
    let nxt := h.next pos
    .ok (link h prv nxt, nextItem)

/-- `insert(item, before)`; returns `before`. -/
def insert (h : Links A) (item before : A) : Links A × A :=
  let h₁ := link h (h.prev before) item
  (link h₁ item before, before)

/-- One round of the loop of `splice`: `s` is this list, `o` the list the range is taken
    from, `last` the end of the range. -/
def spliceBody (o last : A) : Links A × A × A → Except Contract ((Links A × A × A) ⊕ Links A)
  | (h, it, before) =>
    if it = last then .ok (.inr h)
    else
      match erase h o it with
      | .error e => .error e
      | .ok (h₁, it') =>
        let (h₂, before') := insert h₁ it before
        .ok (.inl (h₂, it', before'))

/-- `splice(before, other, first, last)`: the links afterwards and the returned iterator. -/
def splice (fuel : Nat) (h : Links A) (s before o first last : A) :
    Option (Except Contract (Links A × A)) :=
  if o = s ∧ before = first then some (.error .spliceBeforeFirst)
  else if o = s ∧ first = beginIt h o ∧ last = o then some (.ok (h, first))
  else (Loop.run (spliceBody o last) fuel (h, first, before)).map (·.map (·, first))

/-- More fuel does not change the result of a splice. -/
theorem splice_mono {fuel fuel' : Nat} {h : Links A} {s before o first last : A}
    {r : Except Contract (Links A × A)} (hr : splice fuel h s before o first last = some r)
    (hle : fuel ≤ fuel') : splice fuel' h s before o first last = some r := by
  rw [splice] at hr ⊢
  split
  · rename_i hbf
    rwa [if_pos hbf] at hr
  · rename_i hbf
    rw [if_neg hbf] at hr
    split
    · rename_i hw
      rwa [if_pos hw] at hr
    · rename_i hw
      rw [if_neg hw, Option.map_eq_some_iff] at hr
      obtain ⟨q, hq, rfl⟩ := hr
      -- only the loop uses the fuel
      rw [Loop.run_mono hq hle]
      rfl

/-! ### The same loop on the denoted sequence -/

/-- One round of the loop of a same-list `splice`, on the sequence. -/
def spliceSeqBody (before last : Option A) :
    List A × Option A → Except Contract ((List A × Option A) ⊕ List A)
  | (xs, it) =>
    if it = last then .ok (.inr xs)
    else
      match it with
      | none => .error .eraseAtEnd
      | some v =>
        if xs = [] then .error .eraseFromEmpty
        else .ok (.inl (Cursor.insert v before (xs.erase v), Cursor.next xs v))

/-- `splice(before, first, last)` of a list with itself, on the sequence. -/
def spliceSeq (fuel : Nat) (xs : List A) (before first last : Option A) :
    Option (Except Contract (List A × Option A)) :=
  if before = first then some (.error .spliceBeforeFirst)
  else if first = xs.head? ∧ last = none then some (.ok (xs, first))
  else (Loop.run (spliceSeqBody before last) fuel (xs, first)).map (·.map (·, first))

/-- One round at a decomposition `a ++ v :: r ++ b ++ c` with target `c`: the element `v` is
    put in front of `c` and the loop goes on at its old successor. -/
theorem spliceSeqBody_cons {a r b c : List A} {v : A} {l : Option A}
    (hnd : (a ++ (v :: r ++ (b ++ c))).Nodup) (hlast : some v ≠ l) :
    spliceSeqBody c.head? l (a ++ (v :: r ++ (b ++ c)), some v)
      = .ok (.inl (a ++ (r ++ (b ++ v :: c)), (r ++ (b ++ c)).head?)) := by
  have hnd₁ : (a ++ v :: (r ++ (b ++ c))).Nodup := hnd
  -- the round erases `v`, then inserts it before the cursor
  have herase : (a ++ v :: (r ++ (b ++ c))).erase v = (a ++ (r ++ b)) ++ c := by
    rw [Cursor.erase_append hnd₁]; simp
  have hnd₂ : ((a ++ (r ++ b)) ++ c).Nodup := by
    rw [← herase]; exact hnd₁.erase v
  have hins : Cursor.insert v c.head? ((a ++ v :: (r ++ (b ++ c))).erase v)
      = a ++ (r ++ (b ++ v :: c)) := by
    rw [herase, Cursor.insert_append hnd₂]; simp
  have hnext : Cursor.next (a ++ v :: (r ++ (b ++ c))) v = (r ++ (b ++ c)).head? :=
    Cursor.next_append hnd₁
  rw [List.cons_append] at hnd ⊢
  simp only [spliceSeqBody, if_neg hlast, hins, hnext]
  rw [if_neg (by simp)]

omit [DecidableEq A] in
/-- Moving the first element of the range behind `b` permutes the sequence. -/
theorem splice_perm {a r b c : List A} {v : A} :
    (a ++ (r ++ (b ++ v :: c))).Perm (a ++ (v :: r ++ (b ++ c))) := by
  have h : (r ++ (b ++ v :: c)).Perm (v :: (r ++ (b ++ c))) := by
    rw [← List.append_assoc, ← List.append_assoc]
    exact List.perm_middle
  exact h.append_left a

omit [DecidableEq A] in
/-- The head of the range of a duplicate-free sequence is not its end iterator. -/
private theorem ne_head?_of_nodup {a r d : List A} {v : A} (hnd : (a ++ (v :: r ++ d)).Nodup) :
    some v ≠ d.head? := by
  cases d with
  | nil => simp
  | cons y d =>
    have hv : v ∉ r ++ y :: d := by
      have h' : (v :: (r ++ y :: d)).Nodup := hnd.sublist (by simp)
      exact (List.nodup_cons.mp h').1
    simp only [List.head?_cons, ne_eq, Option.some.injEq]
    rintro rfl
    exact hv (by simp)

/-- **The loop moves the range** when something lies between it and the target. -/
theorem run_spliceSeq_moves {a r b c : List A} (hnd : (a ++ (r ++ (b ++ c))).Nodup)
    (hb : b ≠ []) (fuel : Nat) (hfuel : r.length < fuel) :
    Loop.run (spliceSeqBody c.head? (b ++ c).head?) fuel
        (a ++ (r ++ (b ++ c)), (r ++ (b ++ c)).head?)
      = some (.ok (a ++ (b ++ (r ++ c)))) := by
  induction r generalizing b fuel with
  | nil =>
    obtain ⟨n, rfl⟩ : ∃ n, fuel = n + 1 := ⟨fuel - 1, by omega⟩
    refine Loop.run_exit ?_ n
    simp [spliceSeqBody]
  | cons v r ih =>
    obtain ⟨n, rfl⟩ : ∃ n, fuel = n + 1 := ⟨fuel - 1, by omega⟩
    refine (Loop.run_step (spliceSeqBody_cons hnd (ne_head?_of_nodup hnd)) n).trans ?_
    -- `v` joins `b`, whose head is still the end of the range
    have hhead : ((b ++ [v]) ++ c).head? = (b ++ c).head? := by
      cases b with
      | nil => exact absurd rfl hb
      | cons x b => simp
    have hhead' : (r ++ ((b ++ [v]) ++ c)).head? = (r ++ (b ++ c)).head? := by
      cases r with
      | nil => simpa using hhead
      | cons x r => simp
    have hnd' : (a ++ (r ++ ((b ++ [v]) ++ c))).Nodup := by
      have hp := (splice_perm (a := a) (r := r) (b := b) (c := c) (v := v)).nodup_iff.mpr hnd
      simpa using hp
    have hrest := ih hnd' (by simp) n (by simp at hfuel; omega)
    rw [hhead, hhead'] at hrest
    simpa using hrest

/-- The states in which the loop is caught: two or more elements directly in front of the
    target, with the loop standing on the first of them. -/
def Caught (a c : List A) (st : List A × Option A) : Prop :=
  ∃ r : List A, 2 ≤ r.length ∧ st = (a ++ (r ++ c), r.head?) ∧ (a ++ (r ++ c)).Nodup

/-- **The loop never ends** when two or more elements lie directly in front of the target. -/
theorem run_spliceSeq_diverges {a r c : List A} (hnd : (a ++ (r ++ c)).Nodup)
    (hr : 2 ≤ r.length) (fuel : Nat) :
    Loop.run (spliceSeqBody c.head? c.head?) fuel (a ++ (r ++ c), r.head?) = none := by
  refine Loop.run_none_of_invariant (Caught a c) ?_ ⟨r, hr, rfl, hnd⟩ fuel
  rintro _ ⟨r, hr, rfl, hnd⟩
  obtain ⟨v, w, r, rfl⟩ : ∃ v w r', r = v :: w :: r' := by
    match r, hr with
    | v :: w :: r', _ => exact ⟨v, w, r', rfl⟩
  have hbody := spliceSeqBody_cons (a := a) (r := w :: r) (b := []) (c := c) (v := v)
    (l := c.head?) hnd (ne_head?_of_nodup hnd)
  -- the rotated range starts at the old second element
  refine ⟨_, hbody, w :: r ++ [v], by simp, by simp, ?_⟩
  have hp := (splice_perm (a := a) (r := w :: r) (b := []) (c := c) (v := v)).nodup_iff.mpr hnd
  simpa using hp

/-- When `splice` moves the range `r` of `a ++ r ++ b ++ c` in front of `c`: something lies
    between, at most one element is moved, or the range is the whole list. -/
def Movable (a r b c : List A) : Prop := b ≠ [] ∨ r.length ≤ 1 ∨ (a = [] ∧ c = [])

omit [DecidableEq A] in
/-- The range starts the list only if nothing precedes it. -/
private theorem head?_range_iff {a d : List A} {v : A} (hnd : (a ++ v :: d).Nodup) :
    some v = (a ++ v :: d).head? ↔ a = [] := by
  cases a with
  | nil => simp
  | cons x a =>
    have hx : x ≠ v := by
      rintro rfl
      exact List.disjoint_of_nodup_append hnd (List.mem_cons_self) (List.mem_cons_self)
    simpa using Ne.symm hx

/-- **Same-list splice, the good case.** -/
theorem spliceSeq_moves {a r b c : List A} (hnd : (a ++ (r ++ (b ++ c))).Nodup) (hr : r ≠ [])
    (hmov : Movable a r b c) (fuel : Nat) (hfuel : r.length < fuel) :
    spliceSeq fuel (a ++ (r ++ (b ++ c))) c.head? r.head? (b ++ c).head?
      = some (.ok (a ++ (b ++ (r ++ c)), r.head?)) := by
  obtain ⟨v, r, rfl⟩ := List.exists_cons_of_ne_nil hr
  have hbefore : c.head? ≠ some v :=
    (ne_head?_of_nodup (r := r ++ b) (d := c) (by simpa using hnd)).symm
  rw [List.head?_cons, spliceSeq, if_neg hbefore]
  split
  · -- the whole-list shortcut: nothing precedes the range, and nothing follows it
    rename_i hwhole
    have ha : a = [] := (head?_range_iff hnd).mp hwhole.1
    have hbc : b ++ c = [] := List.head?_eq_none_iff.mp hwhole.2
    obtain ⟨rfl, rfl⟩ := List.append_eq_nil_iff.mp hbc
    simp [ha]
  · rename_i hnot
    by_cases hb : b = []
    · subst hb
      have hlen : r = [] := by
        rcases hmov with h | h | ⟨rfl, rfl⟩
        · exact absurd rfl h
        · simpa using h
        · exact absurd ⟨by simp, by simp⟩ hnot
      subst hlen
      -- a single element in front of the target: it is taken out and put back
      obtain ⟨n, rfl⟩ : ∃ n, fuel = n + 2 := ⟨fuel - 2, by simp at hfuel; omega⟩
      have hbody := spliceSeqBody_cons (a := a) (r := []) (b := []) (c := c) (v := v)
        (l := c.head?) hnd (ne_head?_of_nodup hnd)
      have hrun : Loop.run (spliceSeqBody c.head? ([] ++ c).head?) (n + 2)
          (a ++ ([v] ++ ([] ++ c)), some v) = some (.ok (a ++ v :: c)) := by
        refine (Loop.run_step hbody (n + 1)).trans (Loop.run_exit ?_ n)
        simp [spliceSeqBody]
      rw [hrun]
      simp [Except.map]
    · have hrun := run_spliceSeq_moves hnd hb fuel hfuel
      rw [List.cons_append, List.head?_cons] at hrun
      rw [List.cons_append, hrun]
      simp [Except.map]

/-- **Same-list splice, the bad case**: it does not return. -/
theorem spliceSeq_diverges {a r b c : List A} (hnd : (a ++ (r ++ (b ++ c))).Nodup)
    (hmov : ¬ Movable a r b c) (fuel : Nat) :
    spliceSeq fuel (a ++ (r ++ (b ++ c))) c.head? r.head? (b ++ c).head? = none := by
  simp only [Movable, not_or, not_and, ne_eq, not_not, not_le] at hmov
  obtain ⟨rfl, hlen, hac⟩ := hmov
  obtain ⟨v, r, rfl⟩ := List.exists_cons_of_length_pos (by omega : 0 < r.length)
  have hbefore : c.head? ≠ some v := (ne_head?_of_nodup (r := r) (d := c) hnd).symm
  have hwhole : ¬ (some v = (a ++ (v :: r ++ ([] ++ c))).head? ∧ ([] ++ c).head? = none) := by
    rintro ⟨hfirst, hlast⟩
    exact hac ((head?_range_iff hnd).mp hfirst) (List.head?_eq_none_iff.mp hlast)
  have hrun := run_spliceSeq_diverges (a := a) (c := c) hnd hlen fuel
  rw [List.head?_cons] at hrun ⊢
  rw [spliceSeq, if_neg hbefore, if_neg hwhole]
  exact congrArg (Option.map _) hrun

/-- More fuel does not change the result of a splice. -/
theorem spliceSeq_mono {fuel fuel' : Nat} {xs : List A} {before first last : Option A}
    {r : Except Contract (List A × Option A)}
    (h : spliceSeq fuel xs before first last = some r) (hle : fuel ≤ fuel') :
    spliceSeq fuel' xs before first last = some r := by
  unfold spliceSeq at h ⊢
  split
  · rename_i hbf
    rwa [if_pos hbf] at h
  · rename_i hbf
    rw [if_neg hbf] at h
    split
    · rename_i hw
      rwa [if_pos hw] at h
    · rename_i hw
      rw [if_neg hw, Option.map_eq_some_iff] at h
      obtain ⟨q, hq, rfl⟩ := h
      -- only the loop uses the fuel
      rw [Loop.run_mono hq hle]
      rfl

/-! ### The links refine the sequence -/

/-- Iterator of the links that a cursor of the sequence stands for. -/
def iter (s : A) (p : Option A) : A := p.getD s

/-- Links and sequence in the same round of the splice loop.  The decomposition
    `a ++ r ++ b ++ c` says where range and target are, so that the target is never the
    element being moved. -/
def SpliceRel (s : A) (before last : Option A) (hs : Links A × A × A)
    (ts : List A × Option A) : Prop :=
  ∃ a r b c, ts = (a ++ (r ++ (b ++ c)), (r ++ (b ++ c)).head?) ∧ IsRing hs.1 s ts.1 ∧
    before = c.head? ∧ last = (b ++ c).head? ∧ hs.2.1 = iter s ts.2 ∧ hs.2.2 = iter s before

/-- A list with an element is not empty. -/
theorem empty_of_mem {h : Links A} {s v : A} {as bs : List A} (hr : IsRing h s (as ++ v :: bs)) :
    empty h s = false := by
  have hs := hr.sentinel_not_mem
  have hhead : headOf s (as ++ v :: bs) ≠ s := by
    intro he
    apply hs
    cases as with
    | nil => rw [List.nil_append, headOf_cons] at he; simp [he]
    | cons x as => rw [List.cons_append, headOf_cons] at he; simp [he]
  simp [empty, beginIt, hr.next_sentinel, hhead]

/-- `erase` of an element takes it out of the denoted sequence and returns its successor. -/
theorem erase_refines {h : Links A} {s v : A} {as bs : List A} (hr : IsRing h s (as ++ v :: bs)) :
    ∃ h', erase h s v = .ok (h', iter s bs.head?) ∧ IsRing h' s (as ++ bs) ∧
      SameOutside (s :: (as ++ v :: bs)) h h' := by
  have hvs : v ≠ s := by
    rintro rfl
    exact hr.sentinel_not_mem (by simp)
  have hnext : h.next v = headOf s bs := hr.neighbours.2
  refine ⟨link h (h.prev v) (h.next v), ?_, hr.unlink, hr.unlink_sameOutside⟩
  simp [erase, hvs, empty_of_mem hr, hnext, headOf, iter]

/-- `insert` puts a fresh node in front of the given position of the denoted sequence. -/
theorem insert_refines {h : Links A} {s v : A} {as bs : List A} (hr : IsRing h s (as ++ bs))
    (hv : v ∉ s :: (as ++ bs)) :
    IsRing (insert h v (iter s bs.head?)).1 s (as ++ v :: bs) ∧
      SameOutside (v :: s :: (as ++ bs)) h (insert h v (iter s bs.head?)).1 := by
  have hprev : h.prev (iter s bs.head?) = lastOf s as := hr.prev_head
  simp only [insert, hprev]
  exact ⟨hr.splitLink hv, splitLink_sameOutside h s v as bs⟩

omit [DecidableEq A] in
/-- An element of the range is not the end of the range. -/
theorem ne_iter_of_isRing {h : Links A} {s v : A} {a r d : List A}
    (hr : IsRing h s (a ++ (v :: r ++ d))) : v ≠ iter s d.head? := by
  have hlast := ne_head?_of_nodup (List.nodup_cons.mp hr.1).2
  cases hd : d.head? with
  | none =>
    rintro rfl
    exact hr.sentinel_not_mem (by simp)
  | some y => rw [hd] at hlast; simpa [iter] using hlast

/-- One round of the loop of `splice` on the links: `v` is erased and inserted again. -/
theorem spliceBody_cons {h h₁ : Links A} {o v last it : A} (hlast : v ≠ last)
    (herase : erase h o v = .ok (h₁, it)) (before : A) :
    spliceBody o last (h, v, before) = .ok (.inl ((insert h₁ v before).1, it, before)) := by
  simp only [spliceBody, if_neg hlast, herase]
  rfl

/-- One round of the loop on the links simulates the round on the sequence. -/
theorem spliceBody_refines {s : A} {before last : Option A} {hs : Links A × A × A}
    {ts : List A × Option A} (h : SpliceRel s before last hs ts) :
    Loop.Match (SpliceRel s before last) (fun h' xs' => IsRing h' s xs')
      (spliceBody s (iter s last) hs) (spliceSeqBody before last ts) := by
  obtain ⟨a, r, b, c, rfl, hring, rfl, rfl, hit, hbef⟩ := h
  obtain ⟨h, it, bef⟩ := hs
  simp only at hring hit hbef
  subst hit hbef
  cases r with
  | nil => simpa [spliceBody, spliceSeqBody, Loop.Match] using hring
  | cons v r =>
    have hnd := (List.nodup_cons.mp hring.1).2
    have hlast := ne_head?_of_nodup hnd
    have hvs : v ≠ s := by
      rintro rfl
      exact (List.nodup_cons.mp hring.1).1 (by simp)
    have hring' : IsRing h s (a ++ v :: (r ++ (b ++ c))) := hring
    obtain ⟨h₁, herase, hring₁, -⟩ := erase_refines hring'
    have hvfresh : v ∉ s :: ((a ++ (r ++ b)) ++ c) := by
      have hsub := List.nodup_middle.mp hnd
      simp only [List.mem_cons, not_or]
      exact ⟨hvs, by simpa using (List.nodup_cons.mp hsub).1⟩
    have hring₁' : IsRing h₁ s ((a ++ (r ++ b)) ++ c) := by simpa using hring₁
    obtain ⟨hring₂, -⟩ := insert_refines hring₁' hvfresh
    have hbody := spliceBody_cons (ne_iter_of_isRing hring) herase (iter s c.head?)
    have hseq := spliceSeqBody_cons hnd hlast
    rw [List.cons_append] at hseq
    rw [List.cons_append, List.head?_cons, hseq]
    show Loop.Match _ _ (spliceBody s _ (h, v, iter s c.head?)) _
    rw [hbody]
    have hring₃ : IsRing (insert h₁ v (iter s c.head?)).1 s (a ++ (r ++ (b ++ v :: c))) := by
      simpa using hring₂
    -- where `v` went decides the decomposition of the next round
    by_cases hb : b = []
    · subst hb
      cases r with
      | nil => exact ⟨a ++ [v], [], [], c, by simp, by simpa using hring₃, rfl, rfl, rfl, rfl⟩
      | cons w r =>
        exact ⟨a, w :: r ++ [v], [], c, by simp, by simpa using hring₃, rfl, rfl, rfl, rfl⟩
    · obtain ⟨x, b, rfl⟩ := List.exists_cons_of_ne_nil hb
      refine ⟨a, r, x :: b ++ [v], c, ?_, by simpa using hring₃, rfl, by simp, rfl, rfl⟩
      cases r <;> simp

/-- **`splice` refines the sequence.** On a well-formed list, with the target not inside the
    range, `splice` on the links returns, fails or runs on exactly as on the denoted sequence,
    and leaves a well-formed list that denotes the resulting sequence. -/
theorem splice_refines {h : Links A} {s : A} {a r b c : List A}
    (hring : IsRing h s (a ++ (r ++ (b ++ c)))) (hr : r ≠ []) (fuel : Nat) :
    Loop.Agree (fun (p : Links A × A) (q : List A × Option A) =>
        IsRing p.1 s q.1 ∧ p.2 = iter s q.2)
      (splice fuel h s (iter s c.head?) s (iter s r.head?) (iter s (b ++ c).head?))
      (spliceSeq fuel (a ++ (r ++ (b ++ c))) c.head? r.head? (b ++ c).head?) := by
  obtain ⟨v, r, rfl⟩ := List.exists_cons_of_ne_nil hr
  have hnd := (List.nodup_cons.mp hring.1).2
  have hs := (List.nodup_cons.mp hring.1).1
  have hmem : ∀ y, y ∈ a ++ (v :: r ++ (b ++ c)) → y ≠ s := fun y hy he => hs (he ▸ hy)
  -- the three tests of `splice` mean the same on nodes and on positions
  have hbefore : c.head? ≠ some v :=
    (ne_head?_of_nodup (r := r ++ b) (d := c) (by simpa using hnd)).symm
  have hbefore' : iter s c.head? ≠ iter s (some v) := by
    cases hc : c.head? with
    | none => exact fun he => hmem v (by simp) he.symm
    | some y => rw [hc] at hbefore; simpa [iter] using hbefore
  have hfirst : iter s (some v) = beginIt h s ↔ some v = (a ++ (v :: r ++ (b ++ c))).head? := by
    rw [beginIt, hring.next_sentinel]
    cases a <;> simp [iter]
  have hlast : iter s (b ++ c).head? = s ↔ (b ++ c).head? = none := by
    cases hbc : (b ++ c).head? with
    | none => simp [iter]
    | some y =>
      have hy : y ∈ b ++ c := List.mem_of_mem_head? (by simp [hbc])
      have hys : y ≠ s := hmem y (List.mem_append_right a (List.mem_append_right _ hy))
      simpa [iter] using hys
  have hstart : SpliceRel s c.head? (b ++ c).head? (h, v, iter s c.head?)
      (a ++ (v :: r ++ (b ++ c)), some v) :=
    ⟨a, v :: r, b, c, rfl, hring, rfl, rfl, rfl, rfl⟩
  -- from there on the loops make the same rounds
  have hsim := Loop.run_sim (fun _ _ => spliceBody_refines) hstart fuel
  rw [List.head?_cons, splice, spliceSeq, if_neg (fun hc => hbefore' hc.2), if_neg hbefore]
  simp only [true_and, hfirst, hlast]
  split
  · exact ⟨hring, rfl⟩
  · exact hsim.map (fun _ _ hpq => ⟨hpq, rfl⟩)

end Exios.IntrusiveList
