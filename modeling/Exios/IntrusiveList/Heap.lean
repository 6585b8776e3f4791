import Exios.IntrusiveList

namespace Exios.IntrusiveList

open Exios.Ring

/-!
# Intrusive list — heaps with several lists

Any number of lists share one heap: list `i` has its sentinel at `sentinel i` and denotes the
sequence `xs i`, and no node is in two of them (`WellFormed`).  `Op` are the calls on such a
heap and `Op.run` performs them on the links, while `Op.Acts` says what they are for: which
sequences they turn the sequences into, and which iterator they return.

* `pushFront_refines`, `pushBack_refines`, `insertItem_refines`, `popFront_refines`,
  `popBack_refines`, `spliceOther_refines` — each operation on its own list or lists, with the
  nodes it may touch;
* `Acts.run` — on a well-formed heap every call does what it is for;
* `Reach.wellFormed` — every heap reached by such calls is well formed.
-/

variable {A : Type*} [DecidableEq A]

/-! ### The remaining operations on the links -/

/-- `a->next = b`. -/
def setNext (h : Links A) (a b : A) : Links A := { h with next := Function.update h.next a b }

/-- `a->prev = b`. -/
def setPrev (h : Links A) (a b : A) : Links A := { h with prev := Function.update h.prev a b }

/-- `push_front(item)`; a null pointer is `none`. -/
def pushFront (h : Links A) (s : A) : Option A → Except Contract (Links A)
  | none => .error .nullItem
  | some item =>
    let h₁ := setPrev h (h.next s) item
    let h₂ := setPrev h₁ item s
    let h₃ := setNext h₂ item (h₂.next s)
    .ok (setNext h₃ s item)

/-- `push_back(item)`. -/
def pushBack (h : Links A) (s : A) : Option A → Except Contract (Links A)
  | none => .error .nullItem
  | some item =>
    let h₁ := setNext h (h.prev s) item
    let h₂ := setNext h₁ item s
    let h₃ := setPrev h₂ item (h₂.prev s)
    .ok (setPrev h₃ s item)

/-- `pop_back()`. -/
def popBack (h : Links A) (s : A) : Except Contract (Links A) :=
  if empty h s then .error .popFromEmpty
  else
    let itemToRemove := h.prev s
    let h₁ := setPrev h s (h.prev itemToRemove)
    .ok (setNext h₁ (h₁.prev s) s)

/-- `pop_front()`. -/
def popFront (h : Links A) (s : A) : Except Contract (Links A) :=
  if empty h s then .error .popFromEmpty
  else
    let itemToRemove := h.next s
    let h₁ := setNext h s (h.next itemToRemove)
    .ok (setPrev h₁ (h₁.next s) s)

/-- `insert(item, before)` with its check of `item`. -/
def insertItem (h : Links A) : Option A → A → Except Contract (Links A × A)
  | none, _ => .error .nullItem
  | some item, before => .ok (insert h item before)

/-! ### Each operation on its list -/

variable {h : Links A} {s v : A} {as bs xs : List A}

/-- `insert(item, before)` puts the item in front of the position and returns the position. -/
theorem insertItem_refines (hr : IsRing h s (as ++ bs)) (hv : v ∉ s :: (as ++ bs)) :
    ∃ h', insertItem h (some v) (iter s bs.head?) = .ok (h', iter s bs.head?) ∧
      IsRing h' s (as ++ v :: bs) ∧ SameOutside (v :: s :: (as ++ bs)) h h' :=
  ⟨_, rfl, insert_refines hr hv⟩

/-- `push_front(item)` is the insertion in front of `begin()`; it only writes the links in
    another order. -/
theorem pushFront_refines (hr : IsRing h s xs) (hv : v ∉ s :: xs) :
    ∃ h', pushFront h s (some v) = .ok h' ∧ IsRing h' s (v :: xs) ∧
      SameOutside (v :: s :: xs) h h' := by
  have hr' : IsRing h s ([] ++ xs) := hr
  have hsv : s ≠ v := fun he => hv (by simp [he])
  have hnv : h.next s ≠ v := by
    rw [hr.next_sentinel]
    intro he
    have hm := headOf_mem s xs
    rw [he, List.mem_append, List.mem_singleton] at hm
    exact hv (by simpa [or_comm] using hm)
  have hprev : h.prev (h.next s) = s := by
    rw [hr.next_sentinel]
    exact hr'.prev_head
  -- the four assignments of `push_front` are the two links of `insert`, in another order
  have heq : pushFront h s (some v) = .ok (insert h v (iter s xs.head?)).1 := by
    have hpos : iter s xs.head? = h.next s := hr.next_sentinel.symm
    have hnext : Function.update (Function.update h.next v (h.next s)) s v
        = Function.update (Function.update h.next s v) v (h.next s) :=
      Function.update_comm hsv.symm _ _ _
    have hprev' : Function.update (Function.update h.prev (h.next s) v) v s
        = Function.update (Function.update h.prev v s) (h.next s) v :=
      Function.update_comm hnv _ _ _
    rw [hpos]
    simp only [pushFront, setNext, setPrev, insert, link, hprev, hnext, hprev']
  exact ⟨_, heq, insert_refines hr' hv⟩

/-- `push_back(item)` is the insertion in front of `end()`. -/
theorem pushBack_refines (hr : IsRing h s xs) (hv : v ∉ s :: xs) :
    ∃ h', pushBack h s (some v) = .ok h' ∧ IsRing h' s (xs ++ [v]) ∧
      SameOutside (v :: s :: xs) h h' := by
  have hr' : IsRing h s (xs ++ []) := by simpa using hr
  have hv' : v ∉ s :: (xs ++ []) := by simpa using hv
  obtain ⟨hring, hsame⟩ := insert_refines hr' hv'
  rw [List.append_nil] at hsame
  exact ⟨_, rfl, hring, hsame⟩

/-- `pop_front()` is the removal of the first element. -/
theorem popFront_refines (hr : IsRing h s (v :: bs)) :
    ∃ h', popFront h s = .ok h' ∧ IsRing h' s bs ∧ SameOutside (s :: v :: bs) h h' := by
  have hr' : IsRing h s ([] ++ v :: bs) := hr
  have hfirst : h.next s = v := hr.next_sentinel
  have hprev : h.prev v = s := hr'.neighbours.1
  refine ⟨link h (h.prev v) (h.next v), ?_, hr'.unlink, hr'.unlink_sameOutside⟩
  simp [popFront, empty_of_mem hr', setNext, setPrev, link, hfirst, hprev]

/-- `pop_back()` is the removal of the last element. -/
theorem popBack_refines (hr : IsRing h s (as ++ [v])) :
    ∃ h', popBack h s = .ok h' ∧ IsRing h' s as ∧ SameOutside (s :: (as ++ [v])) h h' := by
  have hlast : h.prev s = v := by
    rw [hr.prev_sentinel]
    simp [lastOf]
  have hnext : h.next v = s := hr.neighbours.2
  have hring : IsRing (link h (h.prev v) (h.next v)) s (as ++ []) := hr.unlink
  rw [List.append_nil] at hring
  refine ⟨link h (h.prev v) (h.next v), ?_, hring, hr.unlink_sameOutside⟩
  simp [popBack, empty_of_mem hr, setNext, setPrev, link, hlast, hnext]

/-- **The loop of `splice` between two lists** moves the range in order. -/
theorem run_spliceOther {o : A} {a r b : List A} (hs : IsRing h s (as ++ bs))
    (ho : IsRing h o (a ++ (r ++ b)))
    (hdis : ∀ x ∈ s :: (as ++ bs), x ∉ o :: (a ++ (r ++ b))) :
    ∃ h', (∀ fuel, r.length < fuel →
        Loop.run (spliceBody o (iter o b.head?)) fuel
          (h, iter o (r ++ b).head?, iter s bs.head?) = some (.ok h')) ∧
      IsRing h' s (as ++ (r ++ bs)) ∧ IsRing h' o (a ++ b) ∧
      SameOutside ((s :: (as ++ bs)) ++ (o :: (a ++ (r ++ b)))) h h' := by
  induction r generalizing h as with
  | nil =>
    refine ⟨h, ?_, hs, ho, SameOutside.refl _ h⟩
    intro fuel hfuel
    obtain ⟨n, rfl⟩ : ∃ n, fuel = n + 1 := ⟨fuel - 1, by omega⟩
    exact Loop.run_exit (by simp [spliceBody]) n
  | cons v r ih =>
    -- `v` leaves the other list; this list is not touched by it
    have ho' : IsRing h o (a ++ v :: (r ++ b)) := ho
    obtain ⟨h₁, herase, ho₁, hsame₁⟩ := erase_refines ho'
    have hs₁ : IsRing h₁ s (as ++ bs) := hs.frame hsame₁ hdis
    have hvs : v ∉ s :: (as ++ bs) := fun hm => hdis v hm (by simp)
    -- and enters this one; the other is not touched either
    obtain ⟨hs₂, hsame₂⟩ := insert_refines hs₁ hvs
    have hvo : v ∉ o :: (a ++ (r ++ b)) := by
      have hnd := ho'.1
      rw [List.nodup_cons, List.nodup_middle, List.nodup_cons] at hnd
      rw [List.mem_cons, not_or]
      exact ⟨fun he => hnd.1 (by simp [he]), hnd.2.1⟩
    have hdis₂ : ∀ x ∈ o :: (a ++ (r ++ b)), x ∉ v :: s :: (as ++ bs) := by
      intro x hx hm
      rcases List.mem_cons.mp hm with rfl | hm
      · exact hvo hx
      · apply hdis x hm
        simp only [List.mem_cons, List.mem_append] at hx ⊢
        grind
    have ho₂ := ho₁.frame hsame₂ hdis₂
    have hs₂' : IsRing (insert h₁ v (iter s bs.head?)).1 s ((as ++ [v]) ++ bs) := by
      simpa using hs₂
    have hdis' : ∀ x ∈ s :: ((as ++ [v]) ++ bs), x ∉ o :: (a ++ (r ++ b)) := by
      intro x hx hm
      apply hdis₂ x hm
      simp only [List.mem_cons, List.mem_append, List.not_mem_nil, or_false] at hx ⊢
      grind
    obtain ⟨h', hrun, hs', ho'', hsame'⟩ := ih hs₂' ho₂ hdis'
    refine ⟨h', ?_, by simpa using hs', ho'', ?_⟩
    · intro fuel hfuel
      obtain ⟨n, rfl⟩ : ∃ n, fuel = n + 1 := ⟨fuel - 1, by omega⟩
      have hbody := spliceBody_cons (ne_iter_of_isRing ho) herase (iter s bs.head?)
      rw [List.cons_append, List.head?_cons]
      refine (Loop.run_step hbody n).trans (hrun n ?_)
      rw [List.length_cons] at hfuel
      omega
    · refine (hsame₁.mono ?_).trans ((hsame₂.mono ?_).trans (hsame'.mono ?_)) <;>
        · intro x hx
          simp only [List.mem_cons, List.mem_append, List.not_mem_nil, or_false] at hx ⊢
          grind

/-- **`splice(before, other, first, last)` from another list.** -/
theorem spliceOther_refines {o : A} {a r b : List A} (hs : IsRing h s (as ++ bs))
    (ho : IsRing h o (a ++ (r ++ b)))
    (hdis : ∀ x ∈ s :: (as ++ bs), x ∉ o :: (a ++ (r ++ b))) :
    ∃ h', (∀ fuel, r.length < fuel →
        splice fuel h s (iter s bs.head?) o (iter o (r ++ b).head?) (iter o b.head?)
          = some (.ok (h', iter o (r ++ b).head?))) ∧
      IsRing h' s (as ++ (r ++ bs)) ∧ IsRing h' o (a ++ b) ∧
      SameOutside ((s :: (as ++ bs)) ++ (o :: (a ++ (r ++ b)))) h h' := by
  obtain ⟨h', hrun, hs', ho', hsame⟩ := run_spliceOther hs ho hdis
  have hne : o ≠ s := fun he => hdis s (by simp) (by simp [he])
  refine ⟨h', ?_, hs', ho', hsame⟩
  intro fuel hfuel
  rw [splice, if_neg (fun hc => hne hc.1), if_neg (fun hc => hne hc.1), hrun fuel hfuel]
  rfl

/-! ### Heaps of lists -/

variable {ι : Type*} [DecidableEq ι] {sentinel : ι → A}

/-- The lists of a heap: list `i` denotes `xs i`, and no node is in two of them. -/
structure WellFormed (sentinel : ι → A) (h : Links A) (xs : ι → List A) : Prop where
  ring : ∀ i, IsRing h (sentinel i) (xs i)
  own : ∀ i j x, x ∈ sentinel i :: xs i → x ∈ sentinel j :: xs j → i = j

/-- A node that is in no list. -/
def Unlinked (sentinel : ι → A) (xs : ι → List A) (v : A) : Prop := ∀ i, v ∉ sentinel i :: xs i

/-- The calls on the lists of a heap. -/
inductive Op (ι A : Type*)
  | pushFront (i : ι) (item : Option A)
  | pushBack (i : ι) (item : Option A)
  | insert (i : ι) (item : Option A) (before : A)
  | erase (i : ι) (pos : A)
  | popFront (i : ι)
  | popBack (i : ι)
  | splice (i : ι) (before : A) (j : ι) (first last : A)

/-- The lists named in a call. -/
def Op.named : Op ι A → List ι
  | .pushFront i _ | .pushBack i _ | .insert i _ _ | .erase i _ | .popFront i | .popBack i => [i]
  | .splice i _ j _ _ => [i, j]

/-- A call on the links: the links afterwards and the returned iterator, if any. -/
def Op.run (sentinel : ι → A) (fuel : Nat) (h : Links A) :
    Op ι A → Option (Except Contract (Links A × Option A))
  | .pushFront i item => some ((IntrusiveList.pushFront h (sentinel i) item).map (·, none))
  | .pushBack i item => some ((IntrusiveList.pushBack h (sentinel i) item).map (·, none))
  | .insert _ item before => some ((insertItem h item before).map (fun p => (p.1, some p.2)))
  | .erase i pos => some ((IntrusiveList.erase h (sentinel i) pos).map (fun p => (p.1, some p.2)))
  | .popFront i => some ((IntrusiveList.popFront h (sentinel i)).map (·, none))
  | .popBack i => some ((IntrusiveList.popBack h (sentinel i)).map (·, none))
  | .splice i before j first last =>
    (IntrusiveList.splice fuel h (sentinel i) before (sentinel j) first last).map
      (·.map (fun p => (p.1, some p.2)))

/-- **What the calls are for**: `Acts sentinel xs op xs' ret` says that `op` is a proper call on
    lists that denote `xs`, is to make them denote `xs'` and to return `ret`.  A position in
    front of `bs` is the iterator to its first element, or `end()`. -/
inductive Acts (sentinel : ι → A) (xs : ι → List A) : Op ι A → (ι → List A) → Option A → Prop
  | pushFront (i : ι) (v : A) : Unlinked sentinel xs v →
      Acts sentinel xs (.pushFront i (some v)) (Function.update xs i (v :: xs i)) none
  | pushBack (i : ι) (v : A) : Unlinked sentinel xs v →
      Acts sentinel xs (.pushBack i (some v)) (Function.update xs i (xs i ++ [v])) none
  | insert (i : ι) (v : A) (as bs : List A) : Unlinked sentinel xs v → xs i = as ++ bs →
      Acts sentinel xs (.insert i (some v) (iter (sentinel i) bs.head?))
        (Function.update xs i (as ++ v :: bs)) (some (iter (sentinel i) bs.head?))
  | erase (i : ι) (v : A) (as bs : List A) : xs i = as ++ v :: bs →
      Acts sentinel xs (.erase i v) (Function.update xs i (as ++ bs))
        (some (iter (sentinel i) bs.head?))
  | popFront (i : ι) (v : A) (bs : List A) : xs i = v :: bs →
      Acts sentinel xs (.popFront i) (Function.update xs i bs) none
  | popBack (i : ι) (v : A) (as : List A) : xs i = as ++ [v] →
      Acts sentinel xs (.popBack i) (Function.update xs i as) none
  | splice (i j : ι) (as bs a r b : List A) : i ≠ j → xs i = as ++ bs → xs j = a ++ (r ++ b) →
      Acts sentinel xs
        (.splice i (iter (sentinel i) bs.head?) j (iter (sentinel j) (r ++ b).head?)
          (iter (sentinel j) b.head?))
        (Function.update (Function.update xs j (a ++ b)) i (as ++ (r ++ bs)))
        (some (iter (sentinel j) (r ++ b).head?))

/-- The element a call removes from the lists altogether. -/
def Op.removed (xs : ι → List A) : Op ι A → Option A
  | .erase _ pos => some pos
  | .popFront i => (xs i).head?
  | .popBack i => (xs i).getLast?
  | _ => none

/-- The links of the lists that are not named are as they were. -/
def KeepsOthers (sentinel : ι → A) (h h' : Links A) (xs : ι → List A) (named : List ι) : Prop :=
  ∀ k, k ∉ named → ∀ x ∈ sentinel k :: xs k, h'.next x = h.next x ∧ h'.prev x = h.prev x

omit [DecidableEq ι] in
omit [DecidableEq A] in
/-- **Rewiring some lists of a heap.** -/
theorem WellFormed.rewire {h h' : Links A} {xs xs' : ι → List A} {named : List ι} {zs : List A}
    (hw : WellFormed sentinel h xs) (hsame : SameOutside zs h h')
    (hzs : ∀ z ∈ zs, ∀ k, z ∈ sentinel k :: xs k → k ∈ named)
    (hkeep : ∀ k, k ∉ named → xs' k = xs k)
    (hring : ∀ k ∈ named, IsRing h' (sentinel k) (xs' k))
    (hown : ∀ i j x, x ∈ sentinel i :: xs' i → x ∈ sentinel j :: xs' j → i = j) :
    WellFormed sentinel h' xs' ∧ KeepsOthers sentinel h h' xs named := by
  refine ⟨⟨fun k => ?_, hown⟩, fun k hk x hx => hsame x (fun hz => hk (hzs x hz k hx))⟩
  by_cases hk : k ∈ named
  · exact hring k hk
  · rw [hkeep k hk]
    exact (hw.ring k).frame hsame (fun x hx hz => hk (hzs x hz k hx))

omit [DecidableEq A] in
/-- Rewiring one list: its new elements are old ones or were in no list, and so are the nodes
    that are written to. -/
theorem WellFormed.rewireOne {h h' : Links A} {xs : ι → List A} {i : ι} {ys zs : List A}
    (hw : WellFormed sentinel h xs) (hring : IsRing h' (sentinel i) ys)
    (hsame : SameOutside zs h h')
    (hzs : ∀ z ∈ zs, z ∈ sentinel i :: xs i ∨ Unlinked sentinel xs z)
    (hys : ∀ y ∈ ys, y ∈ xs i ∨ Unlinked sentinel xs y) :
    WellFormed sentinel h' (Function.update xs i ys) ∧ KeepsOthers sentinel h h' xs [i] := by
  -- a node of the new lists is an old one, or was linked by this call
  have hnode : ∀ k x, x ∈ sentinel k :: Function.update xs i ys k →
      x ∈ sentinel k :: xs k ∨ (k = i ∧ Unlinked sentinel xs x) := by
    intro k x hx
    by_cases hk : k = i
    · subst hk
      rw [Function.update_self] at hx
      rcases List.mem_cons.mp hx with rfl | hx
      · exact Or.inl List.mem_cons_self
      · exact (hys x hx).imp (List.mem_cons_of_mem _) (fun hu => ⟨rfl, hu⟩)
    · rw [Function.update_of_ne hk] at hx
      exact Or.inl hx
  apply hw.rewire hsame
  · intro z hz k hk
    rcases hzs z hz with hzi | hzu
    · exact List.mem_singleton.mpr (hw.own k i z hk hzi)
    · exact absurd hk (hzu k)
  · intro k hk
    exact Function.update_of_ne (fun he => hk (List.mem_singleton.mpr he)) _ _
  · intro k hk
    rw [List.mem_singleton.mp hk, Function.update_self]
    exact hring
  · -- so no node is in two of them
    intro k l x hxk hxl
    rcases hnode k x hxk with hk | ⟨rfl, hu⟩
    · rcases hnode l x hxl with hl | ⟨rfl, hu⟩
      · exact hw.own k l x hk hl
      · exact absurd hk (hu k)
    · rcases hnode l x hxl with hl | ⟨rfl, -⟩
      · exact absurd hl (hu l)
      · rfl

omit [DecidableEq A] in
/-- A new element in one list. -/
theorem WellFormed.rewireInsert {h h' : Links A} {xs : ι → List A} {i : ι} {v : A} {ys : List A}
    (hw : WellFormed sentinel h xs) (hv : Unlinked sentinel xs v)
    (hring : IsRing h' (sentinel i) ys) (hsame : SameOutside (v :: sentinel i :: xs i) h h')
    (hys : ∀ y ∈ ys, y = v ∨ y ∈ xs i) :
    WellFormed sentinel h' (Function.update xs i ys) ∧ KeepsOthers sentinel h h' xs [i] := by
  refine hw.rewireOne hring hsame ?_ ?_
  · intro z hz
    rcases List.mem_cons.mp hz with rfl | hz
    · exact Or.inr hv
    · exact Or.inl hz
  · intro y hy
    rcases hys y hy with rfl | hy
    · exact Or.inr hv
    · exact Or.inl hy

omit [DecidableEq A] in
/-- Fewer elements in one list. -/
theorem WellFormed.rewireErase {h h' : Links A} {xs : ι → List A} {i : ι} {ys : List A}
    (hw : WellFormed sentinel h xs) (hring : IsRing h' (sentinel i) ys)
    (hsame : SameOutside (sentinel i :: xs i) h h') (hys : ∀ y ∈ ys, y ∈ xs i) :
    WellFormed sentinel h' (Function.update xs i ys) ∧ KeepsOthers sentinel h h' xs [i] :=
  hw.rewireOne hring hsame (fun _ hz => Or.inl hz) (fun y hy => Or.inl (hys y hy))

omit [DecidableEq A] in
/-- Moving the range `r` of list `j` into list `i`. -/
theorem WellFormed.rewireTwo {h h' : Links A} {xs : ι → List A} {i j : ι}
    {as bs a r b : List A} (hw : WellFormed sentinel h xs) (hij : i ≠ j) (hi : xs i = as ++ bs)
    (hj : xs j = a ++ (r ++ b)) (hringi : IsRing h' (sentinel i) (as ++ (r ++ bs)))
    (hringj : IsRing h' (sentinel j) (a ++ b))
    (hsame : SameOutside ((sentinel i :: xs i) ++ (sentinel j :: xs j)) h h') :
    WellFormed sentinel h' (Function.update (Function.update xs j (a ++ b)) i (as ++ (r ++ bs))) ∧
      KeepsOthers sentinel h h' xs [i, j] := by
  have hxi : Function.update (Function.update xs j (a ++ b)) i (as ++ (r ++ bs)) i
      = as ++ (r ++ bs) := Function.update_self ..
  have hxj : Function.update (Function.update xs j (a ++ b)) i (as ++ (r ++ bs)) j = a ++ b := by
    rw [Function.update_of_ne hij.symm, Function.update_self]
  have hxk : ∀ k, k ∉ [i, j] →
      Function.update (Function.update xs j (a ++ b)) i (as ++ (r ++ bs)) k = xs k := by
    intro k hk
    simp only [List.mem_cons, List.not_mem_nil, or_false, not_or] at hk
    rw [Function.update_of_ne hk.1, Function.update_of_ne hk.2]
  -- every node was a node of the same list, or has come from list `j` to list `i`
  have hnode : ∀ k x,
      x ∈ sentinel k :: Function.update (Function.update xs j (a ++ b)) i (as ++ (r ++ bs)) k →
      (x ∈ sentinel k :: xs k ∧ (k = j → x ∉ r)) ∨ (k = i ∧ x ∈ r) := by
    intro k x hx
    by_cases hki : k = i
    · subst hki
      rw [hxi] at hx
      rw [hi]
      simp only [List.mem_cons, List.mem_append] at hx ⊢
      have hkj : ¬ k = j := hij
      grind
    · by_cases hkj : k = j
      · subst hkj
        rw [hxj] at hx
        have hold := hw.ring k
        rw [hj] at hold
        have hxr : x ∉ r := hold.range_not_mem hx
        refine Or.inl ⟨?_, fun _ => hxr⟩
        rw [hj]
        simp only [List.mem_cons, List.mem_append] at hx ⊢
        grind
      · rw [hxk k (by simp [hki, hkj])] at hx
        exact Or.inl ⟨hx, fun he => absurd he hkj⟩
  have hrj : ∀ x ∈ r, x ∈ sentinel j :: xs j := by
    intro x hx
    rw [hj]
    simp [hx]
  apply hw.rewire hsame
  · intro z hz k hk
    rcases List.mem_append.mp hz with hz | hz
    · simp [hw.own k i z hk hz]
    · simp [hw.own k j z hk hz]
  · exact hxk
  · intro k hk
    simp only [List.mem_cons, List.not_mem_nil, or_false] at hk
    rcases hk with rfl | rfl
    · rw [hxi]
      exact hringi
    · rw [hxj]
      exact hringj
  · intro k l x hk hl
    rcases hnode k x hk with ⟨hold, hnot⟩ | ⟨hki, hxr⟩
    · rcases hnode l x hl with ⟨hold', -⟩ | ⟨-, hxr⟩
      · exact hw.own k l x hold hold'
      · exact absurd hxr (hnot (hw.own k j x hold (hrj x hxr)))
    · rcases hnode l x hl with ⟨hold, hnot⟩ | ⟨hli, -⟩
      · exact absurd hxr (hnot (hw.own l j x hold (hrj x hxr)))
      · exact hki.trans hli.symm

/-- **Every proper call does what it is for**, and leaves the other lists alone. -/
theorem Acts.run {h : Links A} {xs xs' : ι → List A} {op : Op ι A} {ret : Option A}
    (ha : Acts sentinel xs op xs' ret) (hw : WellFormed sentinel h xs) :
    ∃ h' n, (∀ fuel, n ≤ fuel → op.run sentinel fuel h = some (.ok (h', ret))) ∧
      WellFormed sentinel h' xs' ∧ KeepsOthers sentinel h h' xs op.named := by
  cases ha with
  | pushFront i v hv =>
    obtain ⟨h', hrun, hring, hsame⟩ := pushFront_refines (hw.ring i) (hv i)
    refine ⟨h', 0, fun fuel _ => ?_, hw.rewireInsert hv hring hsame (by simp)⟩
    rw [Op.run, hrun]
    rfl
  | pushBack i v hv =>
    obtain ⟨h', hrun, hring, hsame⟩ := pushBack_refines (hw.ring i) (hv i)
    refine ⟨h', 0, fun fuel _ => ?_, hw.rewireInsert hv hring hsame (by simp [or_comm])⟩
    rw [Op.run, hrun]
    rfl
  | insert i v as bs hv hxs =>
    have hr := hw.ring i
    have hvi := hv i
    rw [hxs] at hr hvi
    obtain ⟨h', hrun, hring, hsame⟩ := insertItem_refines hr hvi
    rw [← hxs] at hsame
    refine ⟨h', 0, fun fuel _ => ?_, hw.rewireInsert hv hring hsame ?_⟩
    · rw [Op.run, hrun]
      rfl
    · -- the inserted item was unlinked, the others are the list's own
      intro y hy
      rw [hxs]
      simp only [List.mem_append, List.mem_cons] at hy ⊢
      grind
  | erase i v as bs hxs =>
    have hr := hw.ring i
    rw [hxs] at hr
    obtain ⟨h', hrun, hring, hsame⟩ := erase_refines hr
    rw [← hxs] at hsame
    refine ⟨h', 0, fun fuel _ => ?_, hw.rewireErase hring hsame ?_⟩
    · rw [Op.run, hrun]
      rfl
    · intro y hy
      rw [hxs]
      simp only [List.mem_append, List.mem_cons] at hy ⊢
      grind
  | popFront i v bs hxs =>
    have hr := hw.ring i
    rw [hxs] at hr
    obtain ⟨h', hrun, hring, hsame⟩ := popFront_refines hr
    rw [← hxs] at hsame
    refine ⟨h', 0, fun fuel _ => ?_, hw.rewireErase hring hsame ?_⟩
    · rw [Op.run, hrun]
      rfl
    · intro y hy
      rw [hxs]
      exact List.mem_cons_of_mem v hy
  | popBack i v as hxs =>
    have hr := hw.ring i
    rw [hxs] at hr
    obtain ⟨h', hrun, hring, hsame⟩ := popBack_refines hr
    rw [← hxs] at hsame
    refine ⟨h', 0, fun fuel _ => ?_, hw.rewireErase hring hsame ?_⟩
    · rw [Op.run, hrun]
      rfl
    · intro y hy
      rw [hxs]
      exact List.mem_append_left _ hy
  | splice i j as bs a r b hij hi hj =>
    have hri := hw.ring i
    have hrj := hw.ring j
    -- the lists have no node in common
    have hdis : ∀ x ∈ sentinel i :: xs i, x ∉ sentinel j :: xs j :=
      fun x hxi hxj => hij (hw.own i j x hxi hxj)
    rw [hi] at hri hdis
    rw [hj] at hrj hdis
    obtain ⟨h', hrun, hringi, hringj, hsame⟩ := spliceOther_refines hri hrj hdis
    rw [← hi, ← hj] at hsame
    refine ⟨h', r.length + 1, fun fuel hfuel => ?_, hw.rewireTwo hij hi hj hringi hringj hsame⟩
    rw [Op.run, hrun fuel (by omega)]
    rfl

omit [DecidableEq A] in
private theorem mem_update {xs : ι → List A} {i k : ι} {ys : List A} {x : A} (hx : x ∈ xs k)
    (hi : k = i → x ∈ ys) : x ∈ Function.update xs i ys k := by
  by_cases hk : k = i
  · subst hk
    rw [Function.update_self]
    exact hi rfl
  · rw [Function.update_of_ne hk]
    exact hx

/-- **Iterators stay valid.** An element that is not removed is still in its list, or in the
    list it was spliced into. -/
theorem Acts.keeps {xs xs' : ι → List A} {op : Op ι A} {ret : Option A}
    (ha : Acts sentinel xs op xs' ret) {k : ι} {x : A} (hx : x ∈ xs k)
    (hrem : op.removed xs ≠ some x) : ∃ k', (k' = k ∨ k' ∈ op.named) ∧ x ∈ xs' k' := by
  cases ha with
  | pushFront i v _ =>
    refine ⟨k, Or.inl rfl, mem_update hx ?_⟩
    rintro rfl
    exact List.mem_cons_of_mem v hx
  | pushBack i v _ =>
    refine ⟨k, Or.inl rfl, mem_update hx ?_⟩
    rintro rfl
    exact List.mem_append_left _ hx
  | insert i v as bs _ hxs =>
    refine ⟨k, Or.inl rfl, mem_update hx ?_⟩
    rintro rfl
    rw [hxs] at hx
    simp only [List.mem_append, List.mem_cons] at hx ⊢
    grind
  | erase i v as bs hxs =>
    refine ⟨k, Or.inl rfl, mem_update hx ?_⟩
    rintro rfl
    have hne : x ≠ v := fun he => hrem (by rw [Op.removed, he])
    rw [hxs] at hx
    simp only [List.mem_append, List.mem_cons] at hx ⊢
    grind
  | popFront i v bs hxs =>
    refine ⟨k, Or.inl rfl, mem_update hx ?_⟩
    rintro rfl
    have hne : x ≠ v := fun he => hrem (by rw [Op.removed, hxs, he, List.head?_cons])
    rw [hxs] at hx
    exact (List.mem_cons.mp hx).resolve_left hne
  | popBack i v as hxs =>
    refine ⟨k, Or.inl rfl, mem_update hx ?_⟩
    rintro rfl
    have hne : x ≠ v := fun he => hrem (by rw [Op.removed, hxs, he, List.getLast?_concat])
    rw [hxs] at hx
    exact (List.mem_append.mp hx).resolve_right (fun hm => hne (List.mem_singleton.mp hm))
  | splice i j as bs a r b hij hi hj =>
    by_cases hxr : k = j ∧ x ∈ r
    · -- it moves along
      refine ⟨i, Or.inr (by simp [Op.named]), ?_⟩
      rw [Function.update_self]
      simp [hxr.2]
    · refine ⟨k, Or.inl rfl, mem_update (mem_update hx ?_) ?_⟩
      · rintro rfl
        rw [hj] at hx
        simp only [List.mem_append] at hx ⊢
        grind
      · rintro rfl
        rw [hi] at hx
        simp only [List.mem_append] at hx ⊢
        grind

/-! ### Runs -/

/-- Heaps reached from constructed lists by proper calls that have returned. -/
inductive Reach (sentinel : ι → A) : Links A → (ι → List A) → Prop
  | constructed {h : Links A} : Function.Injective sentinel →
      (∀ i, h.next (sentinel i) = sentinel i ∧ h.prev (sentinel i) = sentinel i) →
      Reach sentinel h (fun _ => [])
  | call {h h' : Links A} {xs xs' : ι → List A} {op : Op ι A} {ret ret' : Option A} {fuel : Nat} :
      Reach sentinel h xs → Acts sentinel xs op xs' ret →
      op.run sentinel fuel h = some (.ok (h', ret')) → Reach sentinel h' xs'

omit [DecidableEq ι] in
/-- More fuel does not change the result of a call. -/
theorem Op.run_mono {op : Op ι A} {h : Links A} {fuel fuel' : Nat}
    {r : Except Contract (Links A × Option A)} (hrun : op.run sentinel fuel h = some r)
    (hle : fuel ≤ fuel') : op.run sentinel fuel' h = some r := by
  cases op with
  | splice i before j first last =>
    rw [Op.run, Option.map_eq_some_iff] at hrun ⊢
    obtain ⟨q, hq, rfl⟩ := hrun
    exact ⟨q, splice_mono hq hle, rfl⟩
  | _ => exact hrun

/-- **Every reachable heap is well formed.** -/
theorem Reach.wellFormed {h : Links A} {xs : ι → List A} (hr : Reach sentinel h xs) :
    WellFormed sentinel h xs := by
  induction hr with
  | @constructed h hinj hself =>
    refine ⟨fun i => ?_, fun i j x hi hj => hinj ?_⟩
    · exact isRing_nil.mpr (hself i)
    · rw [← List.mem_singleton.mp hi, ← List.mem_singleton.mp hj]
  | @call h h' xs xs' op ret ret' fuel _ ha hrun ih =>
    obtain ⟨h'', n, hall, hw, _⟩ := ha.run ih
    have hmax := Op.run_mono hrun (Nat.le_max_left fuel n)
    rw [hall _ (Nat.le_max_right fuel n)] at hmax
    simp only [Option.some.injEq, Except.ok.injEq, Prod.mk.injEq] at hmax
    exact hmax.1 ▸ hw

/-- **The lists refine sequences.** In every reachable heap every list is well formed, and every
    proper call returns, with enough fuel and the right iterator; it leaves a reachable heap
    whose lists denote the sequences they should, and it changes no link of a list it does not
    name.  An iterator to an element that is not removed still stands on this element, at its
    place in the new sequence. -/
theorem lists_refine_sequences {h : Links A} {xs : ι → List A} (hr : Reach sentinel h xs) :
    WellFormed sentinel h xs ∧
      ∀ op xs' ret, Acts sentinel xs op xs' ret →
        ∃ h' n, (∀ fuel, n ≤ fuel → op.run sentinel fuel h = some (.ok (h', ret))) ∧
          Reach sentinel h' xs' ∧ WellFormed sentinel h' xs' ∧
          KeepsOthers sentinel h h' xs op.named ∧
          ∀ k x, x ∈ xs k → op.removed xs ≠ some x →
            ∃ k' as bs, (k' = k ∨ k' ∈ op.named) ∧ xs' k' = as ++ x :: bs ∧
              h'.prev x = lastOf (sentinel k') as ∧ h'.next x = headOf (sentinel k') bs := by
  refine ⟨hr.wellFormed, ?_⟩
  intro op xs' ret ha
  obtain ⟨h', n, hrun, hw', hkeep⟩ := ha.run hr.wellFormed
  refine ⟨h', n, hrun, hr.call ha (hrun n le_rfl), hw', hkeep, ?_⟩
  -- the neighbours of an item are read off the ring it is in afterwards
  intro k x hx hrem
  obtain ⟨k', hk', hx'⟩ := ha.keeps hx hrem
  obtain ⟨as, bs, hsplit⟩ := List.append_of_mem hx'
  have hring := hw'.ring k'
  rw [hsplit] at hring
  exact ⟨k', as, bs, hk', hsplit, hring.neighbours⟩

/-- A proper call on a heap that is reached leads to one. -/
theorem Acts.exists_reach {xs xs' ys : ι → List A} {op : Op ι A} {ret : Option A}
    (ha : Acts sentinel xs op xs' ret) (hys : xs' = ys) (hr : ∃ h, Reach sentinel h xs) :
    ∃ h, Reach sentinel h ys := by
  obtain ⟨h, hr⟩ := hr
  obtain ⟨h', n, hrun, -⟩ := ha.run hr.wellFormed
  subst hys
  exact ⟨h', hr.call ha (hrun n le_rfl)⟩

/-- Two lists, with their sentinels at 0 and 1. -/
def both (xs ys : List Nat) (i : Bool) : List Nat := if i then ys else xs

theorem update_both_false (xs ys zs : List Nat) :
    Function.update (both xs ys) false zs = both zs ys := by
  funext i
  cases i <;> rfl

theorem update_both_true (xs ys zs : List Nat) :
    Function.update (both xs ys) true zs = both xs zs := by
  funext i
  cases i <;> rfl

theorem unlinked_both {xs ys : List Nat} {v : Nat} (hv : v ∉ 0 :: 1 :: (xs ++ ys)) :
    Unlinked Bool.toNat (both xs ys) v := by
  simp only [List.mem_cons, List.mem_append, not_or] at hv
  intro i
  cases i <;> simp [both, hv]

/-- Calls that lead to two lists: five `push_back`s, an `insert` of 4 in front of 9 and an `erase`
    of 6. -/
theorem reach_both : ∃ h, Reach Bool.toNat h (both [5, 7] [8, 4, 9]) := by
  have hnew : ∃ h, Reach Bool.toNat h (both [] []) := by
    refine ⟨⟨id, id⟩, ?_⟩
    rw [show both [] [] = fun _ => [] from funext (fun i => by cases i <;> rfl)]
    exact .constructed (fun i j => by cases i <;> cases j <;> decide) (fun _ => ⟨rfl, rfl⟩)
  have h5 := (Acts.pushBack false 5 (unlinked_both (by decide))).exists_reach
    (update_both_false [] [] [5]) hnew
  have h6 := (Acts.pushBack false 6 (unlinked_both (by decide))).exists_reach
    (update_both_false [5] [] [5, 6]) h5
  have h7 := (Acts.pushBack false 7 (unlinked_both (by decide))).exists_reach
    (update_both_false [5, 6] [] [5, 6, 7]) h6
  have h8 := (Acts.pushBack true 8 (unlinked_both (by decide))).exists_reach
    (update_both_true [5, 6, 7] [] [8]) h7
  have h9 := (Acts.pushBack true 9 (unlinked_both (by decide))).exists_reach
    (update_both_true [5, 6, 7] [8] [8, 9]) h8
  have h4 := (Acts.insert true 4 [8] [9] (unlinked_both (by decide)) rfl).exists_reach
    (update_both_true [5, 6, 7] [8, 9] [8, 4, 9]) h9
  exact (Acts.erase false 6 [5] [7] rfl).exists_reach
    (update_both_false [5, 6, 7] [8, 4, 9] [5, 7]) h4

/-- Then the middle of one list is spliced in front of the last element of the other: the call
    returns the iterator to the element 4, which now stands between 5 and 7. -/
theorem lists_refine_sequences_spliced :
    ∃ h h' n, (∀ fuel, n ≤ fuel → Op.run Bool.toNat fuel h (.splice false 7 true 4 9)
        = some (.ok (h', some 4))) ∧
      WellFormed Bool.toNat h' (both [5, 4, 7] [8, 9]) ∧ h'.prev 4 = 5 ∧ h'.next 4 = 7 := by
  obtain ⟨h, hr⟩ := reach_both
  obtain ⟨h', n, hrun, -, hw, -⟩ := (lists_refine_sequences hr).2 _ _ _
    (.splice false true [5] [7] [8] [4] [9] (by decide) rfl rfl)
  rw [update_both_true, update_both_false] at hw
  have hring : IsRing h' 0 ([5] ++ 4 :: [7]) := hw.ring false
  exact ⟨h, h', n, hrun, hw, hring.neighbours⟩

end Exios.IntrusiveList
