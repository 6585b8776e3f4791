import Mathlib.Data.List.Chain
import Mathlib.Data.List.Nodup
import Mathlib.Logic.Function.Basic

namespace Exios.Ring

/-!
# Base — doubly linked rings

Nodes of an address type `A` carry a `next` and a `prev` link.  A *ring* is a circular
doubly linked list through a sentinel node `s`: `IsRing h s xs` says that following `next`
from `s` visits exactly `xs` and returns to `s`, that `prev` is the inverse of `next` along
the way, and that no node occurs twice.

All rewiring is done by one primitive, `link h a b` (make `b` the successor of `a`); the two
lemmas `IsRing.unlink` and `IsRing.splitLink` say what removing and inserting a node does to
the visited sequence.  `SameOutside zs h h'` says where two heaps may differ, and
`IsRing.frame` that a ring elsewhere is still there.
-/

variable {A : Type*} [DecidableEq A]

/-- The links of a heap of nodes. -/
structure Links (A : Type*) where
  /-- Successor link of each node. -/
  next : A → A
  /-- Predecessor link of each node. -/
  prev : A → A

/-- Make `b` the successor of `a` and `a` the predecessor of `b`. -/
def link (h : Links A) (a b : A) : Links A where
  next := Function.update h.next a b
  prev := Function.update h.prev b a

/-- `b` directly follows `a`, seen from both nodes. -/
def Joined (h : Links A) (a b : A) : Prop := h.next a = b ∧ h.prev b = a

/-- The ring through the sentinel `s` visits `xs`. -/
def IsRing (h : Links A) (s : A) (xs : List A) : Prop :=
  (s :: xs).Nodup ∧ ((s :: xs) ++ [s]).IsChain (Joined h)

/-- Two nodes that are linked to each other are joined. -/
theorem joined_link (h : Links A) (a b : A) : Joined (link h a b) a b := by
  simp [Joined, link]

/-- A link elsewhere keeps two nodes joined. -/
theorem Joined.link_of_ne {h : Links A} {a b p n : A} (hj : Joined h a b) (ha : a ≠ p)
    (hb : b ≠ n) : Joined (link h p n) a b := by
  simpa [Joined, link, Function.update_of_ne ha, Function.update_of_ne hb] using hj

/-- A link whose ends are not used by the chain leaves the chain intact: the source of the
    link may only be its last node, the target only its first. -/
theorem isChain_link {h : Links A} {l : List A} {p n : A} (hl : l.IsChain (Joined h))
    (hp : p ∉ l.dropLast) (hn : n ∉ l.tail) : l.IsChain (Joined (link h p n)) := by
  induction l with
  | nil => exact List.isChain_nil
  | cons a l ih =>
    cases l with
    | nil => exact List.isChain_singleton a
    | cons b l =>
      rw [List.isChain_cons_cons] at hl ⊢
      simp only [List.dropLast_cons_cons, List.mem_cons, not_or] at hp
      simp only [List.tail_cons, List.mem_cons, not_or] at hn
      refine ⟨hl.1.link_of_ne (Ne.symm hp.1) (Ne.symm hn.1), ih hl.2 hp.2 ?_⟩
      simpa using hn.2

/-! ### The neighbours at a position -/

/-- The node in front of the position between `as` and what follows. -/
def lastOf (s : A) (as : List A) : A := (s :: as).getLast (by simp)

/-- The node at the position before `bs`: its head, or the sentinel. -/
def headOf (s : A) (bs : List A) : A := bs.head?.getD s

omit [DecidableEq A] in
@[simp] theorem headOf_cons (s b : A) (bs : List A) : headOf s (b :: bs) = b := rfl

omit [DecidableEq A] in
@[simp] theorem headOf_nil (s : A) : headOf s [] = s := rfl

omit [DecidableEq A] in

/-- The first node of a list is an item of it, or the sentinel behind it. -/
theorem headOf_mem (s : A) (bs : List A) : headOf s bs ∈ bs ++ [s] := by
  cases bs <;> simp

omit [DecidableEq A] in

/-- The last node of a list is an item of it, or the sentinel before it. -/
theorem lastOf_mem (s : A) (as : List A) : lastOf s as ∈ s :: as := List.getLast_mem _

omit [DecidableEq A] in
/-- A ring cut at a position: the two halves are chains and the nodes at the cut are
    joined. -/
theorem isRing_append {h : Links A} {s : A} {as bs : List A} :
    IsRing h s (as ++ bs) ↔ (s :: (as ++ bs)).Nodup ∧ (s :: as).IsChain (Joined h) ∧
      (bs ++ [s]).IsChain (Joined h) ∧ Joined h (lastOf s as) (headOf s bs) := by
  have hcut : (s :: (as ++ bs)) ++ [s] = (s :: as) ++ (bs ++ [s]) := by simp
  have hlast : (s :: as).getLast? = some (lastOf s as) := List.getLast?_eq_getLast_of_ne_nil _
  have hhead : (bs ++ [s]).head? = some (headOf s bs) := by cases bs <;> rfl
  rw [IsRing, hcut, List.isChain_append, hlast, hhead]
  simp

omit [DecidableEq A] in

/-- At any place in a ring, the link back leads to the last of what comes before. -/
theorem IsRing.prev_head {h : Links A} {s : A} {as bs : List A} (hr : IsRing h s (as ++ bs)) :
    h.prev (headOf s bs) = lastOf s as := (isRing_append.mp hr).2.2.2.2

omit [DecidableEq A] in

/-- At any place in a ring, the link forward leads to the first of what comes after. -/
theorem IsRing.next_last {h : Links A} {s : A} {as bs : List A} (hr : IsRing h s (as ++ bs)) :
    h.next (lastOf s as) = headOf s bs := (isRing_append.mp hr).2.2.2.1

omit [DecidableEq A] in
/-- The empty ring: the sentinel is its own neighbour. -/
theorem isRing_nil {h : Links A} {s : A} : IsRing h s [] ↔ h.next s = s ∧ h.prev s = s := by
  simp [IsRing, Joined]

omit [DecidableEq A] in
/-- The sentinel is not an element. -/
theorem IsRing.sentinel_not_mem {h : Links A} {s : A} {xs : List A} (hr : IsRing h s xs) :
    s ∉ xs := (List.nodup_cons.mp hr.1).1

omit [DecidableEq A] in
/-- A range of a ring holds none of the other nodes. -/
theorem IsRing.range_not_mem {h : Links A} {s x : A} {a r b : List A}
    (hr : IsRing h s (a ++ (r ++ b))) (hx : x ∈ s :: (a ++ b)) : x ∉ r := by
  have hperm : (s :: (a ++ (r ++ b))).Perm (r ++ s :: (a ++ b)) :=
    ((List.perm_append_comm_assoc a r b).cons s).trans List.perm_middle.symm
  intro hmem
  exact List.disjoint_of_nodup_append (hperm.nodup_iff.mp hr.1) hmem hx

omit [DecidableEq A] in
/-- The node behind the sentinel. -/
theorem IsRing.next_sentinel {h : Links A} {s : A} {xs : List A} (hr : IsRing h s xs) :
    h.next s = headOf s xs := by
  have hstart : IsRing h s ([] ++ xs) := hr
  exact hstart.next_last

omit [DecidableEq A] in
/-- The node in front of the sentinel. -/
theorem IsRing.prev_sentinel {h : Links A} {s : A} {xs : List A} (hr : IsRing h s xs) :
    h.prev s = lastOf s xs := by
  have hend : IsRing h s (xs ++ []) := by simpa using hr
  exact hend.prev_head

omit [DecidableEq A] in
/-- Both neighbours of a node of a ring. -/
theorem IsRing.neighbours {h : Links A} {s x : A} {as bs : List A}
    (hr : IsRing h s (as ++ x :: bs)) : h.prev x = lastOf s as ∧ h.next x = headOf s bs := by
  have hr' : IsRing h s ((as ++ [x]) ++ bs) := by simpa using hr
  have hx : lastOf s (as ++ [x]) = x := by simp [lastOf]
  refine ⟨hr.prev_head, ?_⟩
  rw [← hr'.next_last, hx]

omit [DecidableEq A] in
/-- The last node of a chain from the sentinel occurs only at its end. -/
private theorem lastOf_not_mem_dropLast {s : A} {as : List A} (hnd : (s :: as).Nodup) :
    lastOf s as ∉ (s :: as).dropLast := by
  have hsplit : (s :: as).dropLast ++ [lastOf s as] = s :: as := List.dropLast_append_getLast _
  rw [← hsplit] at hnd
  exact fun hm => List.disjoint_of_nodup_append hnd hm (by simp)

omit [DecidableEq A] in
/-- The head of a duplicate-free chain to the sentinel occurs only at its start. -/
private theorem headOf_not_mem_tail {s : A} {bs : List A} (hnd : (s :: bs).Nodup) :
    headOf s bs ∉ (bs ++ [s]).tail := by
  cases bs with
  | nil => simp
  | cons b bs =>
    simp only [List.nodup_cons, List.mem_cons, not_or] at hnd
    simpa using ⟨hnd.2.1, Ne.symm hnd.1.1⟩

/-- The first half of a cut ring survives a link from its end to a node outside of it. -/
private theorem front_chain_link {h : Links A} {s : A} {as : List A} {n : A}
    (hc : (s :: as).IsChain (Joined h)) (hnd : (s :: as).Nodup) (hn : n ∉ as) :
    (s :: as).IsChain (Joined (link h (lastOf s as) n)) :=
  isChain_link hc (lastOf_not_mem_dropLast hnd) (by simpa using hn)

/-- The second half of a cut ring survives a link from a node outside of it to its head. -/
private theorem back_chain_link {h : Links A} {s : A} {bs : List A} {p : A}
    (hc : (bs ++ [s]).IsChain (Joined h)) (hnd : (s :: bs).Nodup) (hp : p ∉ bs) :
    (bs ++ [s]).IsChain (Joined (link h p (headOf s bs))) :=
  isChain_link hc (by simpa using hp) (headOf_not_mem_tail hnd)

omit [DecidableEq A] in
/-- The two neighbours of a cut lie on different sides of it. -/
private theorem headOf_not_mem {s : A} {as bs : List A} (hnd : (s :: (as ++ bs)).Nodup) :
    headOf s bs ∉ as := by
  intro hm
  rw [List.nodup_cons] at hnd
  cases bs with
  | nil => exact hnd.1 (by simpa using hm)
  | cons b bs => exact List.disjoint_of_nodup_append hnd.2 hm (by simp)

omit [DecidableEq A] in

/-- In a ring without repetitions, the last node of the front part is not in the back part. -/
private theorem lastOf_not_mem {s : A} {as bs : List A} (hnd : (s :: (as ++ bs)).Nodup) :
    lastOf s as ∉ bs := by
  intro hm
  have hnd' : ((s :: as) ++ bs).Nodup := by simpa using hnd
  exact List.disjoint_of_nodup_append hnd' (lastOf_mem s as) hm

/-! ### Removing and inserting a node -/

/-- **Removal.** Linking the neighbours of `x` past it takes `x` out of the ring. -/
theorem IsRing.unlink {h : Links A} {s x : A} {as bs : List A}
    (hr : IsRing h s (as ++ x :: bs)) : IsRing (link h (h.prev x) (h.next x)) s (as ++ bs) := by
  obtain ⟨hprev, hnext⟩ := hr.neighbours
  have hr' : IsRing h s ((as ++ [x]) ++ bs) := by simpa using hr
  obtain ⟨hnd, hfront, _, _⟩ := isRing_append.mp hr
  obtain ⟨_, _, hback, _⟩ := isRing_append.mp hr'
  have hnd' : (s :: (as ++ bs)).Nodup := hnd.sublist (by simp)
  rw [hprev, hnext, isRing_append]
  refine ⟨hnd', ?_, ?_, joined_link _ _ _⟩
  · exact front_chain_link hfront (hnd'.sublist (by simp)) (headOf_not_mem hnd')
  · exact back_chain_link hback (hnd'.sublist (by simp)) (lastOf_not_mem hnd')

/-- **Insertion.** Linking a fresh node between the position's two neighbours puts it there. -/
theorem IsRing.splitLink {h : Links A} {s x : A} {as bs : List A} (hr : IsRing h s (as ++ bs))
    (hx : x ∉ s :: (as ++ bs)) :
    IsRing (link (link h (lastOf s as) x) x (headOf s bs)) s (as ++ x :: bs) := by
  obtain ⟨hnd, hfront, hback, _⟩ := isRing_append.mp hr
  simp only [List.mem_cons, List.mem_append, not_or] at hx
  obtain ⟨hxs, hxas, hxbs⟩ := hx
  -- the new node is none of the old ones
  have hnd' : (s :: (as ++ x :: bs)).Nodup := by
    have hperm : (x :: s :: (as ++ bs)).Perm (s :: (as ++ x :: bs)) :=
      (List.Perm.swap s x (as ++ bs)).trans (List.perm_middle.symm.cons s)
    exact hperm.nodup (by simp [hnd, hxs, hxas, hxbs])
  have hfnd : (s :: as).Nodup := hnd.sublist (by simp)
  have hbnd : (s :: bs).Nodup := hnd.sublist (by simp)
  have hpx : lastOf s as ≠ x := fun he => by
    have hm := lastOf_mem s as
    rw [he, List.mem_cons] at hm
    exact hm.elim hxs hxas
  have hxh : x ≠ headOf s bs := fun he => by
    have hm := headOf_mem s bs
    rw [← he, List.mem_append, List.mem_singleton] at hm
    exact hm.elim hxbs hxs
  rw [isRing_append]
  refine ⟨hnd', ?_, ?_, (joined_link h _ _).link_of_ne hpx hxh⟩
  · -- what is in front, and the link to the new node
    refine isChain_link (front_chain_link hfront hfnd hxas) ?_ ?_
    · intro hm
      exact (List.mem_cons.mp (List.dropLast_subset _ hm)).elim hxs hxas
    · simpa using headOf_not_mem hnd
  · -- what is behind, and the link from the new node
    have hback' : (bs ++ [s]).IsChain (Joined (link h (lastOf s as) x)) :=
      isChain_link hback (by simpa using lastOf_not_mem hnd) (fun hm => by
        have hm' := List.mem_of_mem_tail hm
        rw [List.mem_append, List.mem_singleton] at hm'
        exact hm'.elim hxbs hxs)
    have hchain := back_chain_link hback' hbnd hxbs
    rw [List.cons_append, List.isChain_cons]
    refine ⟨?_, hchain⟩
    intro y hy
    have hy' : y = headOf s bs := by cases bs <;> simpa using hy.symm
    rw [hy']
    exact joined_link _ _ _

/-! ### What a rewiring leaves alone -/

/-- The links of `h'` differ from those of `h` at most at the nodes of `zs`. -/
def SameOutside (zs : List A) (h h' : Links A) : Prop :=
  ∀ x, x ∉ zs → h'.next x = h.next x ∧ h'.prev x = h.prev x

omit [DecidableEq A] in
theorem SameOutside.refl (zs : List A) (h : Links A) : SameOutside zs h h :=
  fun _ _ => ⟨rfl, rfl⟩

omit [DecidableEq A] in

/-- Writes that stay within the same nodes may be composed. -/
theorem SameOutside.trans {zs : List A} {h h₁ h₂ : Links A} (h01 : SameOutside zs h h₁)
    (h12 : SameOutside zs h₁ h₂) : SameOutside zs h h₂ := by
  intro x hx
  obtain ⟨hn, hp⟩ := h01 x hx
  obtain ⟨hn', hp'⟩ := h12 x hx
  exact ⟨hn'.trans hn, hp'.trans hp⟩

omit [DecidableEq A] in

/-- Writes within some nodes are writes within any set of nodes that contains them. -/
theorem SameOutside.mono {zs zs' : List A} {h h' : Links A} (hs : SameOutside zs h h')
    (hsub : ∀ x ∈ zs, x ∈ zs') : SameOutside zs' h h' :=
  fun x hx => hs x (fun hm => hx (hsub x hm))

/-- `link` writes to its two nodes only. -/
theorem sameOutside_link {zs : List A} {a b : A} (ha : a ∈ zs) (hb : b ∈ zs) (h : Links A) :
    SameOutside zs h (link h a b) := by
  intro x hx
  have hxa : x ≠ a := fun he => hx (he ▸ ha)
  have hxb : x ≠ b := fun he => hx (he ▸ hb)
  exact ⟨Function.update_of_ne hxa _ _, Function.update_of_ne hxb _ _⟩

/-- The nodes a removal writes to. -/
theorem IsRing.unlink_sameOutside {h : Links A} {s x : A} {as bs : List A}
    (hr : IsRing h s (as ++ x :: bs)) :
    SameOutside (s :: (as ++ x :: bs)) h (link h (h.prev x) (h.next x)) := by
  obtain ⟨hprev, hnext⟩ := hr.neighbours
  have hlast := lastOf_mem s as
  have hhead := headOf_mem s bs
  rw [hprev, hnext]
  refine sameOutside_link ?_ ?_ h
  · simp only [List.mem_cons, List.mem_append] at hlast ⊢
    grind
  · simp only [List.mem_cons, List.mem_append, List.not_mem_nil, or_false] at hhead ⊢
    grind

/-- The nodes an insertion writes to. -/
theorem splitLink_sameOutside (h : Links A) (s x : A) (as bs : List A) :
    SameOutside (x :: s :: (as ++ bs)) h
      (link (link h (lastOf s as) x) x (headOf s bs)) := by
  have hlast : lastOf s as ∈ x :: s :: (as ++ bs) := by
    have hm := lastOf_mem s as
    simp only [List.mem_cons, List.mem_append] at hm ⊢
    grind
  have hhead : headOf s bs ∈ x :: s :: (as ++ bs) := by
    have hm := headOf_mem s bs
    simp only [List.mem_cons, List.mem_append, List.not_mem_nil, or_false] at hm ⊢
    grind
  exact (sameOutside_link hlast List.mem_cons_self h).trans
    (sameOutside_link List.mem_cons_self hhead _)

omit [DecidableEq A] in
/-- A ring is determined by the links of its own nodes. -/
theorem IsRing.congr {h h' : Links A} {s : A} {xs : List A} (hr : IsRing h s xs)
    (hs : ∀ x ∈ s :: xs, h'.next x = h.next x ∧ h'.prev x = h.prev x) : IsRing h' s xs := by
  have hmem : ∀ x ∈ (s :: xs) ++ [s], x ∈ s :: xs := by
    intro x hx
    rcases List.mem_append.mp hx with hx | hx
    · exact hx
    · rw [List.mem_singleton.mp hx]
      exact List.mem_cons_self
  refine ⟨hr.1, hr.2.imp_of_mem_imp ?_⟩
  intro a b ha hb hj
  exact ⟨(hs a (hmem a ha)).1.trans hj.1, (hs b (hmem b hb)).2.trans hj.2⟩

omit [DecidableEq A] in
/-- **Frame.** A ring survives every rewiring of other nodes. -/
theorem IsRing.frame {h h' : Links A} {s : A} {xs zs : List A} (hr : IsRing h s xs)
    (hs : SameOutside zs h h') (hdis : ∀ x ∈ s :: xs, x ∉ zs) : IsRing h' s xs := by
  have hmem : ∀ x ∈ (s :: xs) ++ [s], x ∉ zs := by
    intro x hx
    rcases List.mem_append.mp hx with hx | hx
    · exact hdis x hx
    · rw [List.mem_singleton.mp hx]
      exact hdis s List.mem_cons_self
  refine ⟨hr.1, hr.2.imp_of_mem_imp ?_⟩
  intro a b ha hb hj
  obtain ⟨hn, _⟩ := hs a (hmem a ha)
  obtain ⟨_, hp⟩ := hs b (hmem b hb)
  exact ⟨hn.trans hj.1, hp.trans hj.2⟩

end Exios.Ring
