import Exios.Context.Linked
import Exios.Scheduler.Attempts

namespace Exios

open Exios.Ring (Links IsRing headOf lastOf headOf_cons lowerBoundIt findIf forEach)
open IntrusiveList (WellFormed KeepsUnlinked Unlinked beginIt insertItem erase iter)
open IoScheduler (TakesBack scheduleMask)

/-!
# Context — `schedule` and `cancel` on linked nodes

`Denotes loc l io kernel queue batch` says that the memory `l` represents the scheduler `io`, the
completion queue and the batches: every list visits its operations, which sit in the storage
`loc` assigns to them, and the other members agree.  It says nothing about storage in no list.

For a scheduler that satisfies the representation invariant, every function on the nodes does
what the function on the sequences does:

* `Denotes.lowerBound_eq`, `Denotes.insertPos_eq`, `Denotes.gatherInterest_eq` — the searches
  along the links find the same positions;
* `Denotes.schedule`, `Denotes.cancel` — the two functions.

Each of them also says that no other storage was written to (`Untouched`).  `LinkedPolling.lean`
continues with the loops of `poll_once`.
-/

namespace Linked

variable {K : Type} {n : Nat} {loc : AnyAsyncOperation → Nat}

/-- The address of an operation. -/
def node (loc : AnyAsyncOperation → Nat) (op : AnyAsyncOperation) : Node n := .item (loc op)

/-- The address of an I/O operation. -/
def ioNode (loc : AnyAsyncOperation → Nat) (op : AsyncIoOperation) : Node n := .item (loc (.io op))

/-- The operations in each list. -/
def lists (ops : List AsyncIoOperation) (queue : List AnyAsyncOperation)
    (batch : Fin n → List AnyAsyncOperation) : ListName n → List AnyAsyncOperation
  | .operations => ops.map .io
  | .completionQueue => queue
  | .batch t => batch t

/-- Their addresses. -/
def nodes (loc : AnyAsyncOperation → Nat) (ops : List AsyncIoOperation)
    (queue : List AnyAsyncOperation) (batch : Fin n → List AnyAsyncOperation) :
    ListName n → List (Node n) :=
  fun i => (lists ops queue batch i).map (node loc)

/-- The storage holds the operation. -/
structure Holds (c : Cell) (fields : AsyncIoOperation → OpState) (op : AnyAsyncOperation) : Prop where
  object : c.op = op
  state : ∀ x, op = .io x → c.state = fields x

/-- **The memory represents** a scheduler, a completion queue and batches. -/
structure Denotes (loc : AnyAsyncOperation → Nat) (l : Linked K n) (io : IoScheduler) (kernel : K)
    (queue : List AnyAsyncOperation) (batch : Fin n → List AnyAsyncOperation) : Prop where
  heap : WellFormed Node.sentinel l.links (nodes loc io.operations queue batch)
  cells : ∀ i, ∀ op ∈ lists io.operations queue batch i, Holds (l.cell (node loc op)) io.state op
  beginCancelled : l.beginCancelled
    = iter (.sentinel .operations) (io.beginCancelled.map (ioNode loc))
  pollQueueLength : l.pollQueueLength = io.pollQueueLength
  interest : l.interest = io.interest
  wakeFd : l.wakeFd = io.wakeFd
  wakeCounter : l.wakeCounter = io.wakeCounter
  kernel : l.kernel = kernel

/-- Two memories that differ only in storage in no list, and in the threads' locals. -/
structure SameListed (loc : AnyAsyncOperation → Nat) (ops : List AsyncIoOperation)
    (queue : List AnyAsyncOperation) (batch : Fin n → List AnyAsyncOperation) (l l' : Linked K n) :
    Prop where
  links : ∀ i, ∀ x ∈ Node.sentinel i :: nodes loc ops queue batch i,
    l'.links.next x = l.links.next x ∧ l'.links.prev x = l.links.prev x
  cell : ∀ i, ∀ op ∈ lists ops queue batch i, l'.cell (node loc op) = l.cell (node loc op)
  beginCancelled : l'.beginCancelled = l.beginCancelled
  pollQueueLength : l'.pollQueueLength = l.pollQueueLength
  interest : l'.interest = l.interest
  wakeFd : l'.wakeFd = l.wakeFd
  wakeCounter : l'.wakeCounter = l.wakeCounter
  kernel : l'.kernel = l.kernel

/-- Storage in no list was not written to, except `item`, and no thread's locals were. -/
structure Untouched (loc : AnyAsyncOperation → Nat) (ops : List AsyncIoOperation)
    (queue : List AnyAsyncOperation) (batch : Fin n → List AnyAsyncOperation)
    (item : Option (Node n)) (l l' : Linked K n) : Prop where
  links : KeepsUnlinked Node.sentinel (nodes loc ops queue batch) item l.links l'.links
  cell : ∀ x, Unlinked Node.sentinel (nodes loc ops queue batch) x → some x ≠ item →
    l'.cell x = l.cell x
  moved : l'.moved = l.moved

/-! ### The lists -/

section Lists

variable (ops ops' : List AsyncIoOperation) (queue queue' : List AnyAsyncOperation)
  (batch : Fin n → List AnyAsyncOperation) (t : Fin n) (xs : List AnyAsyncOperation)

/-- Changing the sequence of `operations_` changes that list only. -/
theorem update_operations :
    Function.update (nodes loc ops queue batch) .operations (ops'.map (ioNode loc))
      = nodes loc ops' queue batch := by
  funext i
  cases i with
  | operations =>
    rw [Function.update_self, nodes, lists, List.map_map]
    rfl
  | completionQueue | batch => rfl

/-- The same for the completion queue. -/
theorem update_completionQueue :
    Function.update (nodes loc ops queue batch) .completionQueue (queue'.map (node loc))
      = nodes loc ops queue' batch := by
  funext i
  cases i <;> rfl

/-- The same for the `tmp` of one thread. -/
theorem update_batch :
    Function.update (nodes loc ops queue batch) (.batch t) (xs.map (node loc))
      = nodes loc ops queue (Function.update batch t xs) := by
  funext i
  cases i with
  | batch u =>
    by_cases hu : u = t
    · subst hu
      rw [Function.update_self, nodes, lists, Function.update_self]
    · rw [Function.update_of_ne (by simpa using hu), nodes, nodes, lists, lists,
        Function.update_of_ne hu]
  | operations | completionQueue => rfl

@[simp] theorem nodes_operations :
    nodes loc ops queue batch .operations = ops.map (ioNode loc) := by
  rw [nodes, lists, List.map_map]
  rfl

end Lists

/-- A scheduled operation is listed in `operations_`. -/
theorem mem_operations {ops : List AsyncIoOperation} {queue : List AnyAsyncOperation}
    {batch : Fin n → List AnyAsyncOperation} {op : AsyncIoOperation} (hop : op ∈ ops) :
    AnyAsyncOperation.io op ∈ lists ops queue batch .operations := List.mem_map_of_mem hop

/-- A node of a list is its sentinel or the storage of a listed operation. -/
theorem mem_nodes {ops : List AsyncIoOperation} {queue : List AnyAsyncOperation}
    {batch : Fin n → List AnyAsyncOperation} {i : ListName n} {x : Node n}
    (hx : x ∈ Node.sentinel i :: nodes loc ops queue batch i) :
    x = .sentinel i ∨ ∃ op ∈ lists ops queue batch i, x = node loc op := by
  rw [List.mem_cons, nodes, List.mem_map] at hx
  exact hx.imp id (fun ⟨op, hop, he⟩ => ⟨op, hop, he.symm⟩)

/-- An operation is in one list, and the storage is its own. -/
theorem listed_inj {links : Links (Node n)} {ops : List AsyncIoOperation}
    {queue : List AnyAsyncOperation} {batch : Fin n → List AnyAsyncOperation}
    (hw : WellFormed Node.sentinel links (nodes loc ops queue batch)) {i j : ListName n}
    {op op' : AnyAsyncOperation} (hop : op ∈ lists ops queue batch i)
    (hop' : op' ∈ lists ops queue batch j) (he : (node loc op : Node n) = node loc op') :
    i = j ∧ op = op' := by
  have hmem : ∀ {k : ListName n} {x : AnyAsyncOperation}, x ∈ lists ops queue batch k →
      node loc x ∈ Node.sentinel k :: nodes loc ops queue batch k :=
    fun hx => List.mem_cons_of_mem _ (List.mem_map_of_mem hx)
  obtain rfl : i = j := hw.own i j (node loc op) (hmem hop) (he ▸ hmem hop')
  have hnd : (nodes loc ops queue batch i).Nodup := (List.nodup_cons.mp (hw.ring i).1).2
  exact ⟨rfl, List.inj_on_of_nodup_map hnd hop hop' he⟩

/-- Storage that no listed operation is in. -/
theorem unlinked_item {ops : List AsyncIoOperation} {queue : List AnyAsyncOperation}
    {batch : Fin n → List AnyAsyncOperation} {a : Nat}
    (h : ∀ i, ∀ op ∈ lists ops queue batch i, loc op ≠ a) :
    Unlinked Node.sentinel (nodes loc ops queue batch) (.item a) := by
  intro i hi
  rcases mem_nodes hi with he | ⟨op, hop, he⟩
  · exact absurd he (by simp)
  · exact h i op hop (by simpa [node] using he.symm)

/-- No operation enters the lists: they exchange operations, or lose some. -/
def NoneEnters (ops : List AsyncIoOperation) (queue : List AnyAsyncOperation)
    (batch : Fin n → List AnyAsyncOperation) (ops' : List AsyncIoOperation)
    (queue' : List AnyAsyncOperation) (batch' : Fin n → List AnyAsyncOperation) : Prop :=
  ∀ i, ∀ op ∈ lists ops' queue' batch' i, ∃ j, op ∈ lists ops queue batch j

/-- Nothing enters where nothing changes. -/
theorem NoneEnters.refl (ops : List AsyncIoOperation) (queue : List AnyAsyncOperation)
    (batch : Fin n → List AnyAsyncOperation) : NoneEnters ops queue batch ops queue batch :=
  fun i _ hop => ⟨i, hop⟩

/-- What does not enter in two steps does not enter in both. -/
theorem NoneEnters.trans {ops ops₁ ops' : List AsyncIoOperation}
    {queue queue₁ queue' : List AnyAsyncOperation}
    {batch batch₁ batch' : Fin n → List AnyAsyncOperation}
    (h₀₁ : NoneEnters ops queue batch ops₁ queue₁ batch₁)
    (h₁₂ : NoneEnters ops₁ queue₁ batch₁ ops' queue' batch') :
    NoneEnters ops queue batch ops' queue' batch' := by
  intro i op hop
  obtain ⟨j, hj⟩ := h₁₂ i op hop
  exact h₀₁ j op hj

/-- Storage outside the lists stays outside when no operation enters. -/
theorem NoneEnters.unlinked {ops ops' : List AsyncIoOperation}
    {queue queue' : List AnyAsyncOperation} {batch batch' : Fin n → List AnyAsyncOperation}
    {x : Node n}
    (hsub : NoneEnters ops queue batch ops' queue' batch')
    (hx : Unlinked Node.sentinel (nodes loc ops queue batch) x) :
    Unlinked Node.sentinel (nodes loc ops' queue' batch') x := by
  intro i hi
  rcases mem_nodes hi with rfl | ⟨op, hop, rfl⟩
  · exact hx i List.mem_cons_self
  · obtain ⟨j, hj⟩ := hsub i op hop
    exact hx j (List.mem_cons_of_mem _ (List.mem_map_of_mem hj))

namespace Untouched

variable {ops ops' : List AsyncIoOperation} {queue queue' : List AnyAsyncOperation}
  {batch batch' : Fin n → List AnyAsyncOperation} {item : Option (Node n)} {l l₁ l' : Linked K n}

/-- The other members are not storage. -/
theorem of_eq (hlinks : l'.links = l.links) (hcell : l'.cell = l.cell)
    (hmoved : l'.moved = l.moved) : Untouched loc ops queue batch item l l' :=
  ⟨fun _ _ _ => by rw [hlinks]; exact ⟨rfl, rfl⟩, fun _ _ _ => by rw [hcell], hmoved⟩

/-- A memory is untouched by doing nothing. -/
theorem refl (l : Linked K n) : Untouched loc ops queue batch item l l := of_eq rfl rfl rfl

/-- Two stretches in a row. -/
theorem trans (h₀₁ : Untouched loc ops queue batch item l l₁)
    (hsub : NoneEnters ops queue batch ops' queue' batch')
    (h₁₂ : Untouched loc ops' queue' batch' none l₁ l') :
    Untouched loc ops queue batch item l l' := by
  refine ⟨h₀₁.links.trans h₁₂.links (fun x hx _ => ⟨hsub.unlinked hx, by simp⟩), ?_,
    h₁₂.moved.trans h₀₁.moved⟩
  intro x hx hne
  rw [h₁₂.cell x (hsub.unlinked hx) (by simp), h₀₁.cell x hx hne]

end Untouched

/-! ### Reading the memory -/

namespace Denotes

variable {l : Linked K n} {io : IoScheduler} {kernel : K} {queue : List AnyAsyncOperation}
  {batch : Fin n → List AnyAsyncOperation}

/-- The storage of listed operations, when no operation has entered. -/
theorem cells_of (h : Denotes loc l io kernel queue batch) {ops' : List AsyncIoOperation}
    {queue' : List AnyAsyncOperation} {batch' : Fin n → List AnyAsyncOperation}
    (hsub : NoneEnters io.operations queue batch ops' queue' batch') (i : ListName n) :
    ∀ op ∈ lists ops' queue' batch' i, Holds (l.cell (node loc op)) io.state op := by
  intro op hop
  obtain ⟨j, hj⟩ := hsub i op hop
  exact h.cells j op hj

/-- The ring of `operations_`. -/
theorem ring (h : Denotes loc l io kernel queue batch) :
    IsRing l.links (.sentinel .operations) (io.operations.map (ioNode loc)) := by
  have hr := h.heap.ring .operations
  rwa [nodes_operations] at hr

/-- Listed operations have their own storage. -/
theorem node_inj (h : Denotes loc l io kernel queue batch) {i j : ListName n}
    {op op' : AnyAsyncOperation} (hop : op ∈ lists io.operations queue batch i)
    (hop' : op' ∈ lists io.operations queue batch j)
    (he : (node loc op : Node n) = node loc op') : op = op' := (listed_inj h.heap hop hop' he).2

/-- The object at the address of a scheduled operation. -/
theorem cell_io (h : Denotes loc l io kernel queue batch) {op : AsyncIoOperation}
    (hop : op ∈ io.operations) :
    (l.cell (ioNode loc op)).io = op ∧ (l.cell (ioNode loc op)).state = io.state op ∧
      (l.cell (ioNode loc op)).op = .io op := by
  have hc := h.cells .operations (.io op) (mem_operations hop)
  have hop' : (l.cell (ioNode loc op)).op = .io op := hc.object
  exact ⟨by rw [Cell.io, hop'], hc.state op rfl, hop'⟩

/-- The descriptor read through an iterator is the operation's. -/
theorem fd_eq (h : Denotes loc l io kernel queue batch) {op : AsyncIoOperation}
    (hop : op ∈ io.operations) : l.fd (ioNode loc op) = op.fd := by
  rw [fd, (h.cell_io hop).1]

/-- `begin()` leads to the first operation, or to the sentinel of an empty list. -/
theorem begin_eq (h : Denotes loc l io kernel queue batch) :
    beginIt l.links (.sentinel .operations)
      = headOf (.sentinel .operations) (io.operations.map (ioNode loc)) := h.ring.next_sentinel

/-- `begin_cancelled_` stands on the first cancelled operation. -/
theorem last_eq (h : Denotes loc l io kernel queue batch) {log : List AsyncIoOperation} {extra : Nat}
    (hinv : io.Inv log extra) : l.beginCancelled
      = headOf (.sentinel .operations) (io.cancelledSegment.map (ioNode loc)) := by
  rw [h.beginCancelled, hinv.cursor, headOf, List.head?_map]
  rfl

/-! ### Searching -/

variable {log : List AsyncIoOperation} {extra : Nat} {fd : Int} {lo eq hi : List AsyncIoOperation}

/-- The list, cut around the operations on a descriptor. -/
theorem ring_split (h : Denotes loc l io kernel queue batch)
    (hsplit : FdSplit io.activeSegment fd lo eq hi) :
    io.operations = lo ++ (eq ++ (hi ++ io.cancelledSegment)) ∧
      IsRing l.links (.sentinel .operations) (lo.map (ioNode loc) ++ (eq.map (ioNode loc) ++
        (hi.map (ioNode loc) ++ io.cancelledSegment.map (ioNode loc)))) := by
  have hops : io.operations = lo ++ (eq ++ (hi ++ io.cancelledSegment)) := by
    rw [← io.segments_append, hsplit.append]
    simp
  refine ⟨hops, ?_⟩
  have hr := h.ring
  rw [hops] at hr
  simpa only [List.map_append] using hr

/-- **The binary search on the nodes** stands on the first operation that is not below `fd`. -/
theorem lowerBound_eq (h : Denotes loc l io kernel queue batch) (hinv : io.Inv log extra)
    (hsplit : FdSplit io.activeSegment fd lo eq hi) {fuel : Nat}
    (hfuel : io.operations.length < fuel) :
    lowerBoundIt fuel l.links (fun it => decide (l.fd it < fd))
        (beginIt l.links (.sentinel .operations))
        l.beginCancelled
      = some (headOf (.sentinel .operations)
          ((eq ++ (hi ++ io.cancelledSegment)).map (ioNode loc))) := by
  obtain ⟨hops, hring⟩ := h.ring_split hsplit
  have hring' : IsRing l.links (.sentinel .operations) ([] ++ ((lo ++ (eq ++ hi)).map (ioNode loc) ++
      io.cancelledSegment.map (ioNode loc))) := by
    simpa only [List.map_append, List.append_assoc, List.nil_append] using hring
  have hlen : ((lo ++ (eq ++ hi)).map (ioNode (n := n) loc)).length < fuel := by
    rw [hops] at hfuel
    simp only [List.length_map, List.length_append] at hfuel ⊢
    omega
  have hmem : ∀ x ∈ lo ++ (eq ++ hi), x ∈ io.operations := by
    intro x hx
    rw [hops]
    simp only [List.mem_append] at hx ⊢
    grind
  -- the search over the addresses is the one over the operations
  have hsearch : Search.lowerBound (fun it => decide (l.fd it < fd))
      ((lo ++ (eq ++ hi)).map (ioNode loc)) = lo.length := by
    rw [List.map_append]
    refine (Search.lowerBound_append _ _ _ ?_ ?_).trans (List.length_map _)
    · intro y hy
      obtain ⟨x, hx, rfl⟩ := List.mem_map.mp hy
      simpa [h.fd_eq (hmem x (by simp [hx]))] using hsplit.below x hx
    · intro y hy
      obtain ⟨x, hx, rfl⟩ := List.mem_map.mp hy
      rw [h.fd_eq (hmem x (by simp [List.mem_append.mp hx]))]
      rcases List.mem_append.mp hx with hx | hx
      · simp [hsplit.on x hx]
      · have := hsplit.above x hx
        simp only [decide_eq_false_iff_not]
        omega
  have hbegin : beginIt l.links (.sentinel .operations) = headOf (.sentinel .operations)
      ((lo ++ (eq ++ hi)).map (ioNode loc) ++ io.cancelledSegment.map (ioNode loc)) := by
    rw [h.begin_eq, hops]
    simp
  rw [hbegin, h.last_eq hinv, Ring.lowerBoundIt_range _ hring' hlen, hsearch]
  simp

/-- The front shortcut of `schedule` is taken only when nothing is below `fd`. -/
theorem below_nil {xs : List AsyncIoOperation} {first : AsyncIoOperation}
    (hsplit : FdSplit (first :: xs) fd lo eq hi) (hfront : fd ≤ first.fd) : lo = [] := by
  cases lo with
  | nil => rfl
  | cons x lo =>
    have happ := hsplit.append
    rw [List.cons_append, List.cons.injEq] at happ
    have hx := hsplit.below x List.mem_cons_self
    rw [← happ.1] at hx
    omega

/-- **Where `schedule` starts**: both shortcuts and the binary search are taken on the nodes as
    they are on the sequence. -/
theorem insertPos_eq (h : Denotes loc l io kernel queue batch) (hinv : io.Inv log extra)
    (hsplit : FdSplit io.activeSegment fd lo eq hi) {fuel : Nat}
    (hfuel : io.operations.length < fuel) :
    l.insertPos fuel fd = some (headOf (.sentinel .operations)
      ((if TakesBack io.activeSegment fd then io.cancelledSegment
        else eq ++ (hi ++ io.cancelledSegment)).map (ioNode loc))) := by
  have hlb := h.lowerBound_eq hinv hsplit hfuel
  have hlast := h.last_eq hinv
  have hbegin := h.begin_eq
  have hring := h.ring
  rw [← io.segments_append, List.map_append] at hbegin hring
  cases hact : io.activeSegment with
  | nil =>
    -- the range is empty, so neither shortcut is taken
    have hfirst : beginIt l.links (.sentinel .operations) = l.beginCancelled := by
      rw [hbegin, hlast, hact]
      rfl
    have hback : ¬ TakesBack ([] : List AsyncIoOperation) fd := by simp [TakesBack]
    rw [insertPos, if_neg (fun hc => hc.1 hfirst), if_neg (fun hc => hc.1 hfirst), hlb,
      if_neg hback]
  | cons first act =>
    rw [hact] at hsplit hbegin hring
    have hmem : ∀ x ∈ first :: act, x ∈ io.operations := by
      intro x hx
      rw [← io.segments_append, hact]
      exact List.mem_append_left _ hx
    have hne : beginIt l.links (.sentinel .operations) ≠ l.beginCancelled := by
      rw [hbegin, hlast]
      exact IsRing.ne_last (a := []) hring
    have hfd : l.fd (beginIt l.links (.sentinel .operations)) = first.fd := by
      rw [hbegin]
      exact h.fd_eq (hmem first List.mem_cons_self)
    -- the node in front of `begin_cancelled_` is the last active operation
    have hlastNode : l.links.prev l.beginCancelled
        = ioNode loc ((first :: act).getLast (List.cons_ne_nil first act)) := by
      rw [hlast, hring.prev_head, lastOf,
        List.getLast_cons (by simp : (first :: act).map (ioNode (n := n) loc) ≠ []), List.getLast_map]
    have hlastFd : l.fd (l.links.prev l.beginCancelled)
        = ((first :: act).getLast (List.cons_ne_nil first act)).fd := by
      rw [hlastNode]
      exact h.fd_eq (hmem _ (List.getLast_mem _))
    have hgetLast : (first :: act).getLast?
        = some ((first :: act).getLast (List.cons_ne_nil first act)) :=
      List.getLast?_eq_some_getLast _
    rw [insertPos]
    by_cases hfront : fd ≤ first.fd
    · -- nothing is below `fd`
      have hlo := below_nil hsplit hfront
      have hback : ¬ TakesBack (first :: act) fd := by
        rintro ⟨f, _, hf, -, hlt, -⟩
        rw [List.head?_cons, Option.some.injEq] at hf
        subst hf
        omega
      subst hlo
      rw [if_pos ⟨hne, hfd ▸ hfront⟩, if_neg hback, hbegin, ← List.append_assoc,
        show first :: act = eq ++ hi from hsplit.append, ← List.map_append]
    · rw [if_neg (fun hc => hfront (hfd ▸ hc.2))]
      by_cases hle : ((first :: act).getLast (List.cons_ne_nil first act)).fd ≤ fd
      · have hback : TakesBack (first :: act) fd :=
          ⟨first, _, rfl, hgetLast, lt_of_not_ge hfront, hle⟩
        rw [if_pos ⟨hne, hlastFd ▸ hle⟩, if_pos hback, hlast]
      · have hback : ¬ TakesBack (first :: act) fd := by
          rintro ⟨_, last, -, hl, -, hle'⟩
          rw [hgetLast, Option.some.injEq] at hl
          exact hle (hl ▸ hle')
        rw [if_neg (fun hc => hle (hlastFd ▸ hc.2)), hlb, if_neg hback]

/-- **The scan over the operations on `fd`** collects their interest and stops behind them. -/
theorem gatherInterest_eq (h : Denotes loc l io kernel queue batch) {as can : List (Node n)}
    (heq : ∀ x ∈ eq, x.fd = fd ∧ x ∈ io.operations) (hhi : ∀ x ∈ hi, fd < x.fd ∧ x ∈ io.operations)
    (hring : IsRing l.links (.sentinel .operations)
      (as ++ ((eq ++ hi).map (ioNode loc) ++ can))) {fuel : Nat} (hfuel : eq.length < fuel)
    (events : Events) :
    l.gatherInterest (headOf (.sentinel .operations) can) fd fuel
        (headOf (.sentinel .operations) ((eq ++ hi).map (ioNode loc) ++ can)) events
      = some (eq.foldl (fun m a => m ||| a.interest) events,
          headOf (.sentinel .operations) (hi.map (ioNode loc) ++ can)) := by
  -- induction over the operations on `fd`, with the ring cut at the iterator
  induction eq generalizing as fuel events with
  | nil =>
    obtain ⟨m, rfl⟩ : ∃ m, fuel = m + 1 := ⟨fuel - 1, by omega⟩
    cases hi with
    | nil => simp [gatherInterest]
    | cons y hi =>
      obtain ⟨hy, hymem⟩ := hhi y List.mem_cons_self
      have hyfd : l.fd (ioNode loc y) ≠ fd := by
        rw [h.fd_eq hymem]
        omega
      simp [gatherInterest, hyfd]
  | cons x eq ih =>
    rw [List.length_cons] at hfuel
    obtain ⟨m, rfl⟩ : ∃ m, fuel = m + 1 := ⟨fuel - 1, by omega⟩
    obtain ⟨hx, hxmem⟩ := heq x List.mem_cons_self
    rw [List.cons_append, List.map_cons] at hring
    have hgo : ioNode loc x ≠ headOf (.sentinel .operations) can ∧ l.fd (ioNode loc x) = fd :=
      ⟨hring.ne_last, (h.fd_eq hxmem).trans hx⟩
    have hrest := ih (fun y hy => heq y (List.mem_cons_of_mem x hy)) hring.shift
      (by omega : eq.length < m) (events ||| x.interest)
    rw [List.cons_append, List.map_cons, List.cons_append, headOf_cons, gatherInterest, if_pos hgo,
      hring.next_range, (h.cell_io hxmem).1, hrest]
    rfl

/-! ### `schedule` -/

/-- What is in no list may change, in the links and in the storage. -/
theorem congr (h : Denotes loc l io kernel queue batch) {l' : Linked K n}
    (hs : SameListed loc io.operations queue batch l l') : Denotes loc l' io kernel queue batch := by
  refine ⟨h.heap.congr hs.links, ?_, hs.beginCancelled.trans h.beginCancelled,
    hs.pollQueueLength.trans h.pollQueueLength, hs.interest.trans h.interest,
    hs.wakeFd.trans h.wakeFd, hs.wakeCounter.trans h.wakeCounter, hs.kernel.trans h.kernel⟩
  intro i op hop
  rw [hs.cell i op hop]
  exact h.cells i op hop

/-- A new operation is made in storage that no listed operation is in. -/
theorem construct (h : Denotes loc l io kernel queue batch) {op : AnyAsyncOperation}
    (hnew : ∀ i, ∀ x ∈ lists io.operations queue batch i, loc x ≠ loc op) :
    Denotes loc (l.construct (loc op) op) io kernel queue batch ∧
      Unlinked Node.sentinel (nodes loc io.operations queue batch) (node loc op) ∧
      Untouched loc io.operations queue batch (some (node loc op)) l (l.construct (loc op) op) := by
  have hx : Unlinked Node.sentinel (nodes (n := n) loc io.operations queue batch) (node loc op) :=
    unlinked_item hnew
  have hlinks : ∀ y, y ≠ node loc op → (l.construct (loc op) op).links.next y = l.links.next y ∧
      -- the storage is in no list, so no list sees the new links
      (l.construct (loc op) op).links.prev y = l.links.prev y :=
    fun y hy => ⟨Function.update_of_ne hy _ _, Function.update_of_ne hy _ _⟩
  have hcell : ∀ y, y ≠ node loc op → (l.construct (loc op) op).cell y = l.cell y :=
    fun y hy => Function.update_of_ne hy _ _
  refine ⟨h.congr ⟨?_, ?_, rfl, rfl, rfl, rfl, rfl, rfl⟩, hx, ?_, ?_, rfl⟩
  · exact fun i y hy => hlinks y (fun he => hx i (he ▸ hy))
  · exact fun i y hy => hcell _ (fun he =>
      hx i (he ▸ List.mem_cons_of_mem _ (List.mem_map_of_mem hy)))
  · exact fun y _ hne => hlinks y (fun he => hne (congrArg some he))
  · exact fun y _ hne => hcell y (fun he => hne (congrArg some he))

/-- The registration that a `schedule` that succeeds has made. -/
theorem register_of_schedule {io' : IoScheduler} {isOpen : Bool} {op : AsyncIoOperation}
    (hsplit : FdSplit io.activeSegment op.fd lo eq hi) (hio : io.schedule isOpen op = .ok io') :
    IoScheduler.register isOpen io.interest op.fd (scheduleMask io.activeSegment op)
      = .ok io'.interest := by
  obtain ⟨m, hscan, -⟩ := IoScheduler.scan_eq hsplit
  simp only [IoScheduler.schedule, hscan] at hio
  split at hio
  · exact absurd hio (by simp)
  · rename_i reg hreg
    rw [Except.ok.injEq] at hio
    rw [hreg, ← hio]

/-- **`schedule` on the nodes**: the item is put into the list at the position, and the mask is
    registered, that `schedule` on the sequence says. -/
theorem schedule (h : Denotes loc l io kernel queue batch) (hinv : io.Inv log extra)
    {op : AsyncIoOperation}
    (hnew : ∀ i, ∀ x ∈ lists io.operations queue batch i, loc x ≠ loc (.io op))
    (hfresh : io.state op = .fresh) {io' : IoScheduler} {isOpen : Bool}
    (hio : io.schedule isOpen op = .ok io') :
    ∃ l', (∀ fuel, io.operations.length < fuel →
        (l.construct (loc (.io op)) (.io op)).schedule fuel isOpen (ioNode loc op)
          = some (.ok l')) ∧
      Denotes loc l' io' kernel queue batch ∧
      Untouched loc io.operations queue batch (some (ioNode loc op)) l l' := by
  obtain ⟨h₁, hunlinked, hkeep₁⟩ := h.construct hnew
  obtain ⟨lo, eq, hi, hsplit, rfl⟩ := IoScheduler.schedule_ok hinv hio
  have hreg := register_of_schedule hsplit hio
  obtain ⟨hops, hring⟩ := h₁.ring_split hsplit
  have hmem : ∀ x ∈ eq ++ hi, x ∈ io.operations := by
    intro x hx
    rw [hops, ← List.append_assoc eq]
    exact List.mem_append_right _ (List.mem_append_left _ hx)
  have hitem : ((l.construct (loc (.io op)) (.io op)).cell (ioNode loc op)).io = op := by
    simp [Linked.construct, ioNode, Cell.io]
  -- the scan ends behind the operations on the descriptor, with the mask
  have hscan : ∀ fuel, io.operations.length < fuel →
      ((l.construct (loc (.io op)) (.io op)).insertPos fuel op.fd).bind (fun pos =>
        (l.construct (loc (.io op)) (.io op)).gatherInterest
          (l.construct (loc (.io op)) (.io op)).beginCancelled op.fd fuel pos op.interest)
      = some (scheduleMask io.activeSegment op, iter (.sentinel .operations)
          ((hi ++ io.cancelledSegment).map (ioNode loc)).head?) := by
    intro fuel hfuel
    have hlen : eq.length < fuel := by
      rw [hops] at hfuel
      simp only [List.length_append] at hfuel
      omega
    rw [h₁.insertPos_eq hinv hsplit hfuel, Option.bind_some, h₁.last_eq hinv]
    by_cases hback : TakesBack io.activeSegment op.fd
    · -- the back shortcut leaves the scan nothing to do
      obtain rfl := IoScheduler.above_nil_of_takesBack hsplit hback
      have heq : ∀ x ∈ ([] : List AsyncIoOperation), x.fd = op.fd ∧ x ∈ io.operations := by simp
      have hhi : ∀ x ∈ ([] : List AsyncIoOperation), op.fd < x.fd ∧ x ∈ io.operations := by simp
      have hcut : IsRing (l.construct (loc (.io op)) (.io op)).links (.sentinel .operations)
          (io.activeSegment.map (ioNode loc) ++ (([] ++ []).map (ioNode loc) ++
            io.cancelledSegment.map (ioNode loc))) := by
        simpa [hsplit.append] using hring
      have hnone := h₁.gatherInterest_eq heq hhi hcut (Nat.zero_lt_of_lt hfuel) op.interest
      rw [if_pos hback, scheduleMask, if_pos hback]
      exact hnone
    · have heq : ∀ x ∈ eq, x.fd = op.fd ∧ x ∈ io.operations :=
        fun x hx => ⟨hsplit.on x hx, hmem x (List.mem_append_left _ hx)⟩
      have hhi : ∀ x ∈ hi, op.fd < x.fd ∧ x ∈ io.operations :=
        fun x hx => ⟨hsplit.above x hx, hmem x (List.mem_append_right _ hx)⟩
      have hcut : IsRing (l.construct (loc (.io op)) (.io op)).links (.sentinel .operations)
          (lo.map (ioNode loc) ++ ((eq ++ hi).map (ioNode loc) ++
            io.cancelledSegment.map (ioNode loc))) := by
        simpa only [List.map_append, List.append_assoc] using hring
      have hall := h₁.gatherInterest_eq heq hhi hcut hlen op.interest
      rw [if_neg hback, scheduleMask, if_neg hback, hsplit.filter_on, ← List.append_assoc,
        List.map_append, hall, ← List.map_append]
      rfl
  have hcut : nodes (n := n) loc io.operations queue batch .operations
      = (lo ++ eq).map (ioNode loc) ++ (hi ++ io.cancelledSegment).map (ioNode loc) := by
    rw [nodes_operations, hops]
    simp
  obtain ⟨links, hinsert, hheap, hkeep⟩ := h₁.heap.insert_ok hunlinked hcut
  have hlists : (lo ++ eq).map (ioNode (n := n) loc) ++ node loc (.io op) ::
      (hi ++ io.cancelledSegment).map (ioNode loc)
      = ((lo ++ (eq ++ op :: hi)) ++ io.cancelledSegment).map (ioNode loc) := by
    simp [ioNode, node]
  rw [hlists, update_operations] at hheap
  refine ⟨{ l.construct (loc (.io op)) (.io op) with
    links := links
    pollQueueLength := (l.construct (loc (.io op)) (.io op)).pollQueueLength + 1
    interest := Function.update io.interest op.fd (some (scheduleMask io.activeSegment op)) },
    fun fuel hfuel => ?_,
    ⟨hheap, ?_, h₁.beginCancelled, ?_, rfl, h₁.wakeFd, h₁.wakeCounter, h₁.kernel⟩, ?_⟩
  · have hinsert' : insertItem (l.construct (loc (.io op)) (.io op)).links (some (ioNode loc op))
        (iter (.sentinel .operations) ((hi ++ io.cancelledSegment).map (ioNode loc)).head?)
        = .ok (links, iter (.sentinel .operations)
          ((hi ++ io.cancelledSegment).map (ioNode loc)).head?) := hinsert
    obtain ⟨pos, hpos, hgather⟩ := Option.bind_eq_some_iff.mp (hscan fuel hfuel)
    rw [Linked.schedule, hitem, hpos, Option.bind_some, hgather, Option.map_some, h₁.interest]
    simp only [hreg, hinsert', Except.map]
  · -- the new operation is as it was constructed, the others are as they were
    intro i x hx
    by_cases he : x = .io op
    · subst he
      refine ⟨by simp [Linked.construct, node], fun y hy => ?_⟩
      obtain rfl := AnyAsyncOperation.io.inj hy
      simp [Linked.construct, node, hfresh]
    · refine h₁.cells i x ?_
      cases i with
      | operations =>
        obtain ⟨y, hy, rfl⟩ := List.mem_map.mp hx
        have hne : y ≠ op := fun hyo => he (congrArg _ hyo)
        refine mem_operations ?_
        rw [hops]
        simp only [List.mem_append, List.mem_cons] at hy ⊢
        grind
      | completionQueue | batch => exact hx
  · show l.pollQueueLength + 1 = io.pollQueueLength + 1
    rw [h.pollQueueLength]
  · exact ⟨hkeep₁.links.trans hkeep (fun x hx hne => ⟨hx, hne⟩), hkeep₁.cell, hkeep₁.moved⟩

/-! ### `cancel` -/

/-- Marking a range leaves the other storage alone. -/
theorem foldl_mark_of_not_mem (ys : List (Node n)) {x : Node n} (hx : x ∉ ys)
    (cell : Node n → Cell) : ys.foldl mark cell x = cell x := by
  induction ys generalizing cell with
  | nil => rfl
  | cons y ys ih =>
    rw [List.mem_cons, not_or] at hx
    rw [List.foldl_cons, ih hx.2]
    exact Function.update_of_ne hx.1 _ _

/-- Marking the nodes of a range. -/
theorem foldl_mark (ys : List (Node n)) (hnd : ys.Nodup) (cell : Node n → Cell) (x : Node n) :
    ys.foldl mark cell x
      = if x ∈ ys then ⟨(cell x).op, (cell x).state.cancel⟩ else cell x := by
  induction ys generalizing cell with
  | nil => rfl
  | cons y ys ih =>
    rw [List.nodup_cons] at hnd
    rw [List.foldl_cons, ih hnd.2]
    by_cases hxy : x = y
    · subst hxy
      rw [if_neg hnd.1, if_pos List.mem_cons_self, mark, Function.update_self]
    · have hmark : mark cell y x = cell x := Function.update_of_ne hxy _ _
      simp only [hmark, List.mem_cons, hxy, false_or]

/-- The operations after the marking of `cancel`. -/
theorem holds_mark (h : Denotes loc l io kernel queue batch) (hnd : eq.Nodup)
    (heq : ∀ x ∈ eq, x ∈ io.operations) {i : ListName n} {op : AnyAsyncOperation}
    (hop : op ∈ lists io.operations queue batch i) :
    Holds ((eq.map (ioNode loc)).foldl mark l.cell (node loc op))
      (fun x => if x ∈ eq then (io.state x).cancel else io.state x) op := by
  have hinj : ∀ x ∈ eq, ∀ y ∈ eq, (ioNode loc x : Node n) = ioNode loc y → x = y := by
    intro x hx y hy he
    exact AnyAsyncOperation.io.inj
      (h.node_inj (mem_operations (heq x hx)) (mem_operations (heq y hy)) he)
  rw [foldl_mark _ (hnd.map_on hinj)]
  have hc := h.cells i op hop
  split
  · -- a node of the range is the node of one of its operations
    rename_i hmem
    obtain ⟨x, hx, he⟩ := List.mem_map.mp hmem
    obtain rfl : .io x = op := h.node_inj (mem_operations (heq x hx)) hop he
    refine ⟨hc.object, fun y hy => ?_⟩
    obtain rfl := AnyAsyncOperation.io.inj hy
    rw [if_pos hx, ← hc.state x rfl]
  · rename_i hmem
    refine ⟨hc.object, fun y hy => ?_⟩
    subst hy
    rw [if_neg (fun hy => hmem (List.mem_map_of_mem hy))]
    exact hc.state y rfl

/-- The splice of `cancel`. -/
theorem splice_range (h : Denotes loc l io kernel queue batch)
    (hsplit : FdSplit io.activeSegment fd lo eq hi) (heq : eq ≠ [])
    (hmov : IntrusiveList.Movable lo eq hi io.cancelledSegment) :
    ∃ links, (∀ fuel, eq.length < fuel → IntrusiveList.splice fuel l.links (.sentinel .operations)
        (headOf (.sentinel .operations) (io.cancelledSegment.map (ioNode loc)))
        (.sentinel .operations)
        (headOf (.sentinel .operations) (eq.map (ioNode loc) ++ (hi.map (ioNode loc) ++
          io.cancelledSegment.map (ioNode loc))))
        (headOf (.sentinel .operations)
          (hi.map (ioNode loc) ++ io.cancelledSegment.map (ioNode loc)))
        = some (.ok (links, iter (.sentinel .operations) (eq.head?.map (ioNode loc))))) ∧
      WellFormed Node.sentinel links
        (nodes loc (lo ++ (hi ++ (eq ++ io.cancelledSegment))) queue batch) ∧
      KeepsUnlinked Node.sentinel (nodes loc io.operations queue batch) none l.links links := by
  obtain ⟨hops, hring⟩ := h.ring_split hsplit
  have heq' : eq.map (ioNode (n := n) loc) ≠ [] := by simpa using heq
  have hnd := (List.nodup_cons.mp hring.1).2
  have hmov' : IntrusiveList.Movable (lo.map (ioNode (n := n) loc)) (eq.map (ioNode loc))
      (hi.map (ioNode loc)) (io.cancelledSegment.map (ioNode loc)) := by
    simpa [IntrusiveList.Movable] using hmov
  -- the splice on the links moves what the splice on the sequence moves
  have hagree := IntrusiveList.splice_refines hring heq' (eq.length + 1)
  rw [IntrusiveList.spliceSeq_moves hnd heq' hmov' (eq.length + 1) (by simp)] at hagree
  obtain ⟨⟨links, it⟩, hsplice, hring', hit⟩ := hagree.exists_ok
  have hsame := IntrusiveList.splice_sameOutside hring heq' hsplice
  have hnodes : lo.map (ioNode (n := n) loc) ++ (eq.map (ioNode loc) ++ (hi.map (ioNode loc) ++
      io.cancelledSegment.map (ioNode loc))) = nodes loc io.operations queue batch .operations := by
    rw [nodes_operations, hops]
    simp
  have hperm : (lo.map (ioNode (n := n) loc) ++ (hi.map (ioNode loc) ++ (eq.map (ioNode loc) ++
      io.cancelledSegment.map (ioNode loc)))).Perm
        (nodes loc io.operations queue batch .operations) := by
    rw [← hnodes]
    exact (List.perm_append_comm_assoc _ _ _).append_left _
  rw [hnodes] at hsame
  obtain ⟨hheap, hkeep⟩ := h.heap.permute hring' hperm hsame
  simp only [← List.map_append] at hheap
  rw [update_operations] at hheap
  refine ⟨links, fun fuel hfuel => ?_, hheap, hkeep⟩
  have hmono := IntrusiveList.splice_mono hsplice (Nat.succ_le_of_lt hfuel)
  obtain ⟨x, eq, rfl⟩ := List.exists_cons_of_ne_nil heq
  simp only [List.map_cons, List.head?_cons] at hmono hit
  subst hit
  exact hmono

/-- **The range of `cancel` on the nodes**: where the two searches end. -/
theorem cancelRange_eq (h : Denotes loc l io kernel queue batch) (hinv : io.Inv log extra)
    (hsplit : FdSplit io.activeSegment fd lo eq hi) {fuel : Nat}
    (hfuel : io.operations.length < fuel) :
    lowerBoundIt fuel l.links (fun it => decide (l.fd it < fd))
        (beginIt l.links (.sentinel .operations)) l.beginCancelled
      = some (headOf (.sentinel .operations) (eq.map (ioNode loc) ++ (hi.map (ioNode loc) ++
          io.cancelledSegment.map (ioNode loc)))) ∧
    findIf l.links l.beginCancelled (fun it => decide (l.fd it ≠ fd)) fuel
        (headOf (.sentinel .operations) (eq.map (ioNode loc) ++ (hi.map (ioNode loc) ++
          io.cancelledSegment.map (ioNode loc))))
      = some (headOf (.sentinel .operations)
          (hi.map (ioNode loc) ++ io.cancelledSegment.map (ioNode loc))) := by
  obtain ⟨hops, hring⟩ := h.ring_split hsplit
  have hmem : ∀ x ∈ eq ++ hi, x ∈ io.operations := by
    intro x hx
    rw [hops, ← List.append_assoc eq]
    exact List.mem_append_right _ (List.mem_append_left _ hx)
  have hlen : eq.length < fuel := by
    rw [hops] at hfuel
    simp only [List.length_append] at hfuel
    omega
  constructor
  · rw [h.lowerBound_eq hinv hsplit hfuel]
    simp only [List.map_append]
  · rw [h.last_eq hinv]
    refine Ring.findIf_range hring ?_ ?_ (by simpa using hlen)
    · -- the operations on `fd` are passed over
      intro y hy
      obtain ⟨x, hx, rfl⟩ := List.mem_map.mp hy
      simp [h.fd_eq (hmem x (List.mem_append_left _ hx)), hsplit.on x hx]
    · -- the first one above `fd` stops the search
      intro y hy
      obtain ⟨x, hx, rfl⟩ := List.mem_map.mp (List.mem_of_mem_head? (Option.mem_def.mpr hy))
      have habove := hsplit.above x hx
      rw [h.fd_eq (hmem x (List.mem_append_right _ hx)), decide_eq_true_eq]
      omega

/-- **`cancel` on the nodes**: a call that returns on the sequence returns on the nodes, has marked
    the same operations and moved them to the same place. -/
theorem cancel (h : Denotes loc l io kernel queue batch) (hinv : io.Inv log extra) {fuel' : Nat}
    {isOpen found : Bool} {io' : IoScheduler}
    (hio : io.cancelSection fuel' isOpen fd = some (.ok (io', found))) :
    ∃ l', (∀ fuel, io.operations.length < fuel → l.cancel fuel isOpen fd = some (.ok l')) ∧
      Denotes loc l' io' kernel queue batch ∧
      Untouched loc io.operations queue batch none l l' := by
  obtain ⟨lo, eq, hi, hsplit, hcase⟩ := IoScheduler.cancelSection_ok hinv hio
  obtain ⟨hops, hring⟩ := h.ring_split hsplit
  rcases hcase with ⟨rfl, rfl, -⟩ | ⟨heq, hmov, rfl, -⟩
  · -- nothing is active on the descriptor
    refine ⟨l, fun fuel hfuel => ?_, h, .refl l⟩
    obtain ⟨hfirst, hlast⟩ := h.cancelRange_eq hinv hsplit hfuel
    rw [Linked.cancel, hfirst, Option.bind_some, hlast, Option.bind_some, List.map_nil,
      List.nil_append, if_pos rfl]
  · have hne : headOf (Node.sentinel (n := n) .operations) (eq.map (ioNode loc) ++
        (hi.map (ioNode loc) ++ io.cancelledSegment.map (ioNode loc)))
        ≠ headOf (.sentinel .operations)
          (hi.map (ioNode loc) ++ io.cancelledSegment.map (ioNode loc)) := by
      obtain ⟨x, eq, rfl⟩ := List.exists_cons_of_ne_nil heq
      exact IsRing.ne_last hring
    have hmem : ∀ x ∈ eq, x ∈ io.operations := by
      intro x hx
      rw [hops]
      exact List.mem_append_right _ (List.mem_append_left _ hx)
    obtain ⟨links, hsplice, hheap, hkeep⟩ := h.splice_range hsplit heq hmov
    refine ⟨{ l with
      links := links
      cell := (eq.map (ioNode loc)).foldl mark l.cell
      beginCancelled := iter (.sentinel .operations) (eq.head?.map (ioNode loc))
      interest := (io.afterCancel isOpen fd lo eq hi).interest }, fun fuel hfuel => ?_,
      ⟨hheap, ?_, rfl, h.pollQueueLength, rfl, h.wakeFd, h.wakeCounter, h.kernel⟩, hkeep, ?_, rfl⟩
    · have hlen : eq.length < fuel := by
        rw [hops] at hfuel
        simp only [List.length_append] at hfuel
        omega
      obtain ⟨hfirst, hlast⟩ := h.cancelRange_eq hinv hsplit hfuel
      have hmark := Ring.forEach_range mark hring (by simpa using hlen) l.cell
      rw [Linked.cancel, hfirst, Option.bind_some, hlast, Option.bind_some, if_neg hne, hmark,
        Option.bind_some, h.last_eq hinv, hsplice fuel hlen, h.interest]
      rfl
    · intro i op hop
      refine h.holds_mark (hinv.nodup_on hsplit) hmem (i := i) ?_
      cases i with
      | operations =>
        rw [lists, hops]
        obtain ⟨x, hx, rfl⟩ := List.mem_map.mp hop
        refine List.mem_map_of_mem ?_
        simp only [IoScheduler.afterCancel, List.mem_append] at hx ⊢
        tauto
      | completionQueue | batch => exact hop
    · intro x hx _
      refine foldl_mark_of_not_mem _ (fun hm => hx .operations (List.mem_cons_of_mem _ ?_)) l.cell
      rw [nodes_operations, hops, List.map_append, List.map_append]
      exact List.mem_append_right _ (List.mem_append_left _ hm)

end Denotes

end Linked

end Exios
