import Exios.Scheduler.Basic

namespace Exios

open Search (lowerBound)

/-!
# Scheduler — `schedule` and `cancel`

One specification lemma per function, for states that satisfy the representation invariant
`IoScheduler.Inv`:

* `schedule_ok` — the operation is put behind the active operations on its descriptor;
* `cancelRange_eq`, `cancelSection_moves`, `cancelSection_diverges`, `cancelSection_ok` — the
  active operations on `fd` are marked and moved to the front of the cancelled segment, or
  the call does not return.

`Scheduler/Polling.lean` continues with the two critical sections of `poll_once`.

The invariant is stated with a number `extra`: the operations that have left the list but are
not yet subtracted from `poll_queue_length_`.
-/

/-! ### A sorted segment split at a descriptor -/

/-- `xs` consists of the operations below, on and above the descriptor `fd`. -/
structure FdSplit (xs : List AsyncIoOperation) (fd : Int) (lo eq hi : List AsyncIoOperation) :
    Prop where
  append : xs = lo ++ (eq ++ hi)
  below : ∀ x ∈ lo, x.fd < fd
  on : ∀ x ∈ eq, x.fd = fd
  above : ∀ x ∈ hi, fd < x.fd

/-- A sorted list splits at every descriptor. -/
theorem exists_fdSplit {xs : List AsyncIoOperation} (hs : xs.Pairwise (fun a b => a.fd ≤ b.fd))
    (fd : Int) : ∃ lo eq hi, FdSplit xs fd lo eq hi := by
  obtain ⟨lo, eq, hi, happ, hlo, heq, hhi⟩ :=
    Search.exists_split_of_sorted AsyncIoOperation.fd fd xs hs
  exact ⟨lo, eq, hi, happ, hlo, heq, hhi⟩

namespace FdSplit

variable {xs lo eq hi : List AsyncIoOperation} {fd : Int}

/-- The binary search for `fd` finds the end of the smaller descriptors. -/
theorem lowerBound_eq (h : FdSplit xs fd lo eq hi) :
    lowerBound (fun a => decide (a.fd < fd)) xs = lo.length := by
  rw [h.append]
  apply Search.lowerBound_append _ _ _ (fun x hx => by simpa using h.below x hx)
  intro x hx
  rcases List.mem_append.mp hx with hx | hx
  · simp [h.on x hx]
  · have := h.above x hx
    simp only [decide_eq_false_iff_not]
    omega

/-- Dropping the smaller descriptors leaves the operations on `fd` and the larger ones. -/
theorem drop_eq (h : FdSplit xs fd lo eq hi) : xs.drop lo.length = eq ++ hi := by
  rw [h.append, List.drop_left]

/-- Scanning on from the search position meets exactly the operations on `fd`. -/
theorem takeWhile_eq (h : FdSplit xs fd lo eq hi) :
    (eq ++ hi).takeWhile (fun a => decide (a.fd = fd)) = eq := by
  rw [List.takeWhile_append_of_pos (fun x hx => by simpa using h.on x hx)]
  cases hi with
  | nil => simp
  | cons y ys =>
    have hy : y.fd ≠ fd := by have := h.above y (by simp); omega
    simp [hy]

/-- The middle part of the split is what is on `fd`. -/
theorem filter_on (h : FdSplit xs fd lo eq hi) :
    xs.filter (fun a => decide (a.fd = fd)) = eq := by
  have hlo : lo.filter (fun a => decide (a.fd = fd)) = [] :=
    List.filter_eq_nil_iff.mpr (fun x hx => by have := h.below x hx; simp; omega)
  have heq : eq.filter (fun a => decide (a.fd = fd)) = eq :=
    List.filter_eq_self.mpr (fun x hx => by simpa using h.on x hx)
  have hhi : hi.filter (fun a => decide (a.fd = fd)) = [] :=
    List.filter_eq_nil_iff.mpr (fun x hx => by have := h.above x hx; simp; omega)
  rw [h.append, List.filter_append, List.filter_append, hlo, heq, hhi]
  simp

/-- The outer parts are what is not. -/
theorem filter_off (h : FdSplit xs fd lo eq hi) :
    xs.filter (fun a => decide (a.fd ≠ fd)) = lo ++ hi := by
  have hlo : lo.filter (fun a => decide (a.fd ≠ fd)) = lo :=
    List.filter_eq_self.mpr (fun x hx => by have := h.below x hx; simp; omega)
  have heq : eq.filter (fun a => decide (a.fd ≠ fd)) = [] :=
    List.filter_eq_nil_iff.mpr (fun x hx => by simpa using h.on x hx)
  have hhi : hi.filter (fun a => decide (a.fd ≠ fd)) = hi :=
    List.filter_eq_self.mpr (fun x hx => by have := h.above x hx; simp; omega)
  rw [h.append, List.filter_append, List.filter_append, hlo, heq, hhi]
  simp

/-- Inserting behind the operations on its descriptor keeps the sequence sorted. -/
theorem sorted_insert {op : AsyncIoOperation} (h : FdSplit xs op.fd lo eq hi)
    (hsorted : xs.Pairwise (fun a b => a.fd ≤ b.fd)) :
    (lo ++ (eq ++ op :: hi)).Pairwise (fun a b => a.fd ≤ b.fd) := by
  have hle : ∀ x ∈ lo ++ eq, x.fd ≤ op.fd := by
    intro x hx
    rcases List.mem_append.mp hx with hx | hx
    · exact le_of_lt (h.below x hx)
    · exact le_of_eq (h.on x hx)
  rw [h.append, ← List.append_assoc, List.pairwise_append] at hsorted
  rw [← List.append_assoc, List.pairwise_append]
  refine ⟨hsorted.1, ?_, ?_⟩
  · exact List.pairwise_cons.mpr ⟨fun y hy => le_of_lt (h.above y hy), hsorted.2.1⟩
  · intro x hx y hy
    rcases List.mem_cons.mp hy with rfl | hy
    · exact hle x hx
    · exact hsorted.2.2 x hx y hy

/-- Inserting behind the operations on its descriptor keeps each descriptor's operations in
    the order of the log, which the new operation ends. -/
theorem fifo_insert {op : AsyncIoOperation} {log : List AsyncIoOperation}
    (h : FdSplit xs op.fd lo eq hi) (fd : Int)
    (hfifo : (xs.filter (fun a => decide (a.fd = fd))).Sublist log) :
    ((lo ++ (eq ++ op :: hi)).filter (fun a => decide (a.fd = fd))).Sublist (log ++ [op]) := by
  rw [h.append] at hfifo
  by_cases hfd : op.fd = fd
  · -- on its own descriptor the new operation comes last
    have hhi : hi.filter (fun a => decide (a.fd = fd)) = [] :=
      List.filter_eq_nil_iff.mpr (fun x hx => by have := h.above x hx; simp; omega)
    simp only [List.filter_append, hhi, List.append_nil] at hfifo
    simp only [List.filter_append, List.filter_cons, hfd, decide_true, if_true, hhi]
    rw [← List.append_assoc]
    exact hfifo.append (List.Sublist.refl [op])
  · simp only [List.filter_append, List.filter_cons, hfd, decide_false, Bool.false_eq_true,
      if_false] at hfifo ⊢
    exact hfifo.trans (List.sublist_append_left _ _)

end FdSplit

namespace IoScheduler

/-! ### The representation invariant -/

/-- The representation invariant of the scheduler.  `log` is the order in which operations
    were scheduled; `extra` operations have left the list and are still counted. -/
structure Inv (s : IoScheduler) (log : List AsyncIoOperation) (extra : Nat) : Prop where
  nodup : s.operations.Nodup
  cursor : s.beginCancelled = s.cancelledSegment.head?
  sorted : s.activeSegment.Pairwise (fun a b => a.fd ≤ b.fd)
  active : ∀ op ∈ s.activeSegment, s.state op = .fresh
  cancelled : ∀ op ∈ s.cancelledSegment, s.state op = ⟨true, some cancelledResult⟩
  fifo : ∀ fd, (s.activeSegment.filter (fun a => decide (a.fd = fd))).Sublist log
  length : s.pollQueueLength = s.operations.length + extra

/-- The active operations and the cancelled ones make up the list. -/
theorem segments_append (s : IoScheduler) :
    s.activeSegment ++ s.cancelledSegment = s.operations :=
  Cursor.front_append_back _ _

/-- No operation is twice in the list, nor in both segments. -/
theorem Inv.nodup_segments {s : IoScheduler} {log : List AsyncIoOperation} {extra : Nat}
    (hinv : s.Inv log extra) : (s.activeSegment ++ s.cancelledSegment).Nodup := by
  rw [s.segments_append]
  exact hinv.nodup

/-- No operation is active twice. -/
theorem Inv.nodup_active {s : IoScheduler} {log : List AsyncIoOperation} {extra : Nat}
    (hinv : s.Inv log extra) : s.activeSegment.Nodup :=
  (List.nodup_append.mp hinv.nodup_segments).1

/-- The segments of a state given by a decomposition. -/
theorem segments_eq {s : IoScheduler} {act can : List AsyncIoOperation}
    (hops : s.operations = act ++ can) (hnd : s.operations.Nodup)
    (hcur : s.beginCancelled = can.head?) :
    s.activeSegment = act ∧ s.cancelledSegment = can := by
  rw [hops] at hnd
  rw [activeSegment, cancelledSegment, hops, hcur]
  exact ⟨Cursor.front_append hnd, Cursor.back_append hnd⟩

/-- The invariant of a state given by a decomposition. -/
theorem Inv.of_segments {s : IoScheduler} {log act can : List AsyncIoOperation} {extra : Nat}
    (hops : s.operations = act ++ can) (hnd : s.operations.Nodup)
    (hcur : s.beginCancelled = can.head?) (hsorted : act.Pairwise (fun a b => a.fd ≤ b.fd))
    (hact : ∀ op ∈ act, s.state op = .fresh)
    (hcan : ∀ op ∈ can, s.state op = ⟨true, some cancelledResult⟩)
    (hfifo : ∀ fd, (act.filter (fun a => decide (a.fd = fd))).Sublist log)
    (hlen : s.pollQueueLength = s.operations.length + extra) : s.Inv log extra := by
  obtain ⟨hact', hcan'⟩ := segments_eq hops hnd hcur
  refine ⟨hnd, ?_, ?_, ?_, ?_, ?_, hlen⟩
  · rw [hcan', hcur]
  · rw [hact']; exact hsorted
  · rw [hact']; exact hact
  · rw [hcan']; exact hcan
  · rw [hact']; exact hfifo

/-- A constructed scheduler keeps the representation invariant. -/
theorem init_inv (wakeFd : Int) : (init wakeFd).Inv [] 0 :=
  Inv.of_segments (show (init wakeFd).operations = [] ++ [] from rfl) List.nodup_nil rfl
    List.Pairwise.nil (by simp) (by simp) (by simp) rfl

/-- The registrations and the wake counter are not part of the representation. -/
theorem Inv.withEvents {s : IoScheduler} {log : List AsyncIoOperation} {extra : Nat}
    (h : s.Inv log extra) (reg : Registrations) (w : Nat) :
    ({ s with interest := reg, wakeCounter := w }).Inv log extra :=
  ⟨h.nodup, h.cursor, h.sorted, h.active, h.cancelled, h.fifo, h.length⟩

/-! ### `schedule` -/

/-- The back shortcut of `schedule` is taken: the descriptor is above the first active
    operation's and not below the last one's. -/
def TakesBack (active : List AsyncIoOperation) (fd : Int) : Prop :=
  ∃ first last, active.head? = some first ∧ active.getLast? = some last ∧
    first.fd < fd ∧ last.fd ≤ fd

instance (active : List AsyncIoOperation) (fd : Int) : Decidable (TakesBack active fd) :=
  match h₁ : active.head?, h₂ : active.getLast? with
  | some first, some last =>
    decidable_of_iff (first.fd < fd ∧ last.fd ≤ fd) (by simp [TakesBack, h₁, h₂])
  | none, _ => isFalse (by simp [TakesBack, h₁])
  | some _, none => isFalse (by simp [TakesBack, h₂])

/-- The start of the scan: the end of the segment on the back shortcut, else the end of the
    smaller descriptors. -/
theorem insertOffset_eq {xs lo eq hi : List AsyncIoOperation} {fd : Int}
    (h : FdSplit xs fd lo eq hi) :
    insertOffset xs fd = if TakesBack xs fd then xs.length else lo.length := by
  have hlb := h.lowerBound_eq
  unfold insertOffset
  cases hhead : xs.head? with
  | none => simp [TakesBack, hhead, hlb]
  | some first =>
    cases hlast : xs.getLast? with
    | none => simp [TakesBack, hlast, hlb]
    | some last =>
      have hmem : first ∈ xs := List.mem_of_mem_head? (by simp [hhead])
      by_cases hfront : fd ≤ first.fd
      · -- the front shortcut: nothing is below `fd`
        have hnot : ¬ TakesBack xs fd := by
          rintro ⟨f, l, hf, -, hlt, -⟩
          rw [hhead, Option.some.injEq] at hf
          subst hf
          omega
        have hlo : lo = [] := by
          cases lo with
          | nil => rfl
          | cons x lo =>
            rw [h.append, List.cons_append, List.head?_cons, Option.some.injEq] at hhead
            subst hhead
            have := h.below x (by simp)
            omega
        simp [hfront, hnot, hlo]
      -- else the back shortcut, and otherwise the binary search
      · by_cases hback : last.fd ≤ fd
        · have htakes : TakesBack xs fd := ⟨first, last, hhead, hlast, by omega, hback⟩
          simp [hfront, hback, htakes]
        · have hnot : ¬ TakesBack xs fd := by
            rintro ⟨f, l, -, hl, -, hle⟩
            rw [hlast, Option.some.injEq] at hl
            subst hl
            exact hback hle
          simp [hfront, hback, hnot, hlb]

/-- On the back shortcut nothing is above the descriptor. -/
theorem above_nil_of_takesBack {xs lo eq hi : List AsyncIoOperation} {fd : Int}
    (h : FdSplit xs fd lo eq hi) (hback : TakesBack xs fd) : hi = [] := by
  obtain ⟨_, last, -, hlast, -, hle⟩ := hback
  rcases List.eq_nil_or_concat hi with rfl | ⟨init, y, rfl⟩
  · rfl
  · rw [h.append] at hlast
    simp only [List.concat_eq_append, ← List.append_assoc, List.getLast?_append,
      List.getLast?_singleton, Option.some_or, Option.some.injEq] at hlast
    subst hlast
    have := h.above y (by simp)
    omega

/-- The scan over the operations on `fd`. -/
theorem gatherInterest_append {eq hi : List AsyncIoOperation} {fd : Int}
    (heq : ∀ x ∈ eq, x.fd = fd) (hhi : ∀ x ∈ hi, fd < x.fd) (events : Events) :
    gatherInterest fd (eq ++ hi) events
      = (eq.foldl (fun m a => m ||| a.interest) events, eq.length) := by
  -- induction over the operations on `fd`, with the mask collected so far general
  induction eq generalizing events with
  | nil =>
    cases hi with
    | nil => rfl
    | cons y hi =>
      have hy : y.fd ≠ fd := by have := hhi y (by simp); omega
      simp [gatherInterest, hy]
  | cons x eq ih =>
    have hx : x.fd = fd := heq x (by simp)
    have hrest := ih (fun y hy => heq y (by simp [hy])) (events ||| x.interest)
    simp [gatherInterest, hx, hrest]

/-- The mask that `schedule` registers: on the back shortcut only the new operation's own
    interest, else also that of the operations already waiting on the descriptor. -/
def scheduleMask (active : List AsyncIoOperation) (op : AsyncIoOperation) : Events :=
  if TakesBack active op.fd then op.interest
  else (active.filter (fun a => decide (a.fd = op.fd))).foldl (fun m a => m ||| a.interest)
    op.interest

/-- A registration that succeeds sets the mask of its descriptor. -/
theorem register_ok {isOpen : Bool} {reg reg' : Registrations} {fd : Int} {events : Events}
    (h : register isOpen reg fd events = .ok reg') :
    reg' = Function.update reg fd (some events) := by
  unfold register epollAdd epollMod at h
  cases isOpen <;> cases hreg : reg fd <;> simp [hreg] at h <;> exact h.symm

/-- Both ways of finding the position end behind the operations on the descriptor, with the
    mask collected on the way. -/
theorem scan_eq {xs lo eq hi : List AsyncIoOperation} {op : AsyncIoOperation}
    (h : FdSplit xs op.fd lo eq hi) :
    ∃ n, gatherInterest op.fd (xs.drop (insertOffset xs op.fd)) op.interest
        = (scheduleMask xs op, n) ∧ insertOffset xs op.fd + n = lo.length + eq.length := by
  rw [insertOffset_eq h]
  by_cases hback : TakesBack xs op.fd
  · have hhi := above_nil_of_takesBack h hback
    subst hhi
    refine ⟨0, ?_, ?_⟩
    · rw [if_pos hback, List.drop_length, gatherInterest, scheduleMask, if_pos hback]
    · rw [if_pos hback, h.append]; simp
  · refine ⟨eq.length, ?_, by rw [if_neg hback]⟩
    rw [if_neg hback, h.drop_eq, gatherInterest_append h.on h.above, scheduleMask, if_neg hback,
      h.filter_on]

/-- **Spec of `schedule`.** -/
theorem schedule_ok {s s' : IoScheduler} {log : List AsyncIoOperation} {extra : Nat}
    (hinv : s.Inv log extra) {isOpen : Bool} {op : AsyncIoOperation}
    (h : s.schedule isOpen op = .ok s') :
    ∃ lo eq hi, FdSplit s.activeSegment op.fd lo eq hi ∧
      s' = { s with
        operations := (lo ++ (eq ++ op :: hi)) ++ s.cancelledSegment
        pollQueueLength := s.pollQueueLength + 1
        interest := Function.update s.interest op.fd (some (scheduleMask s.activeSegment op)) } := by
  obtain ⟨lo, eq, hi, hsplit⟩ := exists_fdSplit hinv.sorted op.fd
  have hops : s.operations = (lo ++ eq) ++ (hi ++ s.cancelledSegment) := by
    rw [← s.segments_append, hsplit.append]; simp
  have hnd := hinv.nodup
  rw [hops] at hnd
  have hins : Cursor.insert op (hi ++ s.cancelledSegment).head?
      ((lo ++ eq) ++ (hi ++ s.cancelledSegment))
      = (lo ++ (eq ++ op :: hi)) ++ s.cancelledSegment := by
    rw [Cursor.insert_append hnd]; simp
  -- the iterator the scan ends at stands behind the operations on the descriptor
  have hpos : s.operations[lo.length + eq.length]? = (hi ++ s.cancelledSegment).head? := by
    rw [hops, List.getElem?_append_right (by simp)]
    simp [List.head?_eq_getElem?]
  obtain ⟨n, hscan, hn⟩ := scan_eq hsplit
  refine ⟨lo, eq, hi, hsplit, ?_⟩
  simp only [schedule, hscan, hn, hpos] at h
  split at h
  · exact absurd h (by simp)
  · rename_i reg hreg
    rw [Except.ok.injEq] at h
    rw [← h, register_ok hreg, hops, hins]

/-- `schedule` adds the operation to the list, and touches no operation's fields. -/
theorem schedule_perm {s s' : IoScheduler} {log : List AsyncIoOperation} {extra : Nat}
    (hinv : s.Inv log extra) {isOpen : Bool} {op : AsyncIoOperation}
    (h : s.schedule isOpen op = .ok s') :
    s'.operations.Perm (op :: s.operations) ∧ s'.state = s.state := by
  obtain ⟨lo, eq, hi, hsplit, rfl⟩ := schedule_ok hinv h
  refine ⟨?_, rfl⟩
  rw [← s.segments_append, hsplit.append, ← List.cons_append]
  apply List.Perm.append_right _
  rw [← List.append_assoc, ← List.append_assoc]
  exact List.perm_middle

/-- The segments after `schedule`. -/
theorem schedule_segments {s s' : IoScheduler} {log : List AsyncIoOperation} {extra : Nat}
    (hinv : s.Inv log extra) {isOpen : Bool} {op : AsyncIoOperation} (hnew : op ∉ s.operations)
    (h : s.schedule isOpen op = .ok s') :
    s'.operations.Nodup ∧ s'.cancelledSegment = s.cancelledSegment ∧
      ∃ lo eq hi, FdSplit s.activeSegment op.fd lo eq hi ∧
        s'.activeSegment = lo ++ (eq ++ op :: hi) := by
  have hnd : s'.operations.Nodup :=
    (schedule_perm hinv h).1.nodup_iff.mpr (List.nodup_cons.mpr ⟨hnew, hinv.nodup⟩)
  obtain ⟨lo, eq, hi, hsplit, rfl⟩ := schedule_ok hinv h
  obtain ⟨hact, hcan⟩ := segments_eq rfl hnd hinv.cursor
  exact ⟨hnd, hcan, lo, eq, hi, hsplit, hact⟩

/-- `schedule` adds its operation to the active segment, and nothing else. -/
theorem mem_schedule_active {s s' : IoScheduler} {log : List AsyncIoOperation} {extra : Nat}
    (hinv : s.Inv log extra) {isOpen : Bool} {op : AsyncIoOperation} (hnew : op ∉ s.operations)
    (h : s.schedule isOpen op = .ok s') (a : AsyncIoOperation) :
    a ∈ s'.activeSegment ↔ a = op ∨ a ∈ s.activeSegment := by
  obtain ⟨-, -, lo, eq, hi, hsplit, hact⟩ := schedule_segments hinv hnew h
  rw [hact, hsplit.append]
  simp only [List.mem_append, List.mem_cons]
  tauto

/-- `schedule` changes one registration. -/
theorem schedule_interest {s s' : IoScheduler} {log : List AsyncIoOperation} {extra : Nat}
    (hinv : s.Inv log extra) {isOpen : Bool} {op : AsyncIoOperation}
    (h : s.schedule isOpen op = .ok s') :
    s'.interest = Function.update s.interest op.fd (some (scheduleMask s.activeSegment op)) := by
  obtain ⟨_, _, _, -, rfl⟩ := schedule_ok hinv h
  rfl

/-- The invariant survives `schedule` of an operation that was never scheduled before. -/
theorem schedule_inv {s s' : IoScheduler} {log : List AsyncIoOperation} {extra : Nat}
    (hinv : s.Inv log extra) {isOpen : Bool} {op : AsyncIoOperation}
    (hnew : op ∉ s.operations) (hfresh : s.state op = .fresh)
    (h : s.schedule isOpen op = .ok s') : s'.Inv (log ++ [op]) extra := by
  have hperm := (schedule_perm hinv h).1
  obtain ⟨lo, eq, hi, hsplit, rfl⟩ := schedule_ok hinv h
  refine Inv.of_segments (show _ = (lo ++ (eq ++ op :: hi)) ++ s.cancelledSegment from rfl) ?_
    hinv.cursor (hsplit.sorted_insert hinv.sorted) ?_ hinv.cancelled
    (fun fd => hsplit.fifo_insert fd (hinv.fifo fd)) ?_
  · exact hperm.nodup_iff.mpr (List.nodup_cons.mpr ⟨hnew, hinv.nodup⟩)
  · intro x hx
    -- the new operation is the only one that was not active before
    have hx' : x = op ∨ x ∈ s.activeSegment := by
      rw [hsplit.append]
      simp only [List.mem_append, List.mem_cons] at hx ⊢
      tauto
    rcases hx' with rfl | hx'
    · exact hfresh
    · exact hinv.active x hx'
  · -- the count goes up with the list
    have hlen : ((lo ++ (eq ++ op :: hi)) ++ s.cancelledSegment).length
        = s.operations.length + 1 := by rw [hperm.length_eq, List.length_cons]
    have := hinv.length
    show s.pollQueueLength + 1 = _ + extra
    rw [hlen]
    omega

/-! ### `cancel` -/

/-- The range of `cancel` is exactly the active operations on the descriptor. -/
theorem cancelRange_eq {s : IoScheduler} {fd : Int} {lo eq hi : List AsyncIoOperation}
    (h : FdSplit s.activeSegment fd lo eq hi) : s.cancelRange fd = (lo.length, eq) := by
  simp only [cancelRange, h.lowerBound_eq, h.drop_eq, h.takeWhile_eq]

/-- The state after a `cancel` that found the operations `eq`. -/
def afterCancel (isOpen : Bool) (s : IoScheduler) (fd : Int)
    (lo eq hi : List AsyncIoOperation) : IoScheduler :=
  { s with
    operations := lo ++ (hi ++ (eq ++ s.cancelledSegment))
    beginCancelled := eq.head?
    interest := match epollDel isOpen s.interest fd with
      | .ok reg => reg
      | .error _ => s.interest
    state := fun op => if op ∈ eq then (s.state op).cancel else s.state op }

/-- `cancel` splices the range where the decomposition of the list says. -/
theorem cancelSection_eq {s : IoScheduler} {log : List AsyncIoOperation} {extra : Nat}
    (hinv : s.Inv log extra) {fd : Int} {lo eq hi : List AsyncIoOperation}
    (hsplit : FdSplit s.activeSegment fd lo eq hi) (heq : eq ≠ []) (fuel : Nat) (isOpen : Bool) :
    s.cancelSection fuel isOpen fd =
      (IntrusiveList.spliceSeq fuel (lo ++ (eq ++ (hi ++ s.cancelledSegment)))
        s.cancelledSegment.head? eq.head? (hi ++ s.cancelledSegment).head?).map
        (·.map (fun (ops, first) =>
          ({ s.afterCancel isOpen fd lo eq hi with operations := ops, beginCancelled := first },
            true))) := by
  have hops : s.operations = lo ++ (eq ++ (hi ++ s.cancelledSegment)) := by
    rw [← s.segments_append, hsplit.append]; simp
  -- the iterators of the call point at the range's ends
  have hfirst : s.operations[lo.length]? = eq.head? := by
    obtain ⟨x, eq', rfl⟩ := List.exists_cons_of_ne_nil heq
    rw [hops, List.getElem?_append_right (by simp)]
    simp
  have hlast : s.operations[lo.length + eq.length]? = (hi ++ s.cancelledSegment).head? := by
    rw [hops, ← List.append_assoc, List.getElem?_append_right (by simp)]
    simp [List.head?_eq_getElem?]
  simp only [cancelSection, cancelRange_eq hsplit, if_neg heq, hfirst, hlast, hinv.cursor]
  rw [hops]
  rfl

/-- **Spec of `cancel`, nothing to do.** -/
theorem cancelSection_empty {s : IoScheduler} {fd : Int} {lo hi : List AsyncIoOperation}
    (hsplit : FdSplit s.activeSegment fd lo [] hi) (fuel : Nat) (isOpen : Bool) :
    s.cancelSection fuel isOpen fd = some (.ok (s, false)) := by
  simp [cancelSection, cancelRange_eq hsplit]

/-- The decomposed operation list has no duplicates. -/
theorem Inv.nodup_split {s : IoScheduler} {log : List AsyncIoOperation} {extra : Nat}
    (hinv : s.Inv log extra) {fd : Int} {lo eq hi : List AsyncIoOperation}
    (hsplit : FdSplit s.activeSegment fd lo eq hi) :
    (lo ++ (eq ++ (hi ++ s.cancelledSegment))).Nodup := by
  have hnd := hinv.nodup
  rw [← s.segments_append, hsplit.append] at hnd
  simpa using hnd

/-- The operations on one descriptor are distinct. -/
theorem Inv.nodup_on {s : IoScheduler} {log : List AsyncIoOperation} {extra : Nat}
    (hinv : s.Inv log extra) {fd : Int} {lo eq hi : List AsyncIoOperation}
    (hsplit : FdSplit s.activeSegment fd lo eq hi) : eq.Nodup :=
  (List.nodup_append.mp (List.nodup_append.mp (hinv.nodup_split hsplit)).2.1).1

/-- **Spec of `cancel`, the good case**: the range is marked and moved. -/
theorem cancelSection_moves {s : IoScheduler} {log : List AsyncIoOperation} {extra : Nat}
    (hinv : s.Inv log extra) {fd : Int} {lo eq hi : List AsyncIoOperation}
    (hsplit : FdSplit s.activeSegment fd lo eq hi) (heq : eq ≠ [])
    (hmov : IntrusiveList.Movable lo eq hi s.cancelledSegment) (fuel : Nat)
    (hfuel : eq.length < fuel) (isOpen : Bool) :
    s.cancelSection fuel isOpen fd = some (.ok (s.afterCancel isOpen fd lo eq hi, true)) := by
  rw [cancelSection_eq hinv hsplit heq,
    IntrusiveList.spliceSeq_moves (hinv.nodup_split hsplit) heq hmov fuel hfuel]
  rfl

/-- **Spec of `cancel`, the bad case**: the call does not return. -/
theorem cancelSection_diverges {s : IoScheduler} {log : List AsyncIoOperation} {extra : Nat}
    (hinv : s.Inv log extra) {fd : Int} {lo eq hi : List AsyncIoOperation}
    (hsplit : FdSplit s.activeSegment fd lo eq hi)
    (hmov : ¬ IntrusiveList.Movable lo eq hi s.cancelledSegment) (fuel : Nat) (isOpen : Bool) :
    s.cancelSection fuel isOpen fd = none := by
  have heq : eq ≠ [] := by
    rintro rfl
    exact hmov (Or.inr (Or.inl (by simp)))
  rw [cancelSection_eq hinv hsplit heq,
    IntrusiveList.spliceSeq_diverges (hinv.nodup_split hsplit) hmov fuel]
  rfl

/-- The segments after a `cancel`: the others stay active, the range heads the cancelled. -/
theorem afterCancel_segments {s : IoScheduler} {log : List AsyncIoOperation} {extra : Nat}
    (hinv : s.Inv log extra) {fd : Int} {lo eq hi : List AsyncIoOperation}
    (hsplit : FdSplit s.activeSegment fd lo eq hi) (heq : eq ≠ []) (isOpen : Bool) :
    (s.afterCancel isOpen fd lo eq hi).operations.Nodup ∧
      (s.afterCancel isOpen fd lo eq hi).activeSegment = lo ++ hi ∧
      (s.afterCancel isOpen fd lo eq hi).cancelledSegment = eq ++ s.cancelledSegment := by
  have hnd : (s.afterCancel isOpen fd lo eq hi).operations.Nodup := by
    have hperm : (lo ++ (hi ++ (eq ++ s.cancelledSegment))).Perm
        (lo ++ (eq ++ (hi ++ s.cancelledSegment))) := by
      apply List.Perm.append_left lo
      exact List.perm_append_comm_assoc hi eq s.cancelledSegment
    exact hperm.nodup_iff.mpr (hinv.nodup_split hsplit)
  obtain ⟨x, eq', rfl⟩ := List.exists_cons_of_ne_nil heq
  exact ⟨hnd, segments_eq (by simp [afterCancel]) hnd rfl⟩

/-- The invariant survives a `cancel` that returns. -/
theorem afterCancel_inv {s : IoScheduler} {log : List AsyncIoOperation} {extra : Nat}
    (hinv : s.Inv log extra) {fd : Int} {lo eq hi : List AsyncIoOperation}
    (hsplit : FdSplit s.activeSegment fd lo eq hi) (heq : eq ≠ []) (isOpen : Bool) :
    (s.afterCancel isOpen fd lo eq hi).Inv log extra := by
  obtain ⟨hnd, hact, hcan⟩ := afterCancel_segments hinv hsplit heq isOpen
  have hsub : (lo ++ hi).Sublist s.activeSegment := by rw [hsplit.append]; simp
  -- what stays active is on other descriptors
  have hnot : ∀ op, op ∈ lo ++ hi → op ∉ eq := by
    intro op hop hmem
    have hfd := hsplit.on op hmem
    rcases List.mem_append.mp hop with hop | hop
    · have := hsplit.below op hop; omega
    · have := hsplit.above op hop; omega
  refine ⟨hnd, ?_, ?_, ?_, ?_, ?_, ?_⟩
  · rw [hcan]
    obtain ⟨x, eq', rfl⟩ := List.exists_cons_of_ne_nil heq
    rfl
  · rw [hact]; exact hinv.sorted.sublist hsub
  · rw [hact]
    intro op hop
    show (if op ∈ eq then (s.state op).cancel else s.state op) = _
    rw [if_neg (hnot op hop)]
    exact hinv.active op (hsub.subset hop)
  · rw [hcan]
    intro op hop
    show (if op ∈ eq then (s.state op).cancel else s.state op) = _
    split
    · rfl
    · rename_i hne
      exact hinv.cancelled op ((List.mem_append.mp hop).resolve_left hne)
  · rw [hact]
    intro fd'
    exact (hsub.filter _).trans (hinv.fifo fd')
  · have hlen : (s.afterCancel isOpen fd lo eq hi).operations.length = s.operations.length := by
      rw [← s.segments_append, hsplit.append]
      simp only [afterCancel, List.length_append]
      omega
    show s.pollQueueLength = _ + extra
    rw [hlen]
    exact hinv.length

/-- A `cancel` of a movable range that returned has moved it: the result does not depend on the
    fuel, so it is that of a run with enough. -/
theorem cancelSection_result {s : IoScheduler} {log : List AsyncIoOperation} {extra : Nat}
    (hinv : s.Inv log extra) {fd : Int} {lo eq hi : List AsyncIoOperation}
    (hsplit : FdSplit s.activeSegment fd lo eq hi) (heq : eq ≠ [])
    (hmov : IntrusiveList.Movable lo eq hi s.cancelledSegment) {fuel : Nat} {isOpen : Bool}
    {r : Except Contract (IoScheduler × Bool)} (h : s.cancelSection fuel isOpen fd = some r) :
    r = .ok (s.afterCancel isOpen fd lo eq hi, true) := by
  have hmax := cancelSection_moves hinv hsplit heq hmov (max fuel (eq.length + 1)) (by omega) isOpen
  rw [cancelSection_eq hinv hsplit heq, Option.map_eq_some_iff] at h
  obtain ⟨r', hr, hmap⟩ := h
  rw [cancelSection_eq hinv hsplit heq, IntrusiveList.spliceSeq_mono hr (le_max_left _ _),
    Option.map_some, hmap] at hmax
  exact Option.some.inj hmax

/-- What a `cancel` that returned has done. -/
theorem cancelSection_ok {s s' : IoScheduler} {log : List AsyncIoOperation} {extra : Nat}
    (hinv : s.Inv log extra) {fd : Int} {fuel : Nat} {isOpen found : Bool}
    (h : s.cancelSection fuel isOpen fd = some (.ok (s', found))) :
    ∃ lo eq hi, FdSplit s.activeSegment fd lo eq hi ∧
      ((eq = [] ∧ s' = s ∧ found = false) ∨
        (eq ≠ [] ∧ IntrusiveList.Movable lo eq hi s.cancelledSegment ∧
          s' = s.afterCancel isOpen fd lo eq hi ∧ found = true)) := by
  obtain ⟨lo, eq, hi, hsplit⟩ := exists_fdSplit hinv.sorted fd
  refine ⟨lo, eq, hi, hsplit, ?_⟩
  -- no operation on `fd`: the early return
  by_cases heq : eq = []
  · subst heq
    rw [cancelSection_empty hsplit] at h
    simp only [Option.some.injEq, Except.ok.injEq, Prod.mk.injEq] at h
    exact Or.inl ⟨rfl, h.1.symm, h.2.symm⟩
  · by_cases hmov : IntrusiveList.Movable lo eq hi s.cancelledSegment
    · have hres := cancelSection_result hinv hsplit heq hmov h
      rw [Except.ok.injEq, Prod.mk.injEq] at hres
      exact Or.inr ⟨heq, hmov, hres.1, hres.2⟩
    · -- a range that cannot be moved keeps `splice` going for ever
      rw [cancelSection_diverges hinv hsplit hmov] at h
      exact absurd h (by simp)

/-- No check fails in `cancel`. -/
theorem cancelSection_ne_error {s : IoScheduler} {log : List AsyncIoOperation} {extra : Nat}
    (hinv : s.Inv log extra) (fd : Int) (fuel : Nat) (isOpen : Bool) (e : Contract) :
    s.cancelSection fuel isOpen fd ≠ some (.error e) := by
  intro h
  obtain ⟨lo, eq, hi, hsplit⟩ := exists_fdSplit hinv.sorted fd
  by_cases heq : eq = []
  · subst heq
    rw [cancelSection_empty hsplit] at h
    exact absurd h (by simp)
  · by_cases hmov : IntrusiveList.Movable lo eq hi s.cancelledSegment
    · exact absurd (cancelSection_result hinv hsplit heq hmov h) (by simp)
    · rw [cancelSection_diverges hinv hsplit hmov] at h
      exact absurd h (by simp)

/-- `schedule` fails only with the check on `epoll_ctl`. -/
theorem schedule_error {s : IoScheduler} {isOpen : Bool} {op : AsyncIoOperation} {e : Contract}
    (h : s.schedule isOpen op = .error e) : e = .epollRegister := by
  unfold schedule at h
  dsimp only at h
  split at h
  · rename_i e' hreg
    rw [Except.error.injEq] at h
    subst h
    unfold register at hreg
    split at hreg
    · exact absurd hreg (by simp)
    · split at hreg
      · exact absurd hreg (by simp)
      · exact (Except.error.inj hreg).symm
    · exact (Except.error.inj hreg).symm
  · exact absurd h (by simp)

end IoScheduler

end Exios
