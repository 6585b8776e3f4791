import Exios.Objects.Basic

namespace Exios

/-!
# I/O objects — what a step does

Every step of a program with objects is one of five things to the descriptor table, to the
active operations and to the `perform_io` calls (`Effect`): a constructor opens a descriptor,
a member of a value closes at most one (`Objects.closes` says which), `schedule` makes an
operation active on an open descriptor, a notification phase performs active operations while
system calls move the table, and everything else leaves the table alone.
-/

/-! ### The calls of the values -/

namespace Values

/-- The number that a step closes. -/
def closes (s : Values) : FdAct → Option Int
  | .moveAssign a src => if a = src then none else s.fd a
  | .close a | .closeRest a | .destroy a => s.fd a
  | .construct _ _ | .constructEmpty _ | .moveConstruct _ _ | .swap _ _ => none

theorem assignFrom_trace (s : Values) (a : Nat) (mine tmp : Int) :
    (s.assignFrom a mine tmp).trace = s.trace ∨
      (s.assignFrom a mine tmp).trace = s.trace ++ [.closed mine] := by
  unfold assignFrom
  rw [destruct_trace]
  split
  · exact Or.inr rfl
  · exact Or.inl rfl

/-- A step that gets no number from the kernel makes at most one call, `::close` on the number
    it closes. -/
theorem call_trace {s v : Values} {act : FdAct} (hnew : act.handedOut = none)
    (h : s.call act = some v) :
    v.trace = s.trace ∨ ∃ n, s.closes act = some n ∧ v.trace = s.trace ++ [.closed n] := by
  cases act with
  | construct a fd => exact absurd hnew (by simp [FdAct.handedOut])
  -- construction and swapping hand numbers on and close nothing
  | constructEmpty a =>
    simp only [call, Option.ite_none_right_eq_some, Option.some.injEq] at h
    obtain ⟨-, rfl⟩ := h
    exact Or.inl rfl
  | moveConstruct a src =>
    simp only [call, Option.ite_none_right_eq_some, Option.map_eq_some_iff] at h
    obtain ⟨-, fd, -, rfl⟩ := h
    exact Or.inl rfl
  | moveAssign a src =>
    simp only [call, Option.bind_eq_some_iff, Option.map_eq_some_iff] at h
    obtain ⟨tmp, -, mine, hmine, rfl⟩ := h
    rw [set_fd] at hmine
    by_cases hself : a = src
    · -- the value was emptied before it is assigned to
      rw [if_pos hself, Option.some.injEq] at hmine
      subst hmine
      exact Or.inl (destruct_trace _ _)
    · rw [if_neg hself] at hmine
      refine (assignFrom_trace _ a mine tmp).imp id (fun ht => ⟨mine, ?_, ht⟩)
      exact (if_neg hself).trans hmine
  | swap a b =>
    simp only [call, Option.bind_eq_some_iff, Option.map_eq_some_iff] at h
    obtain ⟨x, -, y, -, rfl⟩ := h
    exact Or.inl rfl
  -- the first statement of `close` does not look at the number it closes
  | close a =>
    simp only [call, Option.map_eq_some_iff] at h
    obtain ⟨mine, hmine, rfl⟩ := h
    exact Or.inr ⟨mine, hmine, rfl⟩
  | closeRest a =>
    simp only [call, Option.ite_none_right_eq_some, Option.map_eq_some_iff] at h
    obtain ⟨-, mine, hmine, rfl⟩ := h
    exact (assignFrom_trace s a mine kInvalidDescriptor).imp id (fun ht => ⟨mine, hmine, ht⟩)
  | destroy a =>
    simp only [call, Option.map_eq_some_iff] at h
    obtain ⟨mine, hmine, rfl⟩ := h
    rw [destruct_trace]
    split
    · exact Or.inr ⟨mine, hmine, rfl⟩
    · exact Or.inl rfl

/-- The completion of an `accept` closes what the target held; its temporary is empty when it
    ends. -/
theorem assignment_trace {s v : Values} {target tmp : Nat} {n : Int} (hne : target ≠ tmp)
    (hn : 0 ≤ n) (h : Transition.exec call s (Objects.assignment target tmp n) = some v) :
    v.trace = s.trace ++ [.acquired n] ∨
      ∃ m, s.fd target = some m ∧ v.trace = s.trace ++ [.acquired n, .closed m] := by
  simp only [Objects.assignment, Transition.exec, Option.bind_eq_some_iff, Option.some.injEq,
    exists_eq_right] at h
  obtain ⟨s₁, h₁, s₂, h₂, h₃⟩ := h
  -- the temporary takes the accepted number
  simp only [call, Option.ite_none_right_eq_some, Option.some.injEq, if_pos hn] at h₁
  obtain ⟨-, rfl⟩ := h₁
  simp only [call, Option.bind_eq_some_iff, Option.map_eq_some_iff] at h₂
  obtain ⟨x, -, mine, hmine, rfl⟩ := h₂
  -- then the target gives up what it held
  have hmine' : s.fd target = some mine := by
    simpa [set_fd, set, Function.update_apply, hne] using hmine
  simp only [call, Option.map_eq_some_iff] at h₃
  obtain ⟨y, hy, rfl⟩ := h₃
  -- and the temporary ends empty
  have hy' : y = kInvalidDescriptor := by
    have := hy
    simp only [assignFrom, destruct_fd, set_fd, if_neg hne.symm, if_true, Option.some.injEq] at this
    exact this.symm
  subst hy'
  rw [destruct_trace, if_neg (by decide)]
  rcases assignFrom_trace _ target mine x with ht | ht
  · exact Or.inl (ht.trans rfl)
  · refine Or.inr ⟨mine, hmine', ht.trans ?_⟩
    simp [set]

/-- After it, the target holds the accepted number, and the other values what they held. -/
theorem assignment_fd {s v : Values} {target tmp : Nat} {n : Int} (hne : target ≠ tmp)
    (h : Transition.exec call s (Objects.assignment target tmp n) = some v) :
    v.fd target = some n ∧ ∀ a, a ≠ target → a ≠ tmp → v.fd a = s.fd a := by
  simp only [Objects.assignment, Transition.exec, Option.bind_eq_some_iff, Option.some.injEq,
    exists_eq_right] at h
  obtain ⟨s₁, h₁, s₂, h₂, h₃⟩ := h
  -- a temporary takes the number, is moved into the target and destroyed
  simp only [call, Option.ite_none_right_eq_some, Option.some.injEq] at h₁
  obtain ⟨-, rfl⟩ := h₁
  simp only [call, Option.bind_eq_some_iff, Option.map_eq_some_iff] at h₂
  obtain ⟨x, hx, mine, -, rfl⟩ := h₂
  obtain rfl : n = x := by simpa [set] using hx
  simp only [call, Option.map_eq_some_iff] at h₃
  obtain ⟨y, -, rfl⟩ := h₃
  refine ⟨?_, fun a ha ht => ?_⟩
  · simp [assignFrom, destruct_fd, set_fd, hne]
  · simp [assignFrom, destruct_fd, set, ha, ht]

end Values

/-! ### Closing in the table -/

/-- Some numbers that satisfy `P` were closed; nothing else happened. -/
structure Released (P : Int → Prop) (s s' : Sched Files) : Prop where
  file_other : ∀ n, ¬ P n → s'.kernel.file n = s.kernel.file n
  file_sub : ∀ n f, s'.kernel.file n = some f → s.kernel.file n = some f
  active : s'.io.activeSegment = s.io.activeSegment
  scheduled : s'.scheduled = s.scheduled
  attempts : s'.attempts = s.attempts
  inv : s.Inv → s'.Inv

namespace Released

variable {P : Int → Prop} {s s₁ s' : Sched Files}

theorem refl (s : Sched Files) : Released P s s :=
  ⟨fun _ _ => rfl, fun _ _ h => h, rfl, rfl, rfl, id⟩

theorem trans (h₁ : Released P s s₁) (h₂ : Released P s₁ s') : Released P s s' where
  file_other := fun n hn => (h₂.file_other n hn).trans (h₁.file_other n hn)
  file_sub := fun n f hf => h₁.file_sub n f (h₂.file_sub n f hf)
  active := h₂.active.trans h₁.active
  scheduled := h₂.scheduled.trans h₁.scheduled
  attempts := h₂.attempts.trans h₁.attempts
  inv := fun hinv => h₂.inv (h₁.inv hinv)

theorem closeCall (s : Sched Files) {n : Int} (hn : P n) : Released P s (s.closeCall n) := by
  unfold Sched.closeCall
  split
  · refine ⟨?_, ?_, rfl, rfl, rfl, fun hinv => hinv.withEvents _ _ _⟩
    · intro m hm
      exact Function.update_of_ne (fun he : m = n => hm (he ▸ hn)) _ _
    · intro m f hf
      simp only [Files.close, Function.update_apply] at hf
      split at hf
      · exact absurd hf (by simp)
      · exact hf
  · exact refl s

/-- The calls of the values close what they close. -/
theorem observe (s : Sched Files) (calls : List FdEvent) (h : ∀ n, .closed n ∈ calls → P n) :
    Released P s (calls.foldl Sched.observe s) := by
  induction calls generalizing s with
  | nil => exact refl s
  | cons e calls ih =>
    have hrest := ih (s.observe e) (fun n hn => h n (List.mem_cons_of_mem _ hn))
    cases e with
    | acquired n => exact hrest
    | closed n => exact (closeCall s (h n List.mem_cons_self)).trans hrest

end Released

/-! ### Effects -/

namespace Objects

/-- The number that a step closes. -/
def closes (s : Objects) : ObjectAct → Option Int
  | .value act => s.values.closes act
  | .assignAccepted target _ _ => s.values.fd target
  | _ => none

/-- What a step does to the descriptor table, the active operations and the attempts. -/
inductive Effect (s : Objects) : ObjectAct → Objects → Prop
  | opens {a fd : Nat} {ctor : ObjectCtor} {s' : Objects} :
      s.sched.kernel.isOpen fd = false →
      s'.sched = { s.sched with kernel := s.sched.kernel.acquire fd ctor.flags false } →
      s'.born = s.born → Effect s (.construct a ctor fd) s'
  | closes {act : ObjectAct} {s' : Objects} :
      Released (fun n => s.closes act = some n) s.sched s'.sched → s'.born = s.born →
      Effect s act s'
  | schedules {a addr : Nat} {kind : IoKind} {fd : Int} {s' : Objects} :
      s.values.fd a = some fd → ⟨addr, fd, kind⟩ ∉ s.sched.scheduled →
      s.sched.schedule filesKernel ⟨addr, fd, kind⟩ = .ok s'.sched →
      s'.born = Function.update s.born ⟨addr, fd, kind⟩ (s.sched.kernel.generation fd) →
      Effect s (.schedule a addr kind) s'
  | keeps {act : ObjectAct} {s' : Objects} :
      s'.sched.kernel = s.sched.kernel → s'.sched.attempts = s.sched.attempts →
      (∀ x ∈ s'.sched.io.activeSegment, x ∈ s.sched.io.activeSegment) → s'.sched.Inv →
      s'.born = s.born → Effect s act s'
  | polls {events : List EpollEvent} {tw : Nat} {answers : List SysOutcome} {numbers : List Nat}
      {s' : Objects} :
      Sched.Performs filesKernel { s.sched with
        kernel := { s.sched.kernel with answers := answers, numbers := numbers } } s'.sched →
      s'.sched.Inv → s'.born = s.born →
      Effect s (.pollNotifications events tw answers numbers) s'

/-- What the values close is closed in the table. -/
theorem withValues_released {s : Objects} {v : Values} {calls : List FdEvent} {P : Int → Prop}
    (htrace : v.trace = s.values.trace ++ calls) (hcalls : ∀ n, .closed n ∈ calls → P n) :
    Released P s.sched (s.withValues v).sched := by
  have hdrop : v.trace.drop s.values.trace.length = calls := by
    rw [htrace, List.drop_left]
  show Released P s.sched ((v.trace.drop s.values.trace.length).foldl Sched.observe s.sched)
  rw [hdrop]
  exact .observe s.sched calls hcalls

/-- **Every step has one of the five effects.** -/
theorem step_effect {s s' : Objects} {act : ObjectAct} (hinv : s.sched.Inv)
    (h : s.step act = some s') : Effect s act s' := by
  cases act with
  | construct a ctor fd =>
    simp only [step, Option.ite_none_right_eq_some, Option.map_eq_some_iff, Bool.and_eq_true] at h
    obtain ⟨⟨⟨-, hopen⟩, -⟩, v, -, rfl⟩ := h
    exact .opens (by simpa using hopen) rfl rfl
  -- the members of a value close at most what `closes` says
  | value act =>
    simp only [step, Option.ite_none_right_eq_some, Option.map_eq_some_iff, Bool.and_eq_true] at h
    obtain ⟨⟨⟨hnew, -⟩, -⟩, v, hv, rfl⟩ := h
    rcases Values.call_trace (of_decide_eq_true hnew) hv with ht | ⟨n, hn, ht⟩
    · exact .closes (withValues_released (ht.trans (List.append_nil _).symm) (by simp)) rfl
    · refine .closes (withValues_released ht ?_) rfl
      intro m hm
      rw [List.mem_singleton, FdEvent.closed.injEq] at hm
      exact hm ▸ hn
  -- the completion of an `accept` closes what the target held
  | assignAccepted target tmp op =>
    simp only [step, Option.ite_none_right_eq_some, Option.bind_eq_some_iff,
      Option.map_eq_some_iff, Bool.and_eq_true] at h
    obtain ⟨⟨⟨-, hne⟩, -⟩, n, -, v, hv, rfl⟩ := h
    have hrel : Released (fun m => s.values.fd target = some m) s.sched (s.withValues v).sched := by
      rcases Values.assignment_trace (of_decide_eq_true hne) (Int.natCast_nonneg n) hv with
        ht | ⟨m, hm, ht⟩
      · exact withValues_released ht (by simp)
      · apply withValues_released ht
        intro m' hm'
        simp only [List.mem_cons, reduceCtorEq, FdEvent.closed.injEq, List.not_mem_nil, or_false,
          false_or] at hm'
        exact hm' ▸ hm
    exact .closes hrel rfl
  | schedule a addr kind =>
    simp only [step, Option.ite_none_right_eq_some, Option.bind_eq_some_iff,
      Option.map_eq_some_iff] at h
    obtain ⟨-, fd, hfd, sched, hs, rfl⟩ := h
    obtain ⟨hnew, hs⟩ := Sched.step_schedule.mp hs
    exact .schedules hfd hnew hs rfl
  -- the scheduler's other functions make no system call on descriptors
  | cancel a fuel =>
    simp only [step, Option.ite_none_left_eq_some, Option.bind_eq_some_iff,
      Option.map_eq_some_iff] at h
    obtain ⟨-, fd, -, sched, hs, rfl⟩ := h
    obtain ⟨found, hs⟩ := Sched.step_cancel.mp hs
    have hact := Sched.cancel_active hinv hs
    have hinv' := Sched.cancel_inv hinv hs
    obtain ⟨io, -, rfl⟩ := Sched.cancel_cases hs
    exact .keeps rfl rfl hact hinv' rfl
  | pollCancellations tw =>
    simp only [step, Option.map_eq_some_iff] at h
    obtain ⟨sched, hs, rfl⟩ := h
    obtain ⟨p, hs⟩ := Sched.step_pollCancellations.mp hs
    obtain ⟨hkernel, hatt, hact⟩ := Sched.pollCancellations_active hinv hs
    exact .keeps hkernel hatt (fun x hx => hact ▸ hx) (Sched.pollCancellations_inv hinv hs) rfl
  | pollNotifications events tw answers numbers =>
    simp only [step, Option.map_eq_some_iff] at h
    obtain ⟨sched, hs, rfl⟩ := h
    obtain ⟨n, hs⟩ := Sched.step_pollNotifications.mp hs
    -- the label's answers are the kernel's choices for this section
    have hinv₁ : Sched.Inv { s.sched with
        kernel := { s.sched.kernel with answers := answers, numbers := numbers } } :=
      hinv.withEvents _ _ _
    exact .polls (Sched.pollNotifications_performs hinv₁ hs) (Sched.pollNotifications_inv hinv₁ hs)
      rfl
  | wake tw =>
    simp only [step, Option.map_eq_some_iff] at h
    obtain ⟨sched, hs, rfl⟩ := h
    have hinv' := Sched.step_inv hinv hs
    rw [Sched.step, Option.some.injEq] at hs
    subst hs
    exact .keeps rfl rfl (fun _ hx => hx) hinv' rfl

/-- No step of an object breaks the scheduler's invariant. -/
theorem Effect.inv {s s' : Objects} {act : ObjectAct} (he : Effect s act s') (hinv : s.sched.Inv) :
    s'.sched.Inv := by
  cases he with
  | opens hopen hs hborn =>
    rw [hs]
    exact hinv.withEvents _ _ _
  | closes hrel hborn => exact hrel.inv hinv
  | schedules hfd hnew hs hborn => exact Sched.schedule_inv hinv hnew hs
  | keeps hkernel hatt hact hinv' hborn => exact hinv'
  | polls hper hinv' hborn => exact hinv'

theorem init_inv {s : Objects} (h : Init s) : s.sched.Inv := by
  obtain ⟨kind, wakeFd, rfl⟩ := h
  exact Sched.init_inv ⟨wakeFd, .empty, rfl⟩

end Objects

/-! ### System calls and the table -/

namespace Files

/-- What one system call does to the table: nothing, or it opens a descriptor in blocking mode
    under a number that was free. -/
theorem syscall_file (op : AsyncIoOperation) (k : Files) :
    ((syscall op k).2.file = k.file ∧ (syscall op k).2.numbers = k.numbers) ∨
      ∃ n rest, k.numbers = n :: rest ∧ k.isOpen n = false ∧ (syscall op k).2.numbers = rest ∧
        (syscall op k).2.file = Function.update k.file n (some ⟨k.next, false, true⟩) := by
  unfold syscall
  by_cases hopen : k.isOpen op.fd = false
  · rw [if_pos hopen]
    exact Or.inl ⟨rfl, rfl⟩
  · rw [if_neg hopen]
    by_cases hkind : op.kind = .unixAccept
    · rw [if_pos hkind]
      split
      · -- `::accept` makes a file, if the number it is given is free
        rename_i n rest _ hnum
        by_cases hn : k.isOpen n = true
        · rw [if_pos hn]
          exact Or.inl ⟨rfl, rfl⟩
        · rw [if_neg hn]
          exact Or.inr ⟨n, rest, hnum, by simpa using hn, rfl, rfl⟩
      · exact Or.inl ⟨rfl, rfl⟩
      · exact Or.inl ⟨rfl, rfl⟩
    · rw [if_neg hkind]
      exact Or.inl ⟨rfl, rfl⟩

end Files

end Exios
