import Exios.Objects.Event

namespace Exios

/-!
# Streams — the bytes that reads and writes carry

`TcpSocket` and `UnixSocket` start four kinds of operations that move bytes of a connection:
`read` and `receive_message` take some off its front, `write` and `send_message` add some at its
back.  Each call may move fewer bytes than asked for, may have to be tried again, may fail, and
may be cancelled at any time.

* `StreamFd` — one end of a connection as stream sockets document it, with the calls that moved
  bytes;
* `streamKernel` — a kernel in which one descriptor is that end; which calls fail, and how many
  bytes the others move, is up to any other kernel;
* `Carried` — the invariant: the calls that moved bytes are the completed operations, in the order
  in which they were posted;
* `stream_conserved` — so the completed reads hold what arrived, in order and without a gap, and
  what was accepted is what the completed writes report.
-/

/-- One end of a connection. -/
structure StreamFd where
  /-- The bytes that have arrived and were not read. -/
  inbound : List UInt8
  /-- The bytes that were written and that the peer has not taken. -/
  outbound : List UInt8
  /-- The peer sends nothing more. -/
  closed : Bool
  /-- All bytes that have arrived, oldest first. -/
  arrived : List UInt8
  /-- All bytes that the peer has taken, oldest first. -/
  sent : List UInt8
  /-- The operations whose calls succeeded, with the bytes that they moved, oldest first. -/
  transfers : List (AsyncIoOperation × List UInt8)
deriving DecidableEq

namespace StreamFd

/-- A new connection. -/
def init : StreamFd := ⟨[], [], false, [], [], []⟩

/-- `op` takes `count` bytes. -/
def take (e : StreamFd) (op : AsyncIoOperation) (count : Nat) : StreamFd :=
  { e with
    inbound := e.inbound.drop count
    transfers := e.transfers ++ [(op, e.inbound.take count)] }

/-- `op` adds the bytes `bs`. -/
def put (e : StreamFd) (op : AsyncIoOperation) (bs : List UInt8) : StreamFd :=
  { e with outbound := e.outbound ++ bs, transfers := e.transfers ++ [(op, bs)] }

/-- `read` or `recvmsg` into `size` bytes, where the environment answers `out`: nothing has
    arrived, or at most as many bytes as it says, but at least one; at the end of the stream none. -/
def read (e : StreamFd) (op : AsyncIoOperation) (size : Nat) (out : SysOutcome) :
    SysOutcome × StreamFd :=
  match out.ret with
  | .error err => (⟨.error err, out.data⟩, e)
  | .ok n =>
    if e.inbound = [] ∧ e.closed = false ∧ 0 < size then (⟨.error EAGAIN, out.data⟩, e)
    else (⟨.ok (e.inbound.take (min (max n 1) size)).length, out.data⟩,
      e.take op (min (max n 1) size))

/-- `write` or `sendmsg` of `bytes`, where the environment answers `out`. -/
def write (e : StreamFd) (op : AsyncIoOperation) (bytes : List UInt8) (out : SysOutcome) :
    SysOutcome × StreamFd :=
  match out.ret with
  | .error err => (⟨.error err, out.data⟩, e)
  | .ok n => (⟨.ok (bytes.take (max n 1)).length, out.data⟩, e.put op (bytes.take (max n 1)))

/-- The bytes that the transfers in one direction moved. -/
def moved (e : StreamFd) (readable : Bool) : List UInt8 :=
  ((e.transfers.filter (fun p => decide (p.1.isReadOperation = readable))).map Prod.snd).flatten

/-- What the peer does between two steps: it sends and takes bytes, and may shut its side down;
    after that it sends nothing more. -/
structure Peer (e e' : StreamFd) : Prop where
  transfers : e'.transfers = e.transfers
  arrived : e.arrived <+: e'.arrived
  inbound : e'.inbound = e.inbound ++ e'.arrived.drop e.arrived.length
  shut : e.closed = true → e'.closed = true ∧ e'.arrived = e.arrived
  sent : e.sent <+: e'.sent
  outbound : e.outbound = e'.sent.drop e.sent.length ++ e'.outbound

instance (e e' : StreamFd) : Decidable (Peer e e') :=
  decidable_of_iff
    ((e'.transfers = e.transfers ∧ e.arrived <+: e'.arrived ∧
        e'.inbound = e.inbound ++ e'.arrived.drop e.arrived.length) ∧
      (e.closed = true → e'.closed = true ∧ e'.arrived = e.arrived) ∧
      e.sent <+: e'.sent ∧ e.outbound = e'.sent.drop e.sent.length ++ e'.outbound)
    ⟨fun h => ⟨h.1.1, h.1.2.1, h.1.2.2, h.2.1, h.2.2.1, h.2.2.2⟩,
      fun h => ⟨⟨h.1, h.2, h.3⟩, h.4, h.5, h.6⟩⟩

end StreamFd

/-- The connection under the number `fd`; the other descriptors are those of `M`.  `bufferSize` and
    `payload` are what `read` and `write` were given. -/
def streamKernel {K : Type} (fd : Int) (bufferSize : AsyncIoOperation → Nat)
    (payload : AsyncIoOperation → List UInt8) (M : Kernel K) : Kernel (StreamFd × K) where
  syscall := fun op k =>
    if op.fd = fd then
      if op.isReadOperation then
        ((k.1.read op (bufferSize op) (M.syscall op k.2).1).1,
          (k.1.read op (bufferSize op) (M.syscall op k.2).1).2, (M.syscall op k.2).2)
      else
        ((k.1.write op (payload op) (M.syscall op k.2).1).1,
          (k.1.write op (payload op) (M.syscall op k.2).1).2, (M.syscall op k.2).2)
    else ((M.syscall op k.2).1, k.1, (M.syscall op k.2).2)
  isOpen := fun k n => M.isOpen k.2 n

/-- The number of bytes that a result reports. -/
def IoValue.count : IoValue → Nat
  | .size n => n
  | .message n _ => n
  | _ => 0

/-- The result is a success. -/
def IoResult.isOk : Option IoResult → Bool
  | some (.ok _) => true
  | _ => false

namespace Stream

variable {fd : Int} {bufferSize : AsyncIoOperation → Nat} {payload : AsyncIoOperation → List UInt8}

/-- On the descriptor, `op` is one of the four kinds that move bytes. -/
def Member (fd : Int) (op : AsyncIoOperation) : Prop :=
  op.fd = fd → op.kind = .ioRead ∨ op.kind = .receiveMessage ∨ op.kind = .ioWrite ∨
    op.kind = .sendMessage

instance (fd : Int) (op : AsyncIoOperation) : Decidable (Member fd op) :=
  inferInstanceAs (Decidable (_ → _))

/-- The operation is on the descriptor and has succeeded. -/
def succeeded (fd : Int) (state : AsyncIoOperation → OpState) (op : AsyncIoOperation) : Bool :=
  decide (op.fd = fd) && IoResult.isOk (state op).result

/-- The transfer is what the result of its operation says: as many bytes, into a buffer that they
    fit in, or from the front of what was to be written. -/
structure Reported (bufferSize : AsyncIoOperation → Nat) (payload : AsyncIoOperation → List UInt8)
    (state : AsyncIoOperation → OpState) (p : AsyncIoOperation × List UInt8) : Prop where
  result : ∃ v : IoValue, (state p.1).result = some (.ok v) ∧ v.count = p.2.length
  reads : p.1.isReadOperation = true → p.2.length ≤ bufferSize p.1
  writes : p.1.isReadOperation = false → p.2 <+: payload p.1

/-- **The invariant of a connection.** -/
structure Carried (fd : Int) (bufferSize : AsyncIoOperation → Nat)
    (payload : AsyncIoOperation → List UInt8) (posted : List AsyncIoOperation)
    (state : AsyncIoOperation → OpState) (e : StreamFd) : Prop where
  order : e.transfers.map Prod.fst = posted.filter (succeeded fd state)
  exact : ∀ p ∈ e.transfers, Reported bufferSize payload state p
  results : ∀ op ∈ posted, (state op).result ≠ none
  arrived : e.arrived = e.moved true ++ e.inbound
  accepted : e.moved false = e.sent ++ e.outbound

/-! ### One call -/

/-- What a call does to the connection: nothing, unless it completes its operation with an `Ok`
    result; then it moves as many bytes as the result says. -/
structure CallSpec (fd : Int) (bufferSize : AsyncIoOperation → Nat)
    (payload : AsyncIoOperation → List UInt8) (op : AsyncIoOperation) (e e' : StreamFd)
    (result : Except Contract (Bool × Option IoResult)) : Prop where
  keeps : (∀ v, result ≠ .ok (true, some (.ok v))) → e' = e
  reads : ∀ v, result = .ok (true, some (.ok v)) → op.fd = fd → op.isReadOperation = true →
    ∃ count ≤ bufferSize op, e' = e.take op count ∧ v.count = (e.inbound.take count).length
  writes : ∀ v, result = .ok (true, some (.ok v)) → op.fd = fd → op.isReadOperation = false →
    ∃ bs, bs <+: payload op ∧ e' = e.put op bs ∧ v.count = bs.length
  elsewhere : op.fd ≠ fd → e' = e

/-- A successful read or write reports the number of bytes that the call returned. -/
theorem streamIo_value {out : SysOutcome} {v : IoValue}
    (h : streamIo out none = .ok (true, some (.ok v))) : ∃ n, out.ret = .ok n ∧ v = .size n := by
  unfold streamIo at h
  cases hret : out.ret with
  | error e =>
    rw [hret] at h
    dsimp only at h
    split at h <;> simp [setResult] at h
  | ok n =>
    rw [hret] at h
    simp only [setResult, Option.isSome_none, Bool.false_eq_true, if_false, Except.ok.injEq,
      Prod.mk.injEq, true_and, Option.some.injEq] at h
    exact ⟨n, rfl, h.symm⟩

/-- The other operations report what their call returned. -/
theorem checkedIo_value {ok : Nat → Nat → IoValue} {out : SysOutcome} {v : IoValue}
    (h : checkedIo ok out none = .ok (true, some (.ok v))) :
    ∃ n, out.ret = .ok n ∧ v = ok n out.data := by
  unfold checkedIo at h
  rw [if_neg (by simp)] at h
  -- an error number is stored as an error, so the value is the count of the call
  cases hret : out.ret with
  | error e =>
    rw [hret] at h
    dsimp only at h
    split at h <;> simp at h
  | ok n =>
    rw [hret] at h
    simp only [Except.ok.injEq, Prod.mk.injEq, true_and, Option.some.injEq] at h
    exact ⟨n, rfl, h.symm⟩

/-- A result with a value is that of a call that succeeded, and reports what it returned. -/
theorem io_count {op : AsyncIoOperation} (hop : Member op.fd op) {out : SysOutcome} {v : IoValue}
    (h : io op.kind out none = .ok (true, some (.ok v))) : out.ret = .ok v.count := by
  rcases hop rfl with hk | hk | hk | hk <;> rw [hk, io] at h
  · obtain ⟨n, hret, rfl⟩ := streamIo_value h
    exact hret
  · obtain ⟨n, hret, rfl⟩ := checkedIo_value h
    exact hret
  · obtain ⟨n, hret, rfl⟩ := streamIo_value h
    exact hret
  · obtain ⟨n, hret, rfl⟩ := checkedIo_value h
    exact hret

variable {K : Type} {M : Kernel K}

/-- A call that takes bytes meets its specification. -/
theorem read_spec {op : AsyncIoOperation} (hfd : op.fd = fd) (hop : Member op.fd op)
    (hread : op.isReadOperation = true) (e : StreamFd) (out : SysOutcome) :
    CallSpec fd bufferSize payload op e (e.read op (bufferSize op) out).2
      (io op.kind (e.read op (bufferSize op) out).1 none) := by
  refine ⟨fun h => ?_, fun v h _ _ => ?_, fun v _ _ hwrite => ?_, fun hne => absurd hfd hne⟩
  · unfold StreamFd.read at h ⊢
    -- the call failed, or found nothing to read: nothing has moved
    cases hret : out.ret with
    | error err => rfl
    | ok n =>
      simp only [hret] at h ⊢
      split
      · rfl
      · rename_i hsome
        rw [if_neg hsome] at h
        obtain ⟨v, hv⟩ := io_of_ok op.kind (e.inbound.take (min (max n 1) (bufferSize op))).length
          out.data
        exact absurd hv (h v)
  · -- the call moved bytes, as many as `io` reports
    have hcount := io_count hop h
    unfold StreamFd.read at hcount ⊢
    cases hret : out.ret with
    | error err => simp [hret] at hcount
    | ok n =>
      simp only [hret] at hcount ⊢
      split at hcount
      · simp at hcount
      · rename_i hsome
        rw [if_neg hsome]
        rw [Except.ok.injEq] at hcount
        exact ⟨min (max n 1) (bufferSize op), Nat.min_le_right _ _, rfl, hcount.symm⟩
  · rw [hread] at hwrite
    exact absurd hwrite (by simp)

/-- A call that adds bytes meets its specification. -/
theorem write_spec {op : AsyncIoOperation} (hfd : op.fd = fd) (hop : Member op.fd op)
    (hwrite : op.isReadOperation = false) (e : StreamFd) (out : SysOutcome) :
    CallSpec fd bufferSize payload op e (e.write op (payload op) out).2
      (io op.kind (e.write op (payload op) out).1 none) := by
  refine ⟨fun h => ?_, fun v _ _ hread => ?_, fun v h _ _ => ?_, fun hne => absurd hfd hne⟩
  · -- the call failed: nothing has moved
    unfold StreamFd.write at h ⊢
    cases hret : out.ret with
    | error err => rfl
    | ok n =>
      simp only [hret] at h
      obtain ⟨v, hv⟩ := io_of_ok op.kind ((payload op).take (max n 1)).length out.data
      exact absurd hv (h v)
  · rw [hwrite] at hread
    exact absurd hread (by simp)
  · have hcount := io_count hop h
    unfold StreamFd.write at hcount ⊢
    cases hret : out.ret with
    | error err => simp [hret] at hcount
    | ok n =>
      simp only [hret, Except.ok.injEq] at hcount ⊢
      exact ⟨(payload op).take (max n 1), List.take_prefix _ _, rfl, hcount.symm⟩

/-- **Every call on the connection meets its specification.** -/
theorem call_spec {op : AsyncIoOperation} (hop : Member fd op) (k : StreamFd × K) :
    CallSpec fd bufferSize payload op k.1 ((streamKernel fd bufferSize payload M).syscall op k).2.1
      (io op.kind ((streamKernel fd bufferSize payload M).syscall op k).1 none) := by
  by_cases hfd : op.fd = fd
  · have hop' : Member op.fd op := fun _ => hop hfd
    cases hread : op.isReadOperation with
    | true =>
      simp only [streamKernel, if_pos hfd, hread, if_true]
      exact read_spec hfd hop' hread k.1 _
    | false =>
      simp only [streamKernel, if_pos hfd, hread, Bool.false_eq_true, if_false]
      exact write_spec hfd hop' hread k.1 _
  · -- a call on another descriptor leaves the stream alone
    simp only [streamKernel, if_neg hfd]
    exact ⟨fun _ => rfl, fun _ _ h => absurd h hfd, fun _ _ h => absurd h hfd, fun _ => rfl⟩

/-! ### The invariant, one operation at a time -/

variable {posted : List AsyncIoOperation} {state state' : AsyncIoOperation → OpState} {e : StreamFd}

/-- What a further transfer moves. -/
theorem moved_append (e : StreamFd) (inbound outbound : List UInt8) (op : AsyncIoOperation)
    (bs : List UInt8) (readable : Bool) :
    ({ e with inbound := inbound, outbound := outbound,
              transfers := e.transfers ++ [(op, bs)] } : StreamFd).moved readable
      = e.moved readable ++ if op.isReadOperation = readable then bs else [] := by
  unfold StreamFd.moved
  rw [List.filter_append, List.map_append, List.flatten_append]
  congr 1
  by_cases hop : op.isReadOperation = readable
  · rw [List.filter_cons_of_pos (by simpa using hop), if_pos hop]
    simp
  · rw [List.filter_cons_of_neg (by simpa using hop), if_neg hop]
    rfl

namespace Carried

/-- Whatever has moved bytes was posted. -/
theorem mem_posted (h : Carried fd bufferSize payload posted state e)
    {p : AsyncIoOperation × List UInt8} (hp : p ∈ e.transfers) : p.1 ∈ posted := by
  have hmem : p.1 ∈ e.transfers.map Prod.fst := List.mem_map_of_mem hp
  rw [h.order] at hmem
  exact (List.mem_filter.mp hmem).1

/-- The transfers are still reported when the posted operations keep their results. -/
theorem exact_of_same (h : Carried fd bufferSize payload posted state e)
    (hsame : ∀ op ∈ posted, state' op = state op) :
    ∀ p ∈ e.transfers, Reported bufferSize payload state' p := by
  intro p hp
  obtain ⟨hresult, hreads, hwrites⟩ := h.exact p hp
  refine ⟨?_, hreads, hwrites⟩
  rw [hsame p.1 (h.mem_posted hp)]
  exact hresult

theorem filter_of_same (hsame : ∀ op ∈ posted, state' op = state op) :
    posted.filter (succeeded fd state') = posted.filter (succeeded fd state) := by
  apply List.filter_congr
  intro op hop
  unfold succeeded
  rw [hsame op hop]

theorem results_append (h : Carried fd bufferSize payload posted state e)
    (hsame : ∀ op ∈ posted, state' op = state op) {extra : List AsyncIoOperation}
    (hextra : ∀ op ∈ extra, (state' op).result ≠ none) :
    ∀ op ∈ posted ++ extra, (state' op).result ≠ none := by
  intro op hop
  rcases List.mem_append.mp hop with hop | hop
  · rw [hsame op hop]
    exact h.results op hop
  · exact hextra op hop

/-- **Operations are posted that moved nothing**: without success, or of other descriptors. -/
theorem post (h : Carried fd bufferSize payload posted state e)
    (hsame : ∀ op ∈ posted, state' op = state op) {extra : List AsyncIoOperation}
    (hextra : ∀ op ∈ extra, (state' op).result ≠ none ∧ succeeded fd state' op = false) :
    Carried fd bufferSize payload (posted ++ extra) state' e where
  order := by
    have hnone : extra.filter (succeeded fd state') = [] :=
      List.filter_eq_nil_iff.mpr (fun op hop => by simp [(hextra op hop).2])
    rw [List.filter_append, hnone, List.append_nil, filter_of_same hsame]
    exact h.order
  exact := h.exact_of_same hsame
  results := h.results_append hsame (fun op hop => (hextra op hop).1)
  arrived := h.arrived
  accepted := h.accepted

/-- **An operation is posted that has moved the bytes `bs`.** -/
theorem move (h : Carried fd bufferSize payload posted state e)
    (hsame : ∀ op ∈ posted, state' op = state op) {op : AsyncIoOperation} {bs : List UInt8}
    {e' : StreamFd} (hfd : op.fd = fd) (hreported : Reported bufferSize payload state' (op, bs))
    (htransfers : e'.transfers = e.transfers ++ [(op, bs)])
    (harrived : e'.arrived = e'.moved true ++ e'.inbound)
    (haccepted : e'.moved false = e'.sent ++ e'.outbound) :
    Carried fd bufferSize payload (posted ++ [op]) state' e' := by
  obtain ⟨v, hv, hcount⟩ := hreported.result
  refine ⟨?_, ?_, ?_, harrived, haccepted⟩
  · -- the operation succeeded, so it is the next one in the order of the posts
    have hop : succeeded fd state' op = true := by
      unfold succeeded
      rw [hv]
      simp [IoResult.isOk, hfd]
    rw [htransfers, List.map_append, h.order, List.filter_append, filter_of_same hsame,
      List.filter_cons_of_pos hop]
    rfl
  · intro p hp
    rw [htransfers] at hp
    rcases List.mem_append.mp hp with hp | hp
    · exact h.exact_of_same hsame p hp
    · rw [List.mem_singleton.mp hp]
      exact hreported
  · refine h.results_append hsame (fun x hx => ?_)
    rw [List.mem_singleton.mp hx, hv]
    simp

/-- A read takes bytes off the front. -/
theorem take (h : Carried fd bufferSize payload posted state e)
    (hsame : ∀ op ∈ posted, state' op = state op) {op : AsyncIoOperation} (hfd : op.fd = fd)
    (hread : op.isReadOperation = true) {count : Nat} (hfits : count ≤ bufferSize op) {v : IoValue}
    (hv : (state' op).result = some (.ok v)) (hcount : v.count = (e.inbound.take count).length) :
    Carried fd bufferSize payload (posted ++ [op]) state' (e.take op count) := by
  refine h.move hsame hfd ⟨⟨v, hv, hcount⟩, fun _ => ?_, fun hwrite => ?_⟩ rfl ?_ ?_
  · have := List.length_take_le count e.inbound
    show (e.inbound.take count).length ≤ bufferSize op
    omega
  · rw [hread] at hwrite
    exact absurd hwrite (by simp)
  · show e.arrived = (e.take op count).moved true ++ e.inbound.drop count
    -- what was taken is now among the bytes received
    rw [StreamFd.take, moved_append e _ e.outbound, if_pos hread, List.append_assoc,
      List.take_append_drop]
    exact h.arrived
  · show (e.take op count).moved false = e.sent ++ e.outbound
    rw [StreamFd.take, moved_append e _ e.outbound, if_neg (by simp [hread]), List.append_nil]
    exact h.accepted

/-- A write adds bytes at the back. -/
theorem put (h : Carried fd bufferSize payload posted state e)
    (hsame : ∀ op ∈ posted, state' op = state op) {op : AsyncIoOperation} (hfd : op.fd = fd)
    (hwrite : op.isReadOperation = false) {bs : List UInt8} (hbs : bs <+: payload op) {v : IoValue}
    (hv : (state' op).result = some (.ok v)) (hcount : v.count = bs.length) :
    Carried fd bufferSize payload (posted ++ [op]) state' (e.put op bs) := by
  refine h.move hsame hfd ⟨⟨v, hv, hcount⟩, fun hread => ?_, fun _ => hbs⟩ rfl ?_ ?_
  · rw [hwrite] at hread
    exact absurd hread (by simp)
  · show e.arrived = (e.put op bs).moved true ++ e.inbound
    rw [StreamFd.put, moved_append e e.inbound, if_neg (by simp [hwrite]), List.append_nil]
    exact h.arrived
  · show (e.put op bs).moved false = e.sent ++ (e.outbound ++ bs)
    rw [StreamFd.put, moved_append e e.inbound, if_pos hwrite, h.accepted, List.append_assoc]

/-- What the peer does keeps the books. -/
theorem peer (h : Carried fd bufferSize payload posted state e) {e' : StreamFd}
    (hpeer : StreamFd.Peer e e') : Carried fd bufferSize payload posted state e' := by
  -- the peer only appends to what arrived and takes from what was sent
  have hmoved : ∀ readable : Bool, e'.moved readable = e.moved readable := by
    intro readable
    rw [StreamFd.moved, hpeer.transfers, StreamFd.moved]
  refine ⟨by rw [hpeer.transfers]; exact h.order, by rw [hpeer.transfers]; exact h.exact,
    h.results, ?_, ?_⟩
  · obtain ⟨bs, hbs⟩ := hpeer.arrived
    have hinbound := hpeer.inbound
    rw [← hbs, List.drop_left] at hinbound
    rw [hmoved, hinbound, ← hbs, h.arrived, List.append_assoc]
  · obtain ⟨bs, hbs⟩ := hpeer.sent
    have houtbound := hpeer.outbound
    rw [← hbs, List.drop_left] at houtbound
    rw [hmoved, h.accepted, houtbound, ← hbs, List.append_assoc]

/-- **A round of the loop** in `process_notifications`. -/
theorem item {mask : Events} {item : AsyncIoOperation} {st st' : IoScheduler.Notify (StreamFd × K)}
    {before : List AsyncIoOperation} (hop : Member fd item) (hfresh : st.sched.state item = .fresh)
    (h : Carried fd bufferSize payload (before ++ st.posted) st.sched.state st.kernel.1)
    (hstep : IoScheduler.ItemStep (streamKernel fd bufferSize payload M) mask item st st') :
    Carried fd bufferSize payload (before ++ st'.posted) st'.sched.state st'.kernel.1 := by
  have hcall : CallSpec fd bufferSize payload item _ _ _ := call_spec (M := M) hop st.kernel
  -- an operation without a result was not posted
  have hsame : ∀ r, ∀ op ∈ before ++ st.posted,
      Function.update st.sched.state item ⟨false, some r⟩ op = st.sched.state op := by
    intro r op hmem
    refine Function.update_of_ne (fun heq => h.results op hmem ?_) _ _
    rw [heq, hfresh]
    rfl
  cases hstep with
  | skipped => exact h
  | pending hsel hio =>
    have hkeep := hcall.keeps (fun v hv => by simp [hio] at hv)
    show Carried _ _ _ _ _ ((streamKernel fd bufferSize payload M).syscall item st.kernel).2.1
    rw [hkeep]
    exact h
  | @stored r tw hsel hio =>
    show Carried _ _ _ (before ++ (st.posted ++ [item]))
      (Function.update st.sched.state item ⟨false, some r⟩)
      ((streamKernel fd bufferSize payload M).syscall item st.kernel).2.1
    rw [← List.append_assoc]
    have hself : (Function.update st.sched.state item ⟨false, some r⟩ item).result = some r := by
      rw [Function.update_self]
    cases r with
    | error err =>
      rw [hcall.keeps (fun v hv => by simp [hio] at hv)]
      refine h.post (hsame _) (fun op hmem => ?_)
      rw [List.mem_singleton.mp hmem, succeeded, hself]
      simp [IoResult.isOk]
    | ok v =>
      by_cases hfd : item.fd = fd
      · cases hread : item.isReadOperation with
        | true =>
          obtain ⟨count, hfits, heq, hcount⟩ := hcall.reads v hio hfd hread
          rw [heq]
          exact h.take (hsame _) hfd hread hfits hself hcount
        | false =>
          obtain ⟨bs, hbs, heq, hcount⟩ := hcall.writes v hio hfd hread
          rw [heq]
          exact h.put (hsame _) hfd hread hbs hself hcount
      · rw [hcall.elsewhere hfd]
        refine h.post (hsame _) (fun op hmem => ?_)
        rw [List.mem_singleton.mp hmem, succeeded, hself]
        simp [hfd]

end Carried

/-! ### Runs -/

/-- The steps of a run on one connection: on its descriptor, reads and writes are scheduled; what
    else happens to it is the peer's doing.  Cancellations, polls and whatever happens on other
    descriptors are unrestricted. -/
def OneConnection (fd : Int) (s : Sched (StreamFd × K)) : SchedAct (StreamFd × K) → Prop
  | .schedule op => Member fd op
  | .kernel k => StreamFd.Peer s.kernel.1 k.1
  | _ => True

/-- The run starts with a new connection. -/
def Start (s : Sched (StreamFd × K)) : Prop :=
  ∃ wakeFd k, s = ⟨IoScheduler.init wakeFd, (StreamFd.init, k), [], [], [], []⟩

/-- States reached by runs on one connection. -/
def Reach (fd : Int) (bufferSize : AsyncIoOperation → Nat)
    (payload : AsyncIoOperation → List UInt8) (M : Kernel K) : Sched (StreamFd × K) → Prop :=
  Transition.Reach Start (Sched.step (streamKernel fd bufferSize payload M)) (OneConnection fd)

/-- The invariant of a run. -/
structure Inv (fd : Int) (bufferSize : AsyncIoOperation → Nat)
    (payload : AsyncIoOperation → List UInt8) (s : Sched (StreamFd × K)) : Prop where
  sched : s.Inv
  members : ∀ op ∈ s.scheduled, Member fd op
  carried : Carried fd bufferSize payload s.posted s.io.state s.kernel.1

theorem start_inv {s : Sched (StreamFd × K)} (h : Start s) : Inv fd bufferSize payload s := by
  obtain ⟨wakeFd, k, rfl⟩ := h
  exact ⟨Sched.init_inv ⟨wakeFd, _, rfl⟩, by simp, ⟨rfl, by simp [StreamFd.init], by simp, rfl, rfl⟩⟩

/-- Steps that leave the connection and the posted operations as they are. -/
theorem Inv.keep {s s' : Sched (StreamFd × K)} (h : Inv fd bufferSize payload s) (hinv' : s'.Inv)
    (hscheduled : s'.scheduled = s.scheduled) (hposted : s'.posted = s.posted)
    (hkernel : s'.kernel = s.kernel) (hsame : ∀ op ∈ s.posted, s'.io.state op = s.io.state op) :
    Inv fd bufferSize payload s' := by
  refine ⟨hinv', by rw [hscheduled]; exact h.members, ?_⟩
  rw [hposted, hkernel, ← List.append_nil s.posted]
  exact h.carried.post hsame (by simp)

variable {s s' : Sched (StreamFd × K)}

/-- Scheduling transfers nothing. -/
theorem schedule_inv (h : Inv fd bufferSize payload s) {op : AsyncIoOperation} (hop : Member fd op)
    (hnew : op ∉ s.scheduled) (hs : s.schedule (streamKernel fd bufferSize payload M) op = .ok s') :
    Inv fd bufferSize payload s' := by
  have hinv' := Sched.schedule_inv h.sched hnew hs
  obtain ⟨io, hio, rfl⟩ := Sched.schedule_cases hs
  have hstate : io.state = s.io.state := (IoScheduler.schedule_perm h.sched.rep hio).2
  refine ⟨hinv', fun x hx => ?_, ?_⟩
  · rcases List.mem_append.mp hx with hx | hx
    · exact h.members x hx
    · rw [List.mem_singleton.mp hx]
      exact hop
  · show Carried _ _ _ s.posted io.state s.kernel.1
    rw [hstate]
    exact h.carried

/-- Nor does a cancellation. -/
theorem cancel_inv (h : Inv fd bufferSize payload s) {fuel : Nat} {n : Int} {found : Bool}
    (hs : s.cancel (streamKernel fd bufferSize payload M) fuel n = some (.ok (s', found))) :
    Inv fd bufferSize payload s' := by
  have hinv' := Sched.cancel_inv h.sched hs
  obtain ⟨io, hio, rfl⟩ := Sched.cancel_cases hs
  have hspec := (IoScheduler.cancelSection_spec h.sched.rep hio).2
  refine h.keep hinv' rfl rfl rfl (fun op hop => hspec.others op (fun hon => ?_))
  -- what is cancelled is still in the list
  have hmem : op ∈ s.io.operations := by
    rw [← s.io.segments_append]
    exact List.mem_append_left _ (List.mem_filter.mp hon).1
  exact h.sched.operations_not_posted hmem hop

/-- Nor does the first section of `poll_once`. -/
theorem pollCancellations_inv (h : Inv fd bufferSize payload s) {tw : Nat}
    {p : IoScheduler.CancelPhase} (hs : s.pollCancellations tw = .ok (s', p)) :
    Inv fd bufferSize payload s' := by
  have hinv' := Sched.pollCancellations_inv h.sched hs
  obtain ⟨w, rfl⟩ := Sched.pollCancellations_cases h.sched hs
  refine ⟨hinv', h.members, h.carried.post (fun _ _ => rfl) (fun op hop => ?_)⟩
  have hcancelled := h.sched.rep.cancelled op hop
  show (s.io.state op).result ≠ none ∧ succeeded fd s.io.state op = false
  rw [succeeded, hcancelled]
  simp [IoResult.isOk, cancelledResult]

/-- The second section transfers what its operations report. -/
theorem pollNotifications_inv (h : Inv fd bufferSize payload s) {tw : Nat}
    {events : List EpollEvent} {n : IoScheduler.Notify (StreamFd × K)}
    (hs : s.pollNotifications (streamKernel fd bufferSize payload M) tw events = .ok (s', n)) :
    Inv fd bufferSize payload s' := by
  have hinv' := Sched.pollNotifications_inv h.sched hs
  obtain ⟨st, done, hst, -, rfl, rfl⟩ := Sched.pollNotifications_cases h.sched hs
  refine ⟨hinv', h.members, ?_⟩
  refine (IoScheduler.processNotifications_items
    (fun t : IoScheduler.Notify (StreamFd × K) => (∀ x ∈ t.sched.operations, x ∈ s.scheduled) ∧
      Carried fd bufferSize payload (s.posted ++ t.posted) t.sched.state t.kernel.1)
    ?_ ?_ events (h.sched.rep.start s.kernel)
    ⟨fun x hx => h.sched.mem_operations hx, ?_⟩ hst).2
  · -- one operation of one event: what it transfers is what it reports
    rintro mask item t t' hfresh hmem ⟨hsub, hcarried⟩ hstep
    refine ⟨?_, hcarried.item (h.members item (hsub item hmem)) hfresh hstep⟩
    cases hstep with
    | skipped | pending => exact hsub
    | stored => exact fun x hx => hsub x (List.mem_of_mem_erase hx)
  · rintro t reg w total hP
    exact hP
  · show Carried _ _ _ (s.posted ++ []) s.io.state s.kernel.1
    rw [List.append_nil]
    exact h.carried

/-- **Every step keeps the books of the connection.** -/
theorem step_inv (h : Inv fd bufferSize payload s) {a : SchedAct (StreamFd × K)}
    (hok : OneConnection fd s a)
    (hs : Sched.step (streamKernel fd bufferSize payload M) s a = some s') :
    Inv fd bufferSize payload s' := by
  have hinv' := Sched.step_inv h.sched hs
  cases a with
  | schedule op =>
    obtain ⟨hnew, hs⟩ := Sched.step_schedule.mp hs
    exact schedule_inv h hok hnew hs
  | cancel n fuel =>
    obtain ⟨found, hs⟩ := Sched.step_cancel.mp hs
    exact cancel_inv h hs
  | pollCancellations tw =>
    obtain ⟨p, hs⟩ := Sched.step_pollCancellations.mp hs
    exact pollCancellations_inv h hs
  | pollNotifications events tw =>
    obtain ⟨n, hs⟩ := Sched.step_pollNotifications.mp hs
    exact pollNotifications_inv h hs
  -- the wake event and a closed descriptor are no part of the stream
  | wake tw | forget n =>
    rw [Sched.step, Option.some.injEq] at hs
    subst hs
    exact h.keep hinv' rfl rfl rfl (fun _ _ => rfl)
  | kernel k =>
    rw [Sched.step, Option.some.injEq] at hs
    subst hs
    -- the peer may have sent and received, on its own side
    exact ⟨hinv', h.members, h.carried.peer hok⟩

/-- **No byte is lost, duplicated or reordered.**  In every run on one connection, with any kernel
    that moves fewer bytes than asked for, fails or says "try again" as it likes, and with
    cancellations at any time: the calls that moved bytes are those of the operations that have
    completed with success, in the order in which they were posted; each result is the number of
    bytes moved, into a buffer that they fit in or from the front of what was to be written; the
    bytes of the reads, one after the other, are what has arrived up to what is still unread; and
    the bytes of the writes are what the peer has taken or will.  A cancelled or failed operation
    has moved none. -/
theorem stream_conserved (h : Reach fd bufferSize payload M s) :
    s.kernel.1.transfers.map Prod.fst = s.posted.filter (succeeded fd s.io.state) ∧
    (∀ p ∈ s.kernel.1.transfers, Reported bufferSize payload s.io.state p) ∧
    s.kernel.1.arrived = s.kernel.1.moved true ++ s.kernel.1.inbound ∧
    s.kernel.1.moved false = s.kernel.1.sent ++ s.kernel.1.outbound ∧
    ∀ op, succeeded fd s.io.state op = false → op ∉ s.kernel.1.transfers.map Prod.fst := by
  have hinv : Inv fd bufferSize payload s :=
    Transition.Reach.invariant (Inv fd bufferSize payload) (fun _ => start_inv)
      (fun _ _ _ hi hok hs => step_inv hi hok hs) h
  refine ⟨hinv.carried.order, hinv.carried.exact, hinv.carried.arrived, hinv.carried.accepted, ?_⟩
  intro op hop hmem
  rw [hinv.carried.order] at hmem
  have hsucc := (List.mem_filter.mp hmem).2
  rw [hop] at hsucc
  exact absurd hsucc (by simp)

instance (fd : Int) (s : Sched (StreamFd × Unit)) (a : SchedAct (StreamFd × Unit)) :
    Decidable (OneConnection fd s a) :=
  match a with
  | .schedule op => inferInstanceAs (Decidable (Member fd op))
  | .kernel k => inferInstanceAs (Decidable (StreamFd.Peer s.kernel.1 k.1))
  | .cancel _ _ => isTrue trivial
  | .pollCancellations _ => isTrue trivial
  | .pollNotifications _ _ => isTrue trivial
  | .wake _ => isTrue trivial
  | .forget _ => isTrue trivial

/-- A kernel whose calls move at most two bytes. -/
def shortKernel : Kernel Unit where
  syscall := fun _ _ => (⟨.ok 2, 0⟩, ())
  isOpen := fun _ _ => true

/-- Five bytes arrive; of the reads into four, the first gets two, the second is cancelled, and the
    third gets the two after those. -/
theorem stream_conserved_short :
    ∃ s : Sched (StreamFd × Unit), s.kernel.1.arrived = [1, 2, 3, 4, 5] ∧
      s.kernel.1.inbound = [5] ∧ s.kernel.1.arrived = s.kernel.1.moved true ++ [5] ∧
      s.kernel.1.transfers.map Prod.fst
        = s.posted.filter (succeeded 5 s.io.state) ∧
      ⟨2, 5, .ioRead⟩ ∉ s.kernel.1.transfers.map Prod.fst := by
  have hrun : ∃ s, Reach 5 (fun _ => 4) (fun _ => []) shortKernel s ∧
      decide (s.kernel.1.arrived = [1, 2, 3, 4, 5] ∧ s.kernel.1.inbound = [5] ∧
        succeeded 5 s.io.state ⟨2, 5, .ioRead⟩ = false) = true :=
    Transition.exists_reach ⟨0, (), rfl⟩
      [.kernel (⟨[1, 2, 3], [], false, [1, 2, 3], [], []⟩, ()),
        .schedule ⟨1, 5, .ioRead⟩, .pollNotifications [⟨5, EPOLLIN⟩] 0,
        .schedule ⟨2, 5, .ioRead⟩, .cancel 5 2,
        .kernel (⟨[3, 4, 5], [], false, [1, 2, 3, 4, 5], [], [(⟨1, 5, .ioRead⟩, [1, 2])]⟩, ()),
        .schedule ⟨3, 5, .receiveMessage⟩, .pollCancellations 0,
        .pollNotifications [⟨5, EPOLLIN⟩] 0] _ (by decide)
  obtain ⟨s, hs, hend⟩ := hrun
  obtain ⟨harrived, hinbound, hcancelled⟩ := of_decide_eq_true hend
  have hlaw := stream_conserved hs
  exact ⟨s, harrived, hinbound, hinbound ▸ hlaw.2.2.1, hlaw.1, hlaw.2.2.2.2 _ hcancelled⟩

end Stream

end Exios
