import Exios.Base.Integral
import Exios.Utils

namespace Exios

open IntegralType
open Utils (parseIpv4 DottedQuad numeral)

/-!
# Internet addresses — `reverse_byte_order` and the `sockaddr_in` of each path

Five functions fill a `sockaddr_in` from a text and a port: the two `connect`s, `bind`, `send_to`
and the constructor of the acceptor.  All of them run the statements of `inetAddress`; the port
of `send_to` is a `std::int16_t`, that of the others a `std::uint16_t`.

* `bytes_reverseByteOrder` — `reverse_byte_order` reverses the object representation;
* `inetAddress_ok` — on a dotted quad and a port, the result is `SockaddrIn.wire`, whether the
  port parameter is signed or not;
* `SockaddrIn.memory_wire` — which has the octets and the port in network order;
* `addresses_network_order` — all five paths hand over that address.
-/

/-! ### `reverse_byte_order` -/

/-- `reverse_byte_order(val)`.  The array `bytes` is not initialised; what it starts from does
    not matter (`Buffer.copyBack_eq`). -/
def reverseByteOrder {T : IntegralType} (val : T.Value) : T.Value :=
  let bytes := (Buffer.ofCells (List.replicate T.size 0)).copyBack T.size val.bytes
  T.ofBytes bytes.cells

/-- **`reverse_byte_order` reverses the bytes**, for every integral type. -/
theorem bytes_reverseByteOrder {T : IntegralType} (val : T.Value) :
    (reverseByteOrder val).bytes = val.bytes.reverse := by
  have hcopy := @Buffer.copyBack_eq _ (List.replicate T.size 0) val.bytes [] [] (by simp)
  rw [List.append_nil, List.length_replicate, List.append_nil] at hcopy
  rw [reverseByteOrder, Buffer.ofCells, hcopy]
  exact bytes_ofBytes (by simp)

/-- `reverse_byte_order` is its own inverse. -/
theorem reverseByteOrder_reverseByteOrder {T : IntegralType} (val : T.Value) :
    reverseByteOrder (reverseByteOrder val) = val := by
  apply Value.bytes_injective
  rw [bytes_reverseByteOrder, bytes_reverseByteOrder, List.reverse_reverse]

/-! ### `sockaddr_in` -/

/-- `sockaddr_in`. -/
structure SockaddrIn where
  sinFamily : uint16.Value
  sinPort : uint16.Value
  /-- `sin_addr.s_addr`. -/
  sinAddr : uint32.Value
  sinZero : List (BitVec 8)

/-- `sockaddr_in addr {}`. -/
def SockaddrIn.zero : SockaddrIn :=
  ⟨uint16.ofInt 0, uint16.ofInt 0, uint32.ofInt 0, List.replicate 8 0⟩

/-- The object in memory: its members one behind the other. -/
def SockaddrIn.memory (addr : SockaddrIn) : List (BitVec 8) :=
  addr.sinFamily.bytes ++ addr.sinPort.bytes ++ addr.sinAddr.bytes ++ addr.sinZero

/-- `AF_INET`. -/
def AF_INET : Int := 2

/-- How a function that fills an address fails. -/
inductive AddressError
  /-- An exception of `parse_ipv4`. -/
  | parseIpv4 (e : Utils.Thrown)
  /-- `parse_ipv4` has stored behind its array. -/
  | undefined
  /-- `std::system_error` from `errno`. -/
  | systemError (errno : Nat)
deriving DecidableEq, Repr

/-- `parse_ipv4(address)` as a value of its return type. -/
def parsedAddress (octets : Nat → BitVec 8) (address : List UInt8) :
    Except AddressError uint32.Value :=
  match parseIpv4 octets address with
  | .returned v => .ok (uint32.ofInt v.toNat)
  | .threw e => .error (.parseIpv4 e)
  | .undefined => .error .undefined

/-- The statements that fill `addr`, for a port parameter of type `P`; `octets` is the memory
    that `parse_ipv4` finds. -/
def inetAddress {P : IntegralType} (octets : Nat → BitVec 8) (port : P.Value)
    (address : List UInt8) : Except AddressError SockaddrIn := do
  let addr := { SockaddrIn.zero with sinFamily := uint16.ofInt AF_INET }
  let ip ← parsedAddress octets address
  let addr := { addr with sinAddr := reverseByteOrder ip }
  pure { addr with sinPort := (reverseByteOrder port).convert uint16 }

/-- The I/O operations that are constructed from an address. -/
inductive NetOperation
  | netConnect (fd : Int) (addr : SockaddrIn)
  | netSendTo (fd : Int) (buffer : List UInt8) (addr : SockaddrIn)

/-- `TcpSocket::connect`: the operation it schedules. -/
def TcpSocket.connect (octets : Nat → BitVec 8) (fd : Int) (address : List UInt8)
    (port : uint16.Value) : Except AddressError NetOperation := do
  let addr ← inetAddress octets port address
  pure (.netConnect fd addr)

/-- `UdpSocket::connect`: the operation it schedules. -/
def UdpSocket.connect (octets : Nat → BitVec 8) (fd : Int) (address : List UInt8)
    (port : uint16.Value) : Except AddressError NetOperation := do
  let addr ← inetAddress octets port address
  pure (.netConnect fd addr)

/-- `UdpSocket::send_to`: the operation it schedules.  Its `port` is a `std::int16_t`. -/
def UdpSocket.sendTo (octets : Nat → BitVec 8) (fd : Int) (buffer : List UInt8)
    (address : List UInt8) (port : int16.Value) : Except AddressError NetOperation := do
  let addr ← inetAddress octets port address
  pure (.netSendTo fd buffer addr)

/-! ### System calls -/

/-- The system calls on a socket. -/
inductive SocketCall (α : Type)
  | socket
  | setsockopt (fd : Int)
  | bind (fd : Int) (addr : α)
  | listen (fd : Int)

/-- What the system calls on a socket with addresses in `α` return. -/
structure SocketCalls (α : Type) where
  socket : Int
  setsockopt : Int
  bind : α → Int
  listen : Int
  errno : Nat

/-- `UdpSocket::bind(port, address)`. -/
def UdpSocket.bind (octets : Nat → BitVec 8) (sys : SocketCalls SockaddrIn) (fd : Int)
    (port : uint16.Value) (address : List UInt8) :
    List (SocketCall SockaddrIn) × Except AddressError Unit :=
  match inetAddress octets port address with
  | .error e => ([], .error e)
  | .ok addr =>
    if sys.bind addr < 0 then ([.bind fd addr], .error (.systemError sys.errno))
    else ([.bind fd addr], .ok ())

/-- A `TcpSocketAcceptor`. -/
structure TcpSocketAcceptor where
  fd : Int
  addr : SockaddrIn

/-- The statements of an acceptor's constructor from `::bind` on, behind the system calls in
    `calls`; `acceptor` is the object that is being constructed. -/
def SocketCalls.bindAndListen {α β : Type} (sys : SocketCalls α) (calls : List (SocketCall α))
    (addr : α) (acceptor : β) : List (SocketCall α) × Except AddressError β :=
  let fd := sys.socket
  if sys.bind addr < 0 then (calls ++ [.bind fd addr], .error (.systemError sys.errno))
  else if sys.listen < 0 then
    (calls ++ [.bind fd addr, .listen fd], .error (.systemError sys.errno))
  else (calls ++ [.bind fd addr, .listen fd], .ok acceptor)

/-- The constructor `TcpSocketAcceptor(ctx, port, address)`: the system calls it makes, and the
    object. -/
def TcpSocketAcceptor.make (octets : Nat → BitVec 8) (sys : SocketCalls SockaddrIn)
    (port : uint16.Value) (address : List UInt8) :
    List (SocketCall SockaddrIn) × Except AddressError TcpSocketAcceptor :=
  let fd := sys.socket
  if fd < 0 then ([.socket], .error (.systemError sys.errno))
  else if sys.setsockopt ≠ 0 then
    ([.socket, .setsockopt fd], .error (.systemError sys.errno))
  else
    match inetAddress octets port address with
    | .error e => ([.socket, .setsockopt fd], .error e)
    | .ok addr => sys.bindAndListen [.socket, .setsockopt fd] addr ⟨fd, addr⟩

/-- The text `0.0.0.0`: the default of `UdpSocket::bind`, and the address of the constructor
    `TcpSocketAcceptor(ctx, port)`. -/
def anyAddress : List UInt8 := [48, 46, 48, 46, 48, 46, 48]

/-- The constructor `TcpSocketAcceptor(ctx, port)`. -/
def TcpSocketAcceptor.makeAny (octets : Nat → BitVec 8) (sys : SocketCalls SockaddrIn)
    (port : uint16.Value) : List (SocketCall SockaddrIn) × Except AddressError TcpSocketAcceptor :=
  TcpSocketAcceptor.make octets sys port anyAddress

/-- `TcpSocketAcceptor::port()`. -/
def TcpSocketAcceptor.port (acceptor : TcpSocketAcceptor) : uint16.Value :=
  reverseByteOrder acceptor.addr.sinPort

/-! ### Network order -/

/-- The address with the octets `a`, `b`, `c`, `d` and the port in network order. -/
def SockaddrIn.wire (a b c d port : Nat) : SockaddrIn :=
  { SockaddrIn.zero with
    sinFamily := uint16.ofInt AF_INET
    sinPort := uint16.ofBytes ([port / 256, port % 256].map (BitVec.ofNat 8))
    sinAddr := uint32.ofBytes ([a, b, c, d].map (BitVec.ofNat 8)) }

/-- What `SockaddrIn.wire` has in memory. -/
theorem SockaddrIn.memory_wire (a b c d port : Nat) :
    (SockaddrIn.wire a b c d port).memory
      = ([2, 0, port / 256, port % 256, a, b, c, d] ++ List.replicate 8 0).map (BitVec.ofNat 8) := by
  have hport := @bytes_ofBytes uint16 ([port / 256, port % 256].map (BitVec.ofNat 8)) rfl
  have haddr := @bytes_ofBytes uint32 ([a, b, c, d].map (BitVec.ofNat 8)) rfl
  have hfamily : (uint16.ofInt AF_INET).bytes = [2, 0].map (BitVec.ofNat 8) := by decide
  rw [SockaddrIn.memory, SockaddrIn.wire, hport, haddr, hfamily]
  rfl

/-- The port as it is stored: its two bytes, the high one first, for every port type of two
    bytes. -/
theorem reverseByteOrder_port {P : IntegralType} (hP : P.size = 2) {port : Nat}
    (hport : port ≤ 65535) :
    (reverseByteOrder (P.ofInt port)).convert uint16
      = uint16.ofBytes ([port / 256, port % 256].map (BitVec.ofNat 8)) := by
  have hmod : P.modulus = 65536 := by
    rw [modulus, hP]
    rfl
  have hres : ((port : Int) % P.modulus).toNat = port := by
    rw [hmod]
    omega
  -- little endian: the low byte of the port comes first, and 65535 fits in the two
  have hbytes : (P.ofInt port).bytes = [port % 256, port / 256].map (BitVec.ofNat 8) := by
    rw [bytes_ofInt, hres]
    apply Bytes.le_eq_of_value hP
    simp only [List.map_cons, List.map_nil, Bytes.value_cons, Bytes.value_nil,
      BitVec.toNat_ofNat]
    omega
  apply Value.bytes_injective
  -- reversed, that is network order
  rw [Value.bytes_convert hP.symm, bytes_reverseByteOrder, hbytes, bytes_ofBytes rfl]
  rfl

/-- The address as it is stored: the octets in the order of the text. -/
theorem parsedAddress_ok (octets : Nat → BitVec 8) {address a b c d : List UInt8}
    (h : DottedQuad address a b c d) :
    ∃ ip, parsedAddress octets address = .ok ip ∧ reverseByteOrder ip
      = uint32.ofBytes ([numeral a, numeral b, numeral c, numeral d].map (BitVec.ofNat 8)) := by
  obtain ⟨hquad, ha, hb, hc, hd⟩ := h
  -- the octets as the digits of the returned number, the last one least significant
  let digits := [numeral d, numeral c, numeral b, numeral a].map (BitVec.ofNat 8)
  have hdigits : Bytes.value digits
      = numeral a * 2 ^ 24 + numeral b * 2 ^ 16 + numeral c * 2 ^ 8 + numeral d := by
    simp only [digits, List.map_cons, List.map_nil, Bytes.value_cons, Bytes.value_nil,
      BitVec.toNat_ofNat]
    omega
  have hlt : Bytes.value digits < 2 ^ 32 := by
    rw [hdigits]
    omega
  have hreturned : parseIpv4 octets address = .returned (BitVec.ofNat 32 (Bytes.value digits)) := by
    apply (Utils.parseIpv4_returned octets address _).mpr
    refine ⟨a, b, c, d, hquad, ?_⟩
    rw [BitVec.toNat_ofNat, Nat.mod_eq_of_lt hlt, hdigits]
    omega
  refine ⟨uint32.ofInt (Bytes.value digits), ?_, ?_⟩
  · rw [parsedAddress, hreturned]
    simp only [BitVec.toNat_ofNat, Nat.mod_eq_of_lt hlt]
  · apply Value.bytes_injective
    have hbytes : (uint32.ofBytes digits).bytes = digits := bytes_ofBytes rfl
    rw [bytes_reverseByteOrder, bytes_ofBytes rfl]
    rw [ofBytes] at hbytes
    rw [hbytes]
    rfl

/-- **What every path stores.**  The type of the port parameter only has to be two bytes
    wide. -/
theorem inetAddress_ok (octets : Nat → BitVec 8) {P : IntegralType} (hP : P.size = 2)
    {address a b c d : List UInt8} (h : DottedQuad address a b c d) {port : Nat}
    (hport : port ≤ 65535) :
    inetAddress octets (P.ofInt port) address
      = .ok (.wire (numeral a) (numeral b) (numeral c) (numeral d) port) := by
  obtain ⟨ip, hparsed, hip⟩ := parsedAddress_ok octets h
  -- the structure as `parse_address` and the byte order conversions fill it
  have hfilled : inetAddress octets (P.ofInt port) address = .ok { SockaddrIn.zero with
      sinFamily := uint16.ofInt AF_INET
      sinAddr := reverseByteOrder ip
      sinPort := (reverseByteOrder (P.ofInt port)).convert uint16 } := by
    rw [inetAddress, hparsed]
    rfl
  rw [hfilled, hip, reverseByteOrder_port hP hport, SockaddrIn.wire]

/-- **`UdpSocket::bind`**, once its address is filled. -/
theorem UdpSocket.bind_of_address {octets : Nat → BitVec 8} (sys : SocketCalls SockaddrIn)
    (fd : Int) {port : uint16.Value} {address : List UInt8} {addr : SockaddrIn}
    (h : inetAddress octets port address = .ok addr) :
    UdpSocket.bind octets sys fd port address
      = ([.bind fd addr],
          if sys.bind addr < 0 then .error (.systemError sys.errno) else .ok ()) := by
  rw [UdpSocket.bind, h]
  by_cases hfail : sys.bind addr < 0
  · simp only [if_pos hfail]
  · simp only [if_neg hfail]

/-- The construction of an acceptor binds `addr`, and no other address, if it gets past the
    statements in front of `::bind`; `kept` is the address that the object keeps. -/
structure Binds {α β : Type} (ready : Prop) (sys : SocketCalls α) (kept : β → α) (addr : α)
    (run : List (SocketCall α) × Except AddressError β) : Prop where
  bound : ready → .bind sys.socket addr ∈ run.1
  only : ∀ fd addr', .bind fd addr' ∈ run.1 → addr' = addr
  /-- The object is constructed if the system calls succeed. -/
  made : ready → 0 ≤ sys.bind addr → 0 ≤ sys.listen → ∃ acceptor, run.2 = .ok acceptor
  /-- A constructed object has bound the address that it keeps. -/
  keeps : ∀ acceptor, run.2 = .ok acceptor → ready ∧ kept acceptor = addr

/-- The statements from `::bind` on. -/
theorem SocketCalls.bindAndListen_binds {α β : Type} {ready : Prop} (hready : ready)
    (sys : SocketCalls α) {kept : β → α} {calls : List (SocketCall α)} {addr : α} {acceptor : β}
    (hcalls : ∀ fd addr', .bind fd addr' ∉ calls) (hkept : kept acceptor = addr) :
    Binds ready sys kept addr (sys.bindAndListen calls addr acceptor) := by
  rw [bindAndListen]
  by_cases hbind : sys.bind addr < 0
  · rw [if_pos hbind]
    exact ⟨by simp, by simp [hcalls], by omega, by simp⟩
  · rw [if_neg hbind]
    split
    · exact ⟨by simp, by simp [hcalls], by omega, by simp⟩
    · exact ⟨by simp, by simp [hcalls], by simp, by simp [hready, hkept]⟩

/-- A construction that gives up in front of `::bind`. -/
theorem Binds.of_error {α β : Type} {ready : Prop} (hready : ¬ ready) (sys : SocketCalls α)
    {kept : β → α} {calls : List (SocketCall α)} {addr : α} (e : AddressError)
    (hcalls : ∀ fd addr', .bind fd addr' ∉ calls) :
    Binds ready sys kept addr (calls, .error e) :=
  ⟨fun h => absurd h hready, fun fd addr' h => absurd h (hcalls fd addr'),
    fun h => absurd h hready, by simp⟩

/-- **The acceptor**, once its address is filled. -/
theorem TcpSocketAcceptor.make_binds {octets : Nat → BitVec 8} (sys : SocketCalls SockaddrIn)
    {port : uint16.Value} {address : List UInt8} {addr : SockaddrIn}
    (h : inetAddress octets port address = .ok addr) :
    Binds (0 ≤ sys.socket ∧ sys.setsockopt = 0) sys TcpSocketAcceptor.addr addr
      (make octets sys port address) := by
  rw [make, h]
  by_cases hsocket : sys.socket < 0
  · rw [if_pos hsocket]
    exact Binds.of_error (by omega) sys _ (by simp)
  · rw [if_neg hsocket]
    by_cases hopt : sys.setsockopt = 0
    · rw [if_neg (not_not.mpr hopt)]
      -- `SO_REUSEADDR` is set, so `bind` is reached
      exact sys.bindAndListen_binds ⟨by omega, hopt⟩ (by simp) rfl
    · rw [if_pos hopt]
      exact Binds.of_error (fun hready => hopt hready.2) sys _ (by simp)

/-- **Without an address** the acceptor binds `0.0.0.0`. -/
theorem TcpSocketAcceptor.makeAny_binds (octets : Nat → BitVec 8) (sys : SocketCalls SockaddrIn)
    {port : Nat} (hport : port ≤ 65535) :
    Binds (0 ≤ sys.socket ∧ sys.setsockopt = 0) sys TcpSocketAcceptor.addr (.wire 0 0 0 0 port)
      (makeAny octets sys (uint16.ofInt port)) := by
  have hquad : DottedQuad anyAddress [48] [48] [48] [48] :=
    ⟨⟨rfl, by decide, by decide, by decide, by decide⟩, by decide, by decide, by decide,
      by decide⟩
  exact make_binds sys (inetAddress_ok octets (P := uint16) rfl hquad hport)

/-- A port is a value of `std::uint16_t`. -/
theorem uint16_ofInt_val {port : Nat} (hport : port ≤ 65535) : (uint16.ofInt port).val = port := by
  have hfits : uint16.Fits port := by
    rw [Fits, if_neg (by decide), show uint16.modulus = 65536 from rfl]
    omega
  exact wrap_of_fits hfits

/-- **`TcpSocketAcceptor::port()`** undoes the reversal. -/
theorem TcpSocketAcceptor.port_val {acceptor : TcpSocketAcceptor} {a b c d port : Nat}
    (h : acceptor.addr = .wire a b c d port) (hport : port ≤ 65535) :
    acceptor.port.val = port := by
  have hstored : acceptor.addr.sinPort = reverseByteOrder (uint16.ofInt port) := by
    rw [h, SockaddrIn.wire, ← reverseByteOrder_port (P := uint16) rfl hport]
    exact Value.convert_self _
  rw [TcpSocketAcceptor.port, hstored, reverseByteOrder_reverseByteOrder, uint16_ofInt_val hport]

/-- On a dotted quad and a port from 0 to 65535, all five paths hand over one address, which has
    the octets and the port in network order in memory; the acceptor reports the port, and
    `reverse_byte_order` is its own inverse. -/
theorem addresses_network_order (octets : Nat → BitVec 8) (sys : SocketCalls SockaddrIn) (fd : Int)
    (buffer : List UInt8) {address a b c d : List UInt8} (h : DottedQuad address a b c d)
    {port : Nat} (hport : port ≤ 65535) :
    (∃ s : SockaddrIn,
      s.memory = ([2, 0, port / 256, port % 256, numeral a, numeral b, numeral c, numeral d]
        ++ List.replicate 8 0).map (BitVec.ofNat 8) ∧
      s.sinPort.bytes = [port / 256, port % 256].map (BitVec.ofNat 8) ∧
      s.sinAddr.bytes = [numeral a, numeral b, numeral c, numeral d].map (BitVec.ofNat 8) ∧
      TcpSocket.connect octets fd address (uint16.ofInt port) = .ok (.netConnect fd s) ∧
      UdpSocket.connect octets fd address (uint16.ofInt port) = .ok (.netConnect fd s) ∧
      UdpSocket.sendTo octets fd buffer address (int16.ofInt port)
        = .ok (.netSendTo fd buffer s) ∧
      UdpSocket.bind octets sys fd (uint16.ofInt port) address
        = ([.bind fd s], if sys.bind s < 0 then .error (.systemError sys.errno) else .ok ()) ∧
      Binds (0 ≤ sys.socket ∧ sys.setsockopt = 0) sys TcpSocketAcceptor.addr s
        (TcpSocketAcceptor.make octets sys (uint16.ofInt port) address) ∧
      (∀ acceptor, (TcpSocketAcceptor.make octets sys (uint16.ofInt port) address).2 = .ok acceptor →
        acceptor.port.val = port)) ∧
    (∀ (T : IntegralType) (v : T.Value), reverseByteOrder (reverseByteOrder v) = v) := by
  -- the port is unsigned in `connect` and `bind`, a signed short in `send_to`
  have hunsigned := inetAddress_ok octets (P := uint16) rfl h hport
  have hsigned := inetAddress_ok octets (P := int16) rfl h hport
  have hbinds := TcpSocketAcceptor.make_binds sys hunsigned
  refine ⟨⟨_, SockaddrIn.memory_wire _ _ _ _ _, bytes_ofBytes rfl, bytes_ofBytes rfl, ?_, ?_, ?_, ?_,
    hbinds, ?_⟩, fun T v => reverseByteOrder_reverseByteOrder v⟩
  · rw [TcpSocket.connect, hunsigned]
    rfl
  · rw [UdpSocket.connect, hunsigned]
    rfl
  · rw [UdpSocket.sendTo, hsigned]
    rfl
  · exact UdpSocket.bind_of_address sys fd hunsigned
  · -- the acceptor remembers the port in the address it was bound to
    intro acceptor hok
    exact TcpSocketAcceptor.port_val (hbinds.keeps acceptor hok).2 hport

/-- The text `192.168.000.255`. -/
def paddedQuad : List UInt8 := [49, 57, 50, 46, 49, 54, 56, 46, 48, 48, 48, 46, 50, 53, 53]

/-- High octets, and a port that is negative as a `std::int16_t`. -/
theorem addresses_network_order_paddedQuad :
    (int16.ofInt 50000).val = -15536 ∧ ∃ s : SockaddrIn,
      s.memory = [2, 0, 195, 80, 192, 168, 0, 255, 0, 0, 0, 0, 0, 0, 0, 0] ∧
      UdpSocket.sendTo (fun _ => 0) 3 [] paddedQuad (int16.ofInt 50000)
        = .ok (.netSendTo 3 [] s) := by
  have hquad : DottedQuad paddedQuad [49, 57, 50] [49, 54, 56] [48, 48, 48] [50, 53, 53] :=
    ⟨⟨rfl, by decide, by decide, by decide, by decide⟩, by decide, by decide, by decide,
      by decide⟩
  obtain ⟨⟨s, hmemory, _, _, _, _, hsend, _⟩, _⟩ :=
    addresses_network_order (fun _ => 0) ⟨3, 0, fun _ => 0, 0, 0⟩ 3 [] hquad
      (show 50000 ≤ 65535 by decide)
  exact ⟨by decide, s, hmemory.trans (by decide), hsend⟩

end Exios
