import Exios.Addresses.Inet
import Exios.Contracts

namespace Exios

open IntegralType

/-!
# Abstract Unix addresses — `UnixSocketAcceptor` and `UnixConnect`

Both constructors check the length of the name and then fill a `sockaddr_un` in place: a NUL
byte at `sun_path[0]`, and the name behind it.  The system calls get `sizeof(addr_)` as the
length, so the kernel sees the whole of `sun_path`.  `sun_path` is a `Buffer`, which keeps the
indices of the stores.

* `sunPath_abstractAddress` — the name ends up padded with NUL bytes, and no store leaves
  `sun_path`;
* `memory_abstractAddress_eq_iff` — addresses agree exactly if the padded names do;
* `UnixSocketAcceptor.name_eq` — `name()` is the padded name.
-/

/-- `sizeof(addr_.sun_path)`. -/
def SUN_PATH_SIZE : Nat := 108

/-- `AF_UNIX`. -/
def AF_UNIX : Int := 1

/-- `sockaddr_un`. -/
structure SockaddrUn where
  sunFamily : uint16.Value
  sunPath : Buffer (BitVec 8)

/-- `addr_ {}`. -/
def SockaddrUn.zero : SockaddrUn :=
  ⟨uint16.ofInt 0, .ofCells (List.replicate SUN_PATH_SIZE 0)⟩

/-- The `sizeof(addr_)` bytes of the object in memory. -/
def SockaddrUn.memory (addr : SockaddrUn) : List (BitVec 8) :=
  addr.sunFamily.bytes ++ addr.sunPath.cells

/-- The statements that fill `addr_` with a name, in both constructors. -/
def abstractAddress (name : List (BitVec 8)) : SockaddrUn :=
  let addr := { SockaddrUn.zero with sunFamily := uint16.ofInt AF_UNIX }
  let addr := { addr with sunPath := addr.sunPath.store 0 0 }
  { addr with sunPath := addr.sunPath.copy 1 name }

/-- A `UnixConnect` operation; `io` passes `addr_` to `::connect`. -/
structure UnixConnect where
  addr : SockaddrUn

/-- The constructor `UnixConnect(name)`. -/
def UnixConnect.make (name : List (BitVec 8)) : Except Contract UnixConnect :=
  if name.length < SUN_PATH_SIZE then .ok ⟨abstractAddress name⟩ else .error .nameTooLong

/-- A `UnixSocketAcceptor`. -/
structure UnixSocketAcceptor where
  fd : Int
  addr : SockaddrUn

/-- The constructor `UnixSocketAcceptor(ctx, abstract_name)`: the system calls it makes, and the
    object.  The check comes in front of the test of the descriptor. -/
def UnixSocketAcceptor.make (sys : SocketCalls SockaddrUn) (abstractName : List (BitVec 8)) :
    Except Contract (List (SocketCall SockaddrUn) × Except AddressError UnixSocketAcceptor) :=
  let fd := sys.socket
  if abstractName.length < SUN_PATH_SIZE then
    if fd < 0 then .ok ([.socket], .error (.systemError sys.errno))
    else
      let addr := abstractAddress abstractName
      .ok (sys.bindAndListen [.socket] addr ⟨fd, addr⟩)
  else .error .nameTooLong

/-- `UnixSocketAcceptor::name()`: the bytes from `addr_.sun_path + 1` on. -/
def UnixSocketAcceptor.name (acceptor : UnixSocketAcceptor) : List (BitVec 8) :=
  (acceptor.addr.sunPath.cells.drop 1).take (SUN_PATH_SIZE - 1)

/-! ### The filled address -/

/-- **The path**: the padded name behind a NUL byte, and the stores at the indices up to the
    length of the name. -/
theorem sunPath_abstractAddress {name : List (BitVec 8)} (h : name.length < SUN_PATH_SIZE) :
    (abstractAddress name).sunPath
      = ⟨0 :: name.rightpad (SUN_PATH_SIZE - 1) 0, 0 :: List.range' 1 name.length⟩ := by
  -- `sun_path` is zeroed; its first byte stays zero and the name goes behind it
  have hcells : (List.replicate SUN_PATH_SIZE (0 : BitVec 8)).set 0 0
      = [0] ++ List.replicate name.length 0
        ++ List.replicate (SUN_PATH_SIZE - 1 - name.length) 0 := by
    have hsplit : List.replicate (SUN_PATH_SIZE - 1) (0 : BitVec 8)
        = List.replicate name.length 0 ++ List.replicate (SUN_PATH_SIZE - 1 - name.length) 0 := by
      rw [List.replicate_append_replicate]
      congr 1
      omega
    exact congrArg (List.cons 0) hsplit
  have hcopy := Buffer.copy_eq [(0 : BitVec 8)]
    (List.replicate (SUN_PATH_SIZE - 1 - name.length) 0) [0]
    (List.length_replicate : (List.replicate name.length (0 : BitVec 8)).length = name.length)
  have hfill : (abstractAddress name).sunPath
      = Buffer.copy ⟨(List.replicate SUN_PATH_SIZE (0 : BitVec 8)).set 0 0, [0]⟩ 1 name := rfl
  rw [hfill, hcells]
  exact hcopy

theorem length_rightpad_name {name : List (BitVec 8)} (h : name.length < SUN_PATH_SIZE) :
    (name.rightpad (SUN_PATH_SIZE - 1) 0).length = SUN_PATH_SIZE - 1 := by
  rw [List.length_rightpad]
  omega

/-- No store leaves `sun_path`. -/
theorem inBounds_abstractAddress {name : List (BitVec 8)} (h : name.length < SUN_PATH_SIZE) :
    (abstractAddress name).sunPath.InBounds := by
  rw [sunPath_abstractAddress h]
  intro i hi
  rw [List.length_cons, length_rightpad_name h]
  rcases List.mem_cons.mp hi with rfl | hi
  · omega
  · rw [List.mem_range'_1] at hi
    omega

/-- The object in memory. -/
theorem memory_abstractAddress {name : List (BitVec 8)} (h : name.length < SUN_PATH_SIZE) :
    (abstractAddress name).memory
      = (uint16.ofInt AF_UNIX).bytes ++ 0 :: name.rightpad (SUN_PATH_SIZE - 1) 0 := by
  rw [SockaddrUn.memory, sunPath_abstractAddress h]
  rfl

/-- **Addresses agree exactly if the padded names do.** -/
theorem memory_abstractAddress_eq_iff {n m : List (BitVec 8)} (hn : n.length < SUN_PATH_SIZE)
    (hm : m.length < SUN_PATH_SIZE) :
    (abstractAddress n).memory = (abstractAddress m).memory ↔
      n.rightpad (SUN_PATH_SIZE - 1) 0 = m.rightpad (SUN_PATH_SIZE - 1) 0 := by
  rw [memory_abstractAddress hn, memory_abstractAddress hm, List.append_cancel_left_eq,
    List.cons_inj_right]

/-! ### The two ends -/

/-- `UnixConnect` accepts a name that fits behind the NUL byte. -/
theorem UnixConnect.make_ok {name : List (BitVec 8)} (h : name.length < SUN_PATH_SIZE) :
    UnixConnect.make name = .ok ⟨abstractAddress name⟩ := if_pos h

/-- **The acceptor** of a name that fits binds its address and keeps it. -/
theorem UnixSocketAcceptor.make_binds (sys : SocketCalls SockaddrUn) {name : List (BitVec 8)}
    (h : name.length < SUN_PATH_SIZE) :
    ∃ run, UnixSocketAcceptor.make sys name = .ok run ∧
      Binds (0 ≤ sys.socket) sys UnixSocketAcceptor.addr (abstractAddress name) run := by
  rw [make, if_pos h]
  by_cases hsocket : sys.socket < 0
  · rw [if_pos hsocket]
    exact ⟨_, rfl, Binds.of_error (by omega) sys _ (by simp)⟩
  · rw [if_neg hsocket]
    exact ⟨_, rfl, sys.bindAndListen_binds (by omega) (by simp) rfl⟩

/-- **`name()`** is the padded name. -/
theorem UnixSocketAcceptor.name_eq {acceptor : UnixSocketAcceptor} {name : List (BitVec 8)}
    (h : name.length < SUN_PATH_SIZE) (haddr : acceptor.addr = abstractAddress name) :
    acceptor.name = name.rightpad (SUN_PATH_SIZE - 1) 0 := by
  rw [UnixSocketAcceptor.name, haddr, sunPath_abstractAddress h]
  apply List.take_of_length_le
  rw [List.drop_one, List.tail_cons, length_rightpad_name h]

/-- Padding a padded name adds nothing. -/
theorem rightpad_rightpad_name {name : List (BitVec 8)} (h : name.length < SUN_PATH_SIZE) :
    (name.rightpad (SUN_PATH_SIZE - 1) 0).rightpad (SUN_PATH_SIZE - 1) 0
      = name.rightpad (SUN_PATH_SIZE - 1) (0 : BitVec 8) := by
  have hfull := length_rightpad_name h
  rw [List.rightpad, hfull, Nat.sub_self, List.replicate_zero, List.append_nil]

/-- The two ends of an abstract name, for all names shorter than `sun_path`: the bound and the
    connected address agree exactly if the padded names do, the stores stay in `sun_path`, and
    `name()` leads back to the bound address. -/
theorem abstract_names_agree (sys : SocketCalls SockaddrUn) {n m : List (BitVec 8)}
    (hn : n.length < SUN_PATH_SIZE) (hm : m.length < SUN_PATH_SIZE) :
    ∃ run connect, UnixSocketAcceptor.make sys n = .ok run ∧ UnixConnect.make m = .ok connect ∧
      (0 ≤ sys.socket → ∃ bound, .bind sys.socket bound ∈ run.1) ∧
      (∀ fd bound, .bind fd bound ∈ run.1 → bound.sunPath.InBounds ∧
        (bound.memory = connect.addr.memory ↔
          n.rightpad (SUN_PATH_SIZE - 1) 0 = m.rightpad (SUN_PATH_SIZE - 1) 0)) ∧
      connect.addr.sunPath.InBounds ∧
      (0 ≤ sys.socket → (∀ addr, 0 ≤ sys.bind addr) → 0 ≤ sys.listen →
        ∃ acceptor, run.2 = .ok acceptor) ∧
      (∀ acceptor, run.2 = .ok acceptor → .bind sys.socket acceptor.addr ∈ run.1 ∧
        ∃ connect', UnixConnect.make acceptor.name = .ok connect' ∧
          connect'.addr.memory = acceptor.addr.memory) := by
  obtain ⟨run, hrun, hbinds⟩ := UnixSocketAcceptor.make_binds sys hn
  refine ⟨run, _, hrun, UnixConnect.make_ok hm, fun hsocket => ⟨_, hbinds.bound hsocket⟩, ?_,
    inBounds_abstractAddress hm, fun hsocket hbind => hbinds.made hsocket (hbind _), ?_⟩
  · intro fd bound hcall
    obtain rfl := hbinds.only fd bound hcall
    exact ⟨inBounds_abstractAddress hn, memory_abstractAddress_eq_iff hn hm⟩
  · intro acceptor hok
    -- `name()` reads the stored address back, padded to the whole of `sun_path`
    obtain ⟨hsocket, haddr⟩ := hbinds.keeps acceptor hok
    have hname := UnixSocketAcceptor.name_eq hn haddr
    have hfits : acceptor.name.length < SUN_PATH_SIZE := by
      rw [hname, length_rightpad_name hn]
      decide
    refine ⟨?_, _, UnixConnect.make_ok hfits, ?_⟩
    · rw [haddr]
      exact hbinds.bound hsocket
    · -- padding a padded name changes nothing
      rw [haddr, memory_abstractAddress_eq_iff hfits hn, hname, rightpad_rightpad_name hn]

/-- The name `test`, connected to with a trailing NUL byte. -/
theorem abstract_names_agree_trailing_nul :
    ∃ run connect, UnixSocketAcceptor.make ⟨3, 0, fun _ => 0, 0, 0⟩ [116, 101, 115, 116] = .ok run ∧
      UnixConnect.make [116, 101, 115, 116, 0] = .ok connect ∧
      ∃ bound, .bind 3 bound ∈ run.1 ∧ bound.memory = connect.addr.memory := by
  obtain ⟨run, connect, hrun, hconnect, hbound, hagree, _⟩ :=
    abstract_names_agree ⟨3, 0, fun _ => 0, 0, 0⟩
      (show [116, 101, 115, 116].length < SUN_PATH_SIZE by decide)
      (show [116, 101, 115, 116, 0].length < SUN_PATH_SIZE by decide)
  obtain ⟨bound, hcall⟩ := hbound (by decide)
  exact ⟨run, connect, hrun, hconnect, bound, hcall, (hagree 3 bound hcall).2.mpr (by decide)⟩

end Exios
