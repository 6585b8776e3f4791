import Mathlib.Data.BitVec
import Mathlib.Data.List.Basic
import Mathlib.Data.List.TakeDrop
import Mathlib.Data.List.TakeWhile
import Mathlib.Logic.Function.Basic

namespace Exios.Utils

/-!
# Utilities — `parse_integer` and `parse_ipv4`

A string is the list of its bytes.  `parse_integer<T>` is modelled for an unsigned `T` of `w`
bits, and `parse_ipv4` statement by statement: `Frame` holds its local variables, `octetLoop`
is its loop and `runParseIpv4` the whole body.  `std::array` does not check its iterators, so
`Frame.octets` is the memory from `octets[0]` on, and the frame also logs at which index each
store of `parse_integer` lands; a run that stores outside of the four octets has no defined
outcome.

The scan for dots is `List.splitOn`: `runParseIpv4_eq` gives the whole body as a recursion
over the fields between the dots.  From it

* `runParseIpv4_stores` — the stores land in the array unless the text is a list of five
  fields whose first four are numbers and whose fifth is not empty;
* `parseIpv4_returned` — the text is accepted exactly if it is four decimal numbers, which
  are then taken modulo 256.
-/

/-- The character `'.'`. -/
def dot : UInt8 := 46

/-! ### `parse_integer` -/

/-- The loop of `parse_integer`: `outval` at the end, and the returned flag. -/
def parseIntegerLoop {w : Nat} : BitVec w → List UInt8 → BitVec w × Bool
  | outval, [] => (outval, true)
  | outval, c :: cs =>
    -- a byte from 128 on fails one of the two tests, whether or not `char` is signed
    if c < 48 ∨ c > 57 then (outval, false)
    else parseIntegerLoop (outval * 10 + BitVec.ofNat w (c.toNat - 48)) cs

/-- `parse_integer<T>(first, last, outval)` for an unsigned `T` of `w` bits: what it leaves in
    `outval` (`none` if it stores nothing), and the returned flag. -/
def parseInteger (w : Nat) (field : List UInt8) : Option (BitVec w) × Bool :=
  if field = [] then (none, false)
  else
    let r := parseIntegerLoop (0 : BitVec w) field
    (some r.1, r.2)

/-- A non-empty run of decimal digits. -/
def IsRun (field : List UInt8) : Prop := field ≠ [] ∧ ∀ c ∈ field, 48 ≤ c ∧ c ≤ 57

instance (field : List UInt8) : Decidable (IsRun field) :=
  @instDecidableAnd _ _ _ (List.decidableBAll _ field)

/-- The number that a run of digits continues from `n`. -/
def numeralFrom (n : Nat) (field : List UInt8) : Nat :=
  field.foldl (fun n c => n * 10 + (c.toNat - 48)) n

/-- The number a run of decimal digits denotes. -/
def numeral (field : List UInt8) : Nat := numeralFrom 0 field

/-- On digits the loop accumulates the number they denote, modulo `2 ^ w`. -/
theorem parseIntegerLoop_digits {w : Nat} (n : Nat) {field : List UInt8}
    (h : ∀ c ∈ field, 48 ≤ c ∧ c ≤ 57) :
    parseIntegerLoop (BitVec.ofNat w n) field = (BitVec.ofNat w (numeralFrom n field), true) := by
  induction field generalizing n with
  | nil => rfl
  | cons c cs ih =>
    -- a digit is no reason to stop
    have hc : ¬ (c < 48 ∨ c > 57) := by
      obtain ⟨hlo, hhi⟩ := h c List.mem_cons_self
      simp only [not_or, gt_iff_lt, UInt8.not_lt]
      exact ⟨hlo, hhi⟩
    -- the arithmetic of the loop is the one modulo 2^w
    have hval : BitVec.ofNat w n * 10 + BitVec.ofNat w (c.toNat - 48)
        = BitVec.ofNat w (n * 10 + (c.toNat - 48)) := by
      rw [BitVec.ofNat_add, BitVec.ofNat_mul]
      rfl
    rw [parseIntegerLoop, if_neg hc, hval]
    exact ih _ (fun d hd => h d (List.mem_cons_of_mem c hd))

/-- The loop accepts nothing but digits. -/
theorem parseIntegerLoop_accepts {w : Nat} {outval : BitVec w} {field : List UInt8}
    (h : (parseIntegerLoop outval field).2 = true) : ∀ c ∈ field, 48 ≤ c ∧ c ≤ 57 := by
  induction field generalizing outval with
  | nil => simp
  | cons c cs ih =>
    rw [parseIntegerLoop] at h
    split at h
    · exact absurd h (by simp)
    · rename_i hc
      simp only [not_or, gt_iff_lt, UInt8.not_lt] at hc
      intro d hd
      rcases List.mem_cons.mp hd with rfl | hd
      · exact hc
      · exact ih h d hd

/-- **`parse_integer` on a run of digits** stores the number modulo `2 ^ w`. -/
theorem parseInteger_run {w : Nat} {field : List UInt8} (h : IsRun field) :
    parseInteger w field = (some (BitVec.ofNat w (numeral field)), true) := by
  have hloop := parseIntegerLoop_digits (w := w) 0 h.2
  rw [parseInteger, if_neg h.1, show (0 : BitVec w) = BitVec.ofNat w 0 from rfl, hloop]
  rfl

/-- **`parse_integer` on anything else** returns `false`, after a store unless the field is
    empty. -/
theorem parseInteger_other {w : Nat} {field : List UInt8} (h : ¬ IsRun field) :
    (parseInteger w field).2 = false ∧ ((parseInteger w field).1.isSome ↔ field ≠ []) := by
  rw [parseInteger]
  split
  · rename_i he
    simp [he]
  · rename_i hne
    refine ⟨?_, by simpa using hne⟩
    rw [← Bool.not_eq_true]
    exact fun hacc => h ⟨hne, parseIntegerLoop_accepts hacc⟩

/-! ### `parse_ipv4` -/

/-- The exceptions of `parse_ipv4`. -/
inductive Thrown
  | invalidOctet
  | tooManyOctets
  | tooFewOctets
deriving DecidableEq, Repr

/-- Their texts. -/
def Thrown.what : Thrown → String
  | .invalidOctet => "Couldn't parse IPv4: Invalid octet"
  | .tooManyOctets => "Couldn't parse IPv4: Too many octets"
  | .tooFewOctets => "Couldn't parse IPv4: Too few octets"

/-- The local variables of `parse_ipv4`. -/
structure Frame where
  /-- The memory from `octets[0]` on; the array is its first four bytes. -/
  octets : Nat → BitVec 8
  /-- The indices `parse_integer` has stored through, in order. -/
  stores : List Nat
  /-- The index `out_p` points at. -/
  outP : Nat
  /-- `num_octets`. -/
  numOctets : Nat
  /-- The text from `saved` up to `p`. -/
  field : List UInt8
  /-- The text from `p` up to `last`. -/
  rest : List UInt8

/-- `std::find(p, last, '.')`: the text up to the first dot, and the text from it on. -/
def findDot (text : List UInt8) : List UInt8 × List UInt8 := text.span (· ≠ dot)

/-- The variables in front of the loop. -/
def Frame.start (octets : Nat → BitVec 8) (address : List UInt8) : Frame :=
  let (field, rest) := findDot address
  ⟨octets, [], 0, 0, field, rest⟩

/-- `parse_integer<std::uint8_t>(saved, p, *out_p++)`. -/
def Frame.parseField (fr : Frame) : Bool × Frame :=
  match parseInteger 8 fr.field with
  | (none, accepted) => (accepted, { fr with outP := fr.outP + 1 })
  | (some v, accepted) => (accepted,
      { fr with
        octets := Function.update fr.octets fr.outP v
        stores := fr.stores ++ [fr.outP]
        outP := fr.outP + 1 })

/-- `num_octets += 1; saved = ++p; p = std::find(p, last, '.')`. -/
def Frame.advance (fr : Frame) : Frame :=
  let (field, rest) := findDot fr.rest.tail
  { fr with numOctets := fr.numOctets + 1, field := field, rest := rest }

@[simp] theorem Frame.parseField_numOctets (fr : Frame) :
    fr.parseField.2.numOctets = fr.numOctets := by
  rw [parseField]
  split <;> rfl

@[simp] theorem Frame.advance_numOctets (fr : Frame) :
    fr.advance.numOctets = fr.numOctets + 1 := rfl

/-- The loop of `parse_ipv4`. -/
def octetLoop (fr : Frame) : Except Thrown Unit × Frame :=
  if fr.rest ≠ [] ∧ fr.numOctets < 4 then
    match fr.parseField.1 with
    | false => (.error .invalidOctet, fr.parseField.2)
    | true => octetLoop fr.parseField.2.advance
  else (.ok (), fr)
termination_by 4 - fr.numOctets
decreasing_by simp; omega

/-- What the caller of `parse_ipv4` sees. -/
inductive Outcome
  | returned (value : BitVec 32)
  | threw (e : Thrown)
  /-- A store outside of `octets`. -/
  | undefined
deriving DecidableEq, Repr

/-- A run of the body: the indices stored through, and how the statements end it. -/
structure Run where
  stores : List Nat
  ending : Except Thrown (BitVec 32)

/-- The returned word. -/
def packOctets (octets : Nat → BitVec 8) : BitVec 32 :=
  (octets 0).setWidth 32 <<< 24 ||| (octets 1).setWidth 32 <<< 16
    ||| (octets 2).setWidth 32 <<< 8 ||| (octets 3).setWidth 32

/-- The statements behind the loop. -/
def finish : Except Thrown Unit × Frame → Run
  | (.error e, fr) => ⟨fr.stores, .error e⟩
  | (.ok (), fr) =>
    if fr.rest ≠ [] then ⟨fr.stores, .error .tooManyOctets⟩
    else
      match fr.parseField with
      | (false, fr') => ⟨fr'.stores, .error .invalidOctet⟩
      | (true, fr') =>
        if fr'.numOctets + 1 ≠ 4 then ⟨fr'.stores, .error .tooFewOctets⟩
        else ⟨fr'.stores, .ok (packOctets fr'.octets)⟩

/-- The body of `parse_ipv4(address)`, with `octets` the memory it finds. -/
def runParseIpv4 (octets : Nat → BitVec 8) (address : List UInt8) : Run :=
  finish (octetLoop (.start octets address))

/-- All logged stores land in `octets`. -/
def InArray (stores : List Nat) : Prop := ∀ i ∈ stores, i < 4

instance (stores : List Nat) : Decidable (InArray stores) :=
  inferInstanceAs (Decidable (∀ i ∈ stores, i < 4))

/-- `parse_ipv4(address)`. -/
def parseIpv4 (octets : Nat → BitVec 8) (address : List UInt8) : Outcome :=
  let run := runParseIpv4 octets address
  if InArray run.stores then
    match run.ending with
    | .ok v => .returned v
    | .error e => .threw e
  else .undefined

/-! ### The fields between the dots -/

/-- The body of `parse_ipv4` over the list `f :: fs` of fields still to be read, with `n` the
    number of fields already read. -/
def parseFields (octets : Nat → BitVec 8) (stores : List Nat) (n : Nat) (f : List UInt8) :
    List (List UInt8) → Run
  | [] =>
    if IsRun f then
      if n + 1 ≠ 4 then ⟨stores ++ [n], .error .tooFewOctets⟩
      else ⟨stores ++ [n], .ok (packOctets
        (Function.update octets n (BitVec.ofNat 8 (numeral f))))⟩
    else ⟨if f = [] then stores else stores ++ [n], .error .invalidOctet⟩
  | g :: gs =>
    if n < 4 then
      if IsRun f then
        parseFields (Function.update octets n (BitVec.ofNat 8 (numeral f))) (stores ++ [n])
          (n + 1) g gs
      else ⟨if f = [] then stores else stores ++ [n], .error .invalidOctet⟩
    else ⟨stores, .error .tooManyOctets⟩

/-- The fields a frame still has to read. -/
def Frame.fields (fr : Frame) : List (List UInt8) :=
  match fr.rest with
  | [] => []
  | _ :: text => text.splitOn dot

/-- The scan for the next dot splits off the first field. -/
theorem findDot_fields (text : List UInt8) :
    ∃ f fs, text.splitOn dot = f :: fs ∧ (findDot text).1 = f ∧
      fs = match (findDot text).2 with | [] => [] | _ :: t => t.splitOn dot := by
  have hsplit : (findDot text).1 ++ (findDot text).2 = text := by
    rw [findDot, List.span_eq_takeWhile_dropWhile, List.takeWhile_append_dropWhile]
  -- what precedes the first dot contains none
  have hfree : dot ∉ (findDot text).1 := by
    rw [findDot, List.span_eq_takeWhile_dropWhile]
    intro hm
    simpa using List.mem_takeWhile_imp hm
  refine ⟨_, _, ?_, rfl, rfl⟩
  cases hrest : (findDot text).2 with
  | nil =>
    rw [hrest, List.append_nil] at hsplit
    rw [hsplit] at hfree ⊢
    exact List.splitOn_eq_singleton hfree
  | cons c t =>
    -- what follows starts with the dot itself
    have hc : c = dot := by
      have hhead := List.head?_dropWhile_not (fun x => decide (x ≠ dot)) text
      rw [findDot, List.span_eq_takeWhile_dropWhile] at hrest
      rw [show List.dropWhile (fun x => decide (x ≠ dot)) text = c :: t from hrest] at hhead
      simpa using hhead
    rw [hrest, hc] at hsplit
    have hcut := List.splitOn_append_cons_self_of_not_mem hfree t
    rwa [hsplit] at hcut

/-- One call of `parse_integer` from the frame, on a run of digits. -/
theorem Frame.parseField_run {fr : Frame} (h : IsRun fr.field) :
    fr.parseField = (true, { fr with
      octets := Function.update fr.octets fr.outP (BitVec.ofNat 8 (numeral fr.field))
      stores := fr.stores ++ [fr.outP]
      outP := fr.outP + 1 }) := by
  rw [parseField, parseInteger_run h]

/-- One call of `parse_integer` from the frame, on anything else. -/
theorem Frame.parseField_other {fr : Frame} (h : ¬ IsRun fr.field) :
    fr.parseField.1 = false ∧ fr.parseField.2.stores
      = if fr.field = [] then fr.stores else fr.stores ++ [fr.outP] := by
  obtain ⟨hrej, hstore⟩ := parseInteger_other (w := 8) h
  cases hp : parseInteger 8 fr.field with
  | mk stored accepted =>
    rw [hp] at hrej hstore
    -- an empty field stores nothing, any other its value so far
    cases stored with
    | none =>
      have hempty : fr.field = [] := by simpa using hstore
      rw [parseField, hp, if_pos hempty]
      exact ⟨hrej, rfl⟩
    | some v =>
      have hne : fr.field ≠ [] := by simpa using hstore
      rw [parseField, hp, if_neg hne]
      exact ⟨hrej, rfl⟩

/-- Moving on to the next dot drops the first of the remaining fields. -/
theorem Frame.advance_fields {fr : Frame} {g : List UInt8} {gs : List (List UInt8)}
    (h : fr.fields = g :: gs) :
    fr.advance.field = g ∧ fr.advance.fields = gs := by
  obtain ⟨f, fs, hsplit, hf, hfs⟩ := findDot_fields fr.rest.tail
  have hfields : fr.fields = f :: fs := by
    rw [← hsplit]
    rw [fields] at h ⊢
    cases hrest : fr.rest with
    | nil => simp [hrest] at h
    | cons c t => rfl
  rw [hfields] at h
  obtain ⟨rfl, rfl⟩ := List.cons.inj h
  exact ⟨hf, hfs.symm⟩

/-- **The loop and what follows it, over the fields.** -/
theorem finish_octetLoop {f : List UInt8} {fs : List (List UInt8)} {fr : Frame}
    (hf : fr.field = f) (hfs : fr.fields = fs) (hn : fr.outP = fr.numOctets) :
    finish (octetLoop fr) = parseFields fr.octets fr.stores fr.numOctets f fs := by
  induction fs generalizing fr f with
  | nil =>
    -- no dot is left: the loop is over, and the last field is read behind it
    have hrest : fr.rest = [] := by
      rw [Frame.fields] at hfs
      cases hr : fr.rest with
      | nil => rfl
      | cons c t => simp [hr] at hfs
    rw [octetLoop, if_neg (fun hc => hc.1 hrest), finish, if_neg (not_not.mpr hrest),
      parseFields]
    subst hf
    by_cases hrun : IsRun fr.field
    · simp [Frame.parseField_run hrun, hrun, hn]
    · obtain ⟨hrej, hstores⟩ := Frame.parseField_other hrun
      rw [if_neg hrun, ← hn, ← hstores]
      cases hp : fr.parseField with
      | mk accepted fr' =>
        rw [hp] at hrej
        subst hrej
        rfl
  | cons g gs ih =>
    have hrest : fr.rest ≠ [] := by
      intro hr
      simp [Frame.fields, hr] at hfs
    rw [octetLoop, parseFields]
    subst hf
    by_cases hlt : fr.numOctets < 4
    · rw [if_pos ⟨hrest, hlt⟩, if_pos hlt]
      by_cases hrun : IsRun fr.field
      · rw [Frame.parseField_run hrun, if_pos hrun]
        obtain ⟨hg, hgs⟩ := @Frame.advance_fields { fr with
          octets := Function.update fr.octets fr.outP (BitVec.ofNat 8 (numeral fr.field))
          stores := fr.stores ++ [fr.outP]
          outP := fr.outP + 1 } _ _ hfs
        have hrec := ih hg hgs (congrArg (· + 1) hn)
        rw [← hn]
        rw [Frame.advance_numOctets, ← hn] at hrec
        exact hrec
      · obtain ⟨hrej, hstores⟩ := Frame.parseField_other hrun
        rw [hrej, if_neg hrun, ← hn, ← hstores]
        rfl
    · rw [if_neg (fun hc => hlt hc.2), if_neg hlt, finish, if_pos hrest]

/-- **`parse_ipv4` over the fields** between the dots of its text. -/
theorem runParseIpv4_eq (octets : Nat → BitVec 8) {address f : List UInt8}
    {fs : List (List UInt8)} (h : address.splitOn dot = f :: fs) :
    runParseIpv4 octets address = parseFields octets [] 0 f fs := by
  obtain ⟨f', fs', hsplit, hf, hfs⟩ := findDot_fields address
  rw [h] at hsplit
  obtain ⟨rfl, rfl⟩ := List.cons.inj hsplit
  exact @finish_octetLoop _ _ (.start octets address) hf hfs.symm rfl

/-! ### Where the stores land -/

/-- A list of fields runs over the array from index `n` on: the fields in front of the last
    one are numbers that fill it up, and the last one is not empty. -/
def Overruns (n : Nat) (fields : List (List UInt8)) : Prop :=
  ∃ front last, fields = front ++ [last] ∧ n + front.length = 4 ∧ (∀ g ∈ front, IsRun g) ∧
    last ≠ []

theorem overruns_singleton (n : Nat) (f : List UInt8) :
    Overruns n [f] ↔ n = 4 ∧ f ≠ [] := by
  constructor
  · rintro ⟨front, last, heq, hlen, _, hlast⟩
    rcases List.append_eq_singleton_iff.mp heq.symm with ⟨rfl, hl⟩ | ⟨_, hl⟩
    · obtain rfl : last = f := by simpa using hl
      exact ⟨by simpa using hlen, hlast⟩
    · exact absurd hl (by simp)
  · rintro ⟨rfl, hne⟩
    exact ⟨[], f, rfl, rfl, by simp, hne⟩

theorem overruns_cons (n : Nat) (f g : List UInt8) (gs : List (List UInt8)) :
    Overruns n (f :: g :: gs) ↔ IsRun f ∧ Overruns (n + 1) (g :: gs) := by
  constructor
  · rintro ⟨front, last, heq, hlen, hruns, hlast⟩
    -- the first field is a run before the overrunning one
    cases front with
    | nil => simp at heq
    | cons x front =>
      obtain ⟨rfl, htail⟩ := List.cons.inj heq
      rw [List.length_cons] at hlen
      refine ⟨hruns _ List.mem_cons_self, front, last, htail, by omega, ?_, hlast⟩
      exact fun y hy => hruns y (List.mem_cons_of_mem _ hy)
  · rintro ⟨hf, front, last, heq, hlen, hruns, hlast⟩
    refine ⟨f :: front, last, by rw [heq]; rfl, by rw [List.length_cons]; omega, ?_, hlast⟩
    intro y hy
    rcases List.mem_cons.mp hy with rfl | hy
    · exact hf
    · exact hruns y hy

theorem inArray_snoc (stores : List Nat) (n : Nat) :
    InArray (stores ++ [n]) ↔ InArray stores ∧ n < 4 := by
  simp only [InArray, List.mem_append, List.mem_singleton, or_imp, forall_and, forall_eq]

/-- A rejected field is stored through exactly if it is not empty. -/
private theorem inArray_rejected {stores : List Nat} {n : Nat} (hn : n ≤ 4) (f : List UInt8) :
    InArray (if f = [] then stores else stores ++ [n])
      ↔ InArray stores ∧ ¬ (n = 4 ∧ f ≠ []) := by
  by_cases hf : f = []
  · simp [hf]
  · have hlt : n < 4 ↔ ¬ n = 4 := by omega
    rw [if_neg hf, inArray_snoc, hlt]
    simp [hf]

/-- **The stores over the fields.** -/
theorem parseFields_stores {octets : Nat → BitVec 8} {stores : List Nat} {n : Nat}
    {f : List UInt8} {fs : List (List UInt8)} (hn : n ≤ 4) :
    InArray (parseFields octets stores n f fs).stores
      ↔ InArray stores ∧ ¬ Overruns n (f :: fs) := by
  induction fs generalizing octets stores n f with
  | nil =>
    rw [overruns_singleton, ← inArray_rejected hn, parseFields]
    by_cases hrun : IsRun f
    · rw [if_pos hrun, if_neg hrun.1]
      split <;> rfl
    · rw [if_neg hrun]
  | cons g gs ih =>
    rw [overruns_cons, parseFields]
    by_cases hlt : n < 4
    · rw [if_pos hlt]
      by_cases hrun : IsRun f
      · rw [if_pos hrun, ih (by omega), inArray_snoc]
        simp [hlt, hrun]
      · rw [if_neg hrun, inArray_rejected hn]
        have hn4 : n ≠ 4 := by omega
        simp [hrun, hn4]
    · -- the array is full already, so the fields that follow overrun it by more than one
      rw [if_neg hlt]
      have hlong : ¬ Overruns (n + 1) (g :: gs) := by
        rintro ⟨front, last, _, hlen, _, _⟩
        omega
      simp [hlong]

/-! ### What is accepted -/

/-- The octets with the numbers of the fields stored from index `n` on. -/
def storeFields (octets : Nat → BitVec 8) (n : Nat) : List (List UInt8) → Nat → BitVec 8
  | [] => octets
  | f :: fs => storeFields (Function.update octets n (BitVec.ofNat 8 (numeral f))) (n + 1) fs

/-- **What the fields give**: a value if they are numbers that fill the array exactly. -/
theorem parseFields_ending {octets : Nat → BitVec 8} {stores : List Nat} {n : Nat}
    {f : List UInt8} {fs : List (List UInt8)} (v : BitVec 32) :
    (parseFields octets stores n f fs).ending = .ok v
      ↔ n + fs.length = 3 ∧ (∀ g ∈ f :: fs, IsRun g) ∧
        v = packOctets (storeFields octets n (f :: fs)) := by
  induction fs generalizing octets stores n f with
  | nil =>
    have hlast : n + 1 = 4 ↔ n = 3 := by omega
    rw [parseFields]
    by_cases hrun : IsRun f
    · by_cases hn : n = 3
      · simp [hrun, hn, storeFields, eq_comm]
      · simp [hrun, hn]
    · simp [hrun]
  | cons g gs ih =>
    rw [parseFields]
    by_cases hlt : n < 4
    · by_cases hrun : IsRun f
      · have hlen : n + 1 + gs.length = 3 ↔ n + (g :: gs).length = 3 := by
          -- one field is done: count it and go on
          rw [List.length_cons]
          omega
        rw [if_pos hlt, if_pos hrun, ih, hlen, List.forall_mem_cons (a := f)]
        simp only [hrun, true_and, storeFields]
      · simp [hlt, hrun]
    · -- all four fields are taken and text is left over
      rw [if_neg hlt]
      have hlen : ¬ n + (g :: gs).length = 3 := by
        omega
      simp only [hlen, false_and, reduceCtorEq]

/-- The word that four octets are packed into. -/
theorem packOctets_toNat (octets : Nat → BitVec 8) :
    (packOctets octets).toNat = (octets 0).toNat * 2 ^ 24 + (octets 1).toNat * 2 ^ 16
      + (octets 2).toNat * 2 ^ 8 + (octets 3).toNat := by
  have h0 := (octets 0).isLt
  have h1 := (octets 1).isLt
  have h2 := (octets 2).isLt
  have h3 := (octets 3).isLt
  have hs0 : (octets 0).toNat <<< 24 % 2 ^ 32 = (octets 0).toNat <<< 24 := by
    rw [Nat.shiftLeft_eq]
    omega
  have hs1 : (octets 1).toNat <<< 16 % 2 ^ 32 = (octets 1).toNat <<< 16 := by
    rw [Nat.shiftLeft_eq]
    omega
  have hs2 : (octets 2).toNat <<< 8 % 2 ^ 32 = (octets 2).toNat <<< 8 := by
    rw [Nat.shiftLeft_eq]
    omega
  have hw : ∀ b : BitVec 8, (b.setWidth 32).toNat = b.toNat := by
    intro b
    have hb := b.isLt
    rw [BitVec.toNat_setWidth]
    omega
  simp only [packOctets, BitVec.toNat_or, BitVec.toNat_shiftLeft, hw, hs0, hs1, hs2]
  -- the octets occupy disjoint bits, so each `|` adds
  have hlow : (octets 2).toNat <<< 8 ||| (octets 3).toNat
      = (octets 2).toNat * 2 ^ 8 + (octets 3).toNat := by
    rw [← Nat.shiftLeft_add_eq_or_of_lt h3, Nat.shiftLeft_eq]
  have hmid : (octets 1).toNat <<< 16 ||| ((octets 2).toNat * 2 ^ 8 + (octets 3).toNat)
      = (octets 1).toNat * 2 ^ 16 + ((octets 2).toNat * 2 ^ 8 + (octets 3).toNat) := by
    rw [← Nat.shiftLeft_add_eq_or_of_lt (by omega), Nat.shiftLeft_eq]
  rw [Nat.or_assoc, Nat.or_assoc, hlow, hmid, ← Nat.shiftLeft_add_eq_or_of_lt (by omega),
    Nat.shiftLeft_eq]
  omega

/-! ### `parse_ipv4` on every text -/

/-- The text is four non-empty runs of digits, separated by three dots. -/
def IsQuad (address a b c d : List UInt8) : Prop :=
  address = a ++ dot :: (b ++ dot :: (c ++ dot :: d)) ∧ IsRun a ∧ IsRun b ∧ IsRun c ∧ IsRun d

/-- The text is five fields separated by four dots, the first four of them non-empty runs of
    digits and the fifth not empty. -/
def FiveFields (address : List UInt8) : Prop :=
  ∃ a b c d e, address = a ++ dot :: (b ++ dot :: (c ++ dot :: (d ++ dot :: e))) ∧
    IsRun a ∧ IsRun b ∧ IsRun c ∧ IsRun d ∧ e ≠ [] ∧ dot ∉ e

/-- A run of digits has no dot. -/
theorem IsRun.dot_not_mem {f : List UInt8} (h : IsRun f) : dot ∉ f := by
  intro hm
  exact absurd (h.2 dot hm).1 (by decide)

/-- The fields of a text contain no dot. -/
theorem dot_not_mem_field {address f : List UInt8} (hf : f ∈ address.splitOn dot) : dot ∉ f := by
  induction hn : address.length using Nat.strong_induction_on generalizing address with
  | _ n ih =>
    obtain ⟨g, gs, hsplit, hg, hgs⟩ := findDot_fields address
    have hcut : (findDot address).1 ++ (findDot address).2 = address := by
      rw [findDot, List.span_eq_takeWhile_dropWhile, List.takeWhile_append_dropWhile]
    rw [hsplit] at hf
    rcases List.mem_cons.mp hf with rfl | hf
    · -- the first field ends before the dot
      rw [← hg, findDot, List.span_eq_takeWhile_dropWhile]
      intro hm
      simpa using List.mem_takeWhile_imp hm
    · cases hrest : (findDot address).2 with
      | nil =>
        rw [hgs, hrest] at hf
        exact absurd hf (by simp)
      | cons c t =>
        -- the others are fields of what is left, which is shorter
        have hlen : t.length < n := by
          rw [← hn, ← hcut, hrest]
          simp
          omega
        rw [hgs, hrest] at hf
        exact ih t.length hlen hf rfl

/-- The fields of a quad. -/
theorem isQuad_iff {address a b c d : List UInt8} :
    IsQuad address a b c d ↔
      address.splitOn dot = [a, b, c, d] ∧ ∀ g ∈ [a, b, c, d], IsRun g := by
  constructor
  · rintro ⟨rfl, ha, hb, hc, hd⟩
    refine ⟨?_, by simp [ha, hb, hc, hd]⟩
    rw [List.splitOn_append_cons_self_of_not_mem ha.dot_not_mem,
      List.splitOn_append_cons_self_of_not_mem hb.dot_not_mem,
      List.splitOn_append_cons_self_of_not_mem hc.dot_not_mem,
      List.splitOn_eq_singleton hd.dot_not_mem]
  · -- joining the fields again gives the address back
    rintro ⟨hsplit, hruns⟩
    have htext : [dot].intercalate (address.splitOn dot) = address := List.intercalate_splitOn dot
    rw [hsplit] at htext
    refine ⟨?_, hruns a (by simp), hruns b (by simp), hruns c (by simp), hruns d (by simp)⟩
    rw [← htext]
    simp [List.intercalate]

/-- The fields of a text that overruns the array. -/
theorem fiveFields_iff {address : List UInt8} :
    FiveFields address ↔ Overruns 0 (address.splitOn dot) := by
  constructor
  · rintro ⟨a, b, c, d, e, rfl, ha, hb, hc, hd, he, hdot⟩
    refine ⟨[a, b, c, d], e, ?_, rfl, by simp [ha, hb, hc, hd], he⟩
    rw [List.splitOn_append_cons_self_of_not_mem ha.dot_not_mem,
      List.splitOn_append_cons_self_of_not_mem hb.dot_not_mem,
      List.splitOn_append_cons_self_of_not_mem hc.dot_not_mem,
      List.splitOn_append_cons_self_of_not_mem hd.dot_not_mem,
      List.splitOn_eq_singleton hdot]
    rfl
  · rintro ⟨front, e, hsplit, hlen, hruns, he⟩
    -- the four fields before the overrun
    obtain ⟨a, b, c, d, rfl⟩ : ∃ a b c d, front = [a, b, c, d] := by
      match front, hlen with
      | [a, b, c, d], _ => exact ⟨a, b, c, d, rfl⟩
    have hmem : e ∈ address.splitOn dot := by
      rw [hsplit]
      simp
    have hdot : dot ∉ e := dot_not_mem_field hmem
    have htext : [dot].intercalate (address.splitOn dot) = address := List.intercalate_splitOn dot
    rw [hsplit] at htext
    refine ⟨a, b, c, d, e, ?_, hruns a (by simp), hruns b (by simp), hruns c (by simp),
      hruns d (by simp), he, hdot⟩
    rw [← htext]
    simp [List.intercalate]

/-- The stores of a run land in the array exactly if the text does not overrun it. -/
theorem runParseIpv4_stores (octets : Nat → BitVec 8) (address : List UInt8) :
    InArray (runParseIpv4 octets address).stores ↔ ¬ FiveFields address := by
  obtain ⟨f, fs, hsplit, _, _⟩ := findDot_fields address
  have hnil : InArray [] := by simp [InArray]
  rw [runParseIpv4_eq octets hsplit, parseFields_stores (by omega), fiveFields_iff, hsplit]
  simp [hnil]

/-- The word that four stored fields are packed into. -/
theorem packOctets_storeFields (octets : Nat → BitVec 8) (a b c d : List UInt8) :
    (packOctets (storeFields octets 0 [a, b, c, d])).toNat
      = numeral a % 256 * 2 ^ 24 + numeral b % 256 * 2 ^ 16 + numeral c % 256 * 2 ^ 8
        + numeral d % 256 := by
  have h0 : storeFields octets 0 [a, b, c, d] 0 = BitVec.ofNat 8 (numeral a) := by
    simp [storeFields, Function.update]
  have h1 : storeFields octets 0 [a, b, c, d] 1 = BitVec.ofNat 8 (numeral b) := by
    simp [storeFields, Function.update]
  have h2 : storeFields octets 0 [a, b, c, d] 2 = BitVec.ofNat 8 (numeral c) := by
    simp [storeFields, Function.update]
  have h3 : storeFields octets 0 [a, b, c, d] 3 = BitVec.ofNat 8 (numeral d) := by
    simp [storeFields, Function.update]
  rw [packOctets_toNat, h0, h1, h2, h3]
  simp only [BitVec.toNat_ofNat]

/-- The statements of the body end in a value exactly on a quad. -/
theorem runParseIpv4_ending (octets : Nat → BitVec 8) (address : List UInt8) (v : BitVec 32) :
    (runParseIpv4 octets address).ending = .ok v ↔ ∃ a b c d,
      IsQuad address a b c d ∧ v = packOctets (storeFields octets 0 [a, b, c, d]) := by
  obtain ⟨f, fs, hsplit, _, _⟩ := findDot_fields address
  rw [runParseIpv4_eq octets hsplit, parseFields_ending]
  constructor
  · -- three fields after the first, so it is a quad
    rintro ⟨hlen, hruns, hv⟩
    rw [Nat.zero_add, List.length_eq_three] at hlen
    obtain ⟨b, c, d, rfl⟩ := hlen
    exact ⟨f, b, c, d, isQuad_iff.mpr ⟨hsplit, hruns⟩, hv⟩
  · rintro ⟨a, b, c, d, hquad, hv⟩
    obtain ⟨heq, hruns⟩ := isQuad_iff.mp hquad
    rw [hsplit] at heq
    obtain ⟨rfl, rfl⟩ := List.cons.inj heq
    exact ⟨rfl, hruns, hv⟩

/-- A text of five fields is no quad. -/
theorem IsQuad.not_fiveFields {address a b c d : List UInt8} (h : IsQuad address a b c d) :
    ¬ FiveFields address := by
  rw [fiveFields_iff, (isQuad_iff.mp h).1]
  rintro ⟨front, last, heq, hlen, _, _⟩
  have hlen' := congrArg List.length heq
  simp only [List.length_append, List.length_cons, List.length_nil] at hlen'
  omega

/-- **What `parse_ipv4` returns**, for every text: the four numbers modulo 256. -/
theorem parseIpv4_returned (octets : Nat → BitVec 8) (address : List UInt8) (v : BitVec 32) :
    parseIpv4 octets address = .returned v ↔ ∃ a b c d, IsQuad address a b c d ∧
      v.toNat = numeral a % 256 * 2 ^ 24 + numeral b % 256 * 2 ^ 16 + numeral c % 256 * 2 ^ 8
        + numeral d % 256 := by
  have hending := runParseIpv4_ending octets address v
  simp only [← BitVec.toNat_inj (x := v), packOctets_storeFields] at hending
  rw [← hending, parseIpv4]
  by_cases hin : InArray (runParseIpv4 octets address).stores
  · simp only [if_pos hin]
    cases (runParseIpv4 octets address).ending <;> simp
  · -- a quad has four fields, so no store leaves the array
    simp only [if_neg hin, reduceCtorEq, false_iff]
    intro hok
    obtain ⟨a, b, c, d, hquad, _⟩ := hending.mp hok
    exact hin ((runParseIpv4_stores octets address).mpr hquad.not_fiveFields)

/-- `parse_ipv4` has no defined outcome exactly on the texts that overrun the array. -/
theorem parseIpv4_undefined (octets : Nat → BitVec 8) (address : List UInt8) :
    parseIpv4 octets address = .undefined ↔ FiveFields address := by
  rw [← not_not (a := FiveFields address), ← runParseIpv4_stores octets address, parseIpv4]
  by_cases hin : InArray (runParseIpv4 octets address).stores
  · simp only [hin, not_true_eq_false, iff_false]
    cases (runParseIpv4 octets address).ending <;> simp
  · simp [hin]

/-! ### The two promises about `parse_ipv4` -/

/-- A dotted quad: four runs of digits that denote numbers between 0 and 255. -/
def DottedQuad (address a b c d : List UInt8) : Prop :=
  IsQuad address a b c d ∧ numeral a ≤ 255 ∧ numeral b ≤ 255 ∧ numeral c ≤ 255 ∧
    numeral d ≤ 255

/-- A quad with a number above 255. -/
def OversizedQuad (address : List UInt8) : Prop :=
  ∃ a b c d, IsQuad address a b c d ∧
    (255 < numeral a ∨ 255 < numeral b ∨ 255 < numeral c ∨ 255 < numeral d)

/-- `parse_ipv4` returns normally exactly on a dotted quad, with its value, and throws on
    every other text. -/
def AcceptsDottedQuads (address : List UInt8) : Prop :=
  ∀ octets : Nat → BitVec 8,
    (∀ v, parseIpv4 octets address = .returned v ↔ ∃ a b c d, DottedQuad address a b c d ∧
      v.toNat = numeral a * 2 ^ 24 + numeral b * 2 ^ 16 + numeral c * 2 ^ 8 + numeral d) ∧
    ((¬ ∃ a b c d, DottedQuad address a b c d) → ∃ e, parseIpv4 octets address = .threw e)

/-- The fields of a quad are determined by its text. -/
theorem IsQuad.unique {address a b c d a' b' c' d' : List UInt8}
    (h : IsQuad address a b c d) (h' : IsQuad address a' b' c' d') :
    a = a' ∧ b = b' ∧ c = c' ∧ d = d' := by
  have heq := (isQuad_iff.mp h).1.symm.trans (isQuad_iff.mp h').1
  simpa using heq

/-- A quad is a dotted quad or an oversized one, not both. -/
theorem IsQuad.dotted_iff {address a b c d : List UInt8} (h : IsQuad address a b c d) :
    DottedQuad address a b c d ↔ ¬ OversizedQuad address := by
  constructor
  · rintro ⟨_, ha, hb, hc, hd⟩ ⟨a', b', c', d', h', hbig⟩
    obtain ⟨rfl, rfl, rfl, rfl⟩ := h.unique h'
    omega
  · intro hsmall
    have hnot : ¬ (255 < numeral a ∨ 255 < numeral b ∨ 255 < numeral c ∨ 255 < numeral d) :=
      fun hbig => hsmall ⟨a, b, c, d, h, hbig⟩
    exact ⟨h, by omega, by omega, by omega, by omega⟩

/-- The numbers of a dotted quad are not changed modulo 256. -/
theorem DottedQuad.value_mod {address a b c d : List UInt8} (h : DottedQuad address a b c d) :
    numeral a % 256 * 2 ^ 24 + numeral b % 256 * 2 ^ 16 + numeral c % 256 * 2 ^ 8
        + numeral d % 256
      = numeral a * 2 ^ 24 + numeral b * 2 ^ 16 + numeral c * 2 ^ 8 + numeral d := by
  obtain ⟨_, ha, hb, hc, hd⟩ := h
  rw [Nat.mod_eq_of_lt (by omega : numeral a < 256), Nat.mod_eq_of_lt (by omega : numeral b < 256),
    Nat.mod_eq_of_lt (by omega : numeral c < 256), Nat.mod_eq_of_lt (by omega : numeral d < 256)]

/-- **Dotted quads.** `parse_ipv4` accepts the dotted quads and throws on every other text,
    except on the quads with a number above 255, which it accepts modulo 256, and on the
    texts that overrun the array. -/
theorem parseIpv4_accepts_iff (address : List UInt8) :
    AcceptsDottedQuads address ↔ ¬ OversizedQuad address ∧ ¬ FiveFields address := by
  constructor
  · intro h
    obtain ⟨hret, hthrow⟩ := h (fun _ => 0)
    constructor
    · -- an oversized quad is returned, though it is no dotted quad
      rintro ⟨a, b, c, d, hquad, hbig⟩
      have hlt : numeral a % 256 * 2 ^ 24 + numeral b % 256 * 2 ^ 16 + numeral c % 256 * 2 ^ 8
          + numeral d % 256 < 2 ^ 32 := by omega
      have hv := (parseIpv4_returned (fun _ => 0) address (BitVec.ofNat 32 _)).mpr
        ⟨a, b, c, d, hquad, by rw [BitVec.toNat_ofNat, Nat.mod_eq_of_lt hlt]⟩
      obtain ⟨a', b', c', d', hdot, _⟩ := (hret _).mp hv
      exact (hdot.1.dotted_iff.mp hdot) ⟨a, b, c, d, hquad, hbig⟩
    · intro hfive
      have hno : ¬ ∃ a b c d, DottedQuad address a b c d := by
        rintro ⟨a, b, c, d, hdot⟩
        exact hdot.1.not_fiveFields hfive
      obtain ⟨e, he⟩ := hthrow hno
      rw [(parseIpv4_undefined _ _).mpr hfive] at he
      exact absurd he (by simp)
  · rintro ⟨hsize, hfive⟩ octets
    have hmod : ∀ a b c d, IsQuad address a b c d → DottedQuad address a b c d :=
      fun a b c d hquad => hquad.dotted_iff.mpr hsize
    refine ⟨fun v => ?_, fun hno => ?_⟩
    · rw [parseIpv4_returned]
      constructor
      · rintro ⟨a, b, c, d, hquad, hv⟩
        have hdot := hmod a b c d hquad
        exact ⟨a, b, c, d, hdot, hv.trans hdot.value_mod⟩
      · rintro ⟨a, b, c, d, hdot, hv⟩
        exact ⟨a, b, c, d, hdot.1, hv.trans hdot.value_mod.symm⟩
    · -- neither returned nor undefined
      cases hout : parseIpv4 octets address with
      | returned v =>
        obtain ⟨a, b, c, d, hquad, _⟩ := (parseIpv4_returned octets address v).mp hout
        exact absurd ⟨a, b, c, d, hmod a b c d hquad⟩ hno
      | threw e => exact ⟨e, rfl⟩
      | undefined => exact absurd ((parseIpv4_undefined octets address).mp hout) hfive

/-- `256.0.0.0` is accepted as `0.0.0.0`. -/
theorem parseIpv4_accepts_256 :
    ¬ AcceptsDottedQuads [50, 53, 54, 46, 48, 46, 48, 46, 48] := by
  intro h
  have hquad : IsQuad [50, 53, 54, 46, 48, 46, 48, 46, 48] [50, 53, 54] [48] [48] [48] := by
    refine ⟨rfl, ?_, ?_, ?_, ?_⟩ <;> decide
  have hret := (parseIpv4_returned (fun _ => 0) _ 0).mpr ⟨_, _, _, _, hquad, by decide⟩
  obtain ⟨a, b, c, d, ⟨hquad', ha, _⟩, _⟩ := ((h (fun _ => 0)).1 0).mp hret
  obtain ⟨rfl, _⟩ := hquad.unique hquad'
  exact absurd ha (by decide)

/-- **The octet array.** Every store of `parse_integer` on behalf of `parse_ipv4` lands in one
    of the four octets, unless the text is a list of five fields whose first four are numbers
    and whose fifth is not empty. -/
theorem parseIpv4_stores_iff (address : List UInt8) :
    (∀ octets : Nat → BitVec 8, ∀ i ∈ (runParseIpv4 octets address).stores, i < 4)
      ↔ ¬ FiveFields address := by
  constructor
  · intro h
    exact (runParseIpv4_stores (fun _ => 0) address).mp (h _)
  · intro hfive octets
    exact (runParseIpv4_stores octets address).mpr hfive

/-- On `1.2.3.4.5` the fifth number is stored behind the array. -/
theorem parseIpv4_stores_behind :
    ¬ ∀ octets : Nat → BitVec 8,
      ∀ i ∈ (runParseIpv4 octets [49, 46, 50, 46, 51, 46, 52, 46, 53]).stores, i < 4 := by
  intro h
  apply (runParseIpv4_stores (fun _ => 0) _).mp (h _)
  refine ⟨[49], [50], [51], [52], [53], rfl, ?_, ?_, ?_, ?_, ?_, ?_⟩ <;> decide

end Exios.Utils
