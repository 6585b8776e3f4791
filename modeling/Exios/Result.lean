import Exios.Operation
import Mathlib.Data.Sum.Basic

namespace Exios

/-!
# Results — `Result<T, E>` and its conversions

`ResultStorage<E, R>` holds a `std::variant<E, R>`, here a sum.  Each of its constructors hands
one object to the variant, whose converting constructor picks an alternative by overload
resolution among the implicit conversions of that object; the conversion of a storage hands
over the variant of the other storage as a whole.  Conversions of user types are parameters,
with the rank that overload resolution compares.

* `selectAlternative` — which alternative of a variant an object initialises;
* `toVoid_object` — a result with a value type becomes a success, whatever it held;
* `toVoid_keepsState_iff` — when the conversion to `Result<void, E>` keeps the state.
-/

/-! ### Overload resolution -/

/-- The implicit conversion from `S` to `A`, if there is one, with its rank. -/
inductive Conversion (S A : Type)
  | none
  /-- The identity, or the reference to the object itself. -/
  | exact (f : S → A)
  /-- A user-defined conversion. -/
  | user (f : S → A)

/-- A constructor of `A` that converts from `S`, if there is one. -/
def Conversion.ofConstructor {S A : Type} : Option (S → A) → Conversion S A
  | .none => .none
  | .some f => .user f

/-- The two types are implicitly convertible. -/
def Conversion.isSome {S A : Type} : Conversion S A → Bool
  | .none => false
  | .exact _ | .user _ => true

/-- The converting constructor of `std::variant<A, B>` for an object of type `S`: the better
    one of the two conversions.  There is none if neither exists, or if they are of one rank,
    which is ambiguous. -/
def selectAlternative {S A B : Type} : Conversion S A → Conversion S B → Option (S → A ⊕ B)
  | .none, .none => none
  | .exact f, .none | .user f, .none | .exact f, .user _ => some (fun s => .inl (f s))
  | .none, .exact g | .none, .user g | .user _, .exact g => some (fun s => .inr (g s))
  | .exact _, .exact _ | .user _, .user _ => none

/-! ### `VoidResult` and `ResultStorage` -/

/-- `detail::VoidResult`. -/
inductive VoidResult
  | mk
deriving DecidableEq, Repr

/-- The constructor template of `VoidResult`, which takes any type. -/
def VoidResult.conversion (S : Type) : Conversion S VoidResult := .user (fun _ => .mk)

/-- `detail::ResultStorage<E, R>`. -/
structure ResultStorage (E R : Type) where
  storage : E ⊕ R
deriving DecidableEq, Repr

namespace ResultStorage

variable {E R U V : Type}

/-- `is_error_value()`. -/
def isErrorValue (r : ResultStorage E R) : Bool := r.storage.isLeft

/-- `error()`; none if the result is no error, where `std::get<0>` fails. -/
def error (r : ResultStorage E R) : Option E := r.storage.getLeft?

/-- `ResultStorage(ResultValue<U>)`, by copy or by move; none if it is not well-formed. -/
def ofValue (toError : Conversion U E) (toResult : Conversion U R) (val : U) :
    Option (ResultStorage E R) :=
  if toError.isSome ∨ toResult.isSome then
    (selectAlternative toError toResult).map fun f => ⟨f val⟩
  else none

/-- `ResultStorage(ResultStorage<U, V>)`, by copy or by move; none if it is not well-formed.
    The constraint looks at the alternatives (`fromU`, `fromV`), the initialiser
    `storage_ { other.storage_ }` at the whole variant (`toError`, `toResult`). -/
def ofStorage (fromU : Conversion U E) (fromV : Conversion V R)
    (toError : Conversion (U ⊕ V) E) (toResult : Conversion (U ⊕ V) R)
    (other : ResultStorage U V) : Option (ResultStorage E R) :=
  if fromU.isSome ∧ fromV.isSome then
    (selectAlternative toError toResult).map fun f => ⟨f other.storage⟩
  else none

end ResultStorage

/-! ### The conversion to `Result<void, E>` -/

/-- The type parameter `T` of a `Result<T, E>`.  `Result<VoidResult, E>` is `Result<void, E>`. -/
inductive ValueType
  | void
  | object (T : Type) (other : T ≠ VoidResult)

/-- The second parameter of the `ResultStorage` that `Result<T, E>` is. -/
abbrev ValueType.Stored : ValueType → Type
  | .void => VoidResult
  | .object T _ => T

/-- How the result is passed. -/
inductive ValueCategory
  /-- By copy, as a `const&`. -/
  | constLvalue
  /-- By move, as a `&&`. -/
  | rvalue
deriving DecidableEq, Repr

/-- The implicit conversion of a `Result<T, E>` to a `Result<void, E>`, by copy or by move.  `E`
    may have constructors that take the variant of the result, of either category; a variant
    converts to another type by a constructor only. -/
def toVoid {E : Type} : (T : ValueType) → (ValueCategory → Option (E ⊕ T.Stored → E)) →
    ValueCategory → ResultStorage E T.Stored → Option (ResultStorage E VoidResult)
  -- the two types are one: its copy or move constructor is preferred
  | .void, _, _, r => some r
  | .object T _, errorFrom, c, r =>
    ResultStorage.ofStorage (.exact id) (VoidResult.conversion T) (.ofConstructor (errorFrom c))
      (VoidResult.conversion (E ⊕ T)) r

/-- The converted result exists, and is an error exactly if the given one is, with the same
    error value. -/
def KeepsState {E R : Type} (r : ResultStorage E R) (s : Option (ResultStorage E VoidResult)) :
    Prop :=
  ∃ s', s = some s' ∧ s'.isErrorValue = r.isErrorValue ∧
    (r.isErrorValue = true → s'.error = r.error)

/-- **A result with a value type becomes a success**, whatever it holds: `VoidResult` is the only
    alternative that the variant converts to. -/
theorem toVoid_object {E T : Type} {other : T ≠ VoidResult}
    {errorFrom : ValueCategory → Option (E ⊕ T → E)} {c : ValueCategory} (h : errorFrom c = none)
    (r : ResultStorage E T) :
    toVoid (.object T other) errorFrom c r = some ⟨.inr .mk⟩ := by
  show ResultStorage.ofStorage _ _ (.ofConstructor (errorFrom c)) _ r = _
  rw [ResultStorage.ofStorage, if_pos ⟨rfl, rfl⟩, h]
  rfl

/-- If `E` can be constructed from the variant as well, the conversion is ambiguous. -/
theorem toVoid_ambiguous {E T : Type} {other : T ≠ VoidResult}
    {errorFrom : ValueCategory → Option (E ⊕ T → E)} {c : ValueCategory} {f : E ⊕ T → E}
    (h : errorFrom c = some f) (r : ResultStorage E T) :
    toVoid (.object T other) errorFrom c r = none := by
  show ResultStorage.ofStorage _ _ (.ofConstructor (errorFrom c)) _ r = _
  rw [ResultStorage.ofStorage, if_pos ⟨rfl, rfl⟩, h]
  rfl

/-- The conversion to `Result<void, E>` keeps the state of a result exactly if `T` is `void`, or
    the result holds a value (and `E` takes no part in the overload resolution). -/
theorem toVoid_keepsState_iff {E : Type} (T : ValueType)
    (errorFrom : ValueCategory → Option (E ⊕ T.Stored → E)) (c : ValueCategory)
    (r : ResultStorage E T.Stored) :
    KeepsState r (toVoid T errorFrom c r) ↔
      T = .void ∨ (errorFrom c = none ∧ r.isErrorValue = false) := by
  cases T with
  | void =>
    have hsame : KeepsState r (toVoid .void errorFrom c r) := ⟨r, rfl, rfl, fun _ => rfl⟩
    simp [hsame]
  | object T other =>
    constructor
    · rintro ⟨s', hs, hstate, _⟩
      cases hfrom : errorFrom c with
      | some f =>
        rw [toVoid_ambiguous hfrom] at hs
        exact absurd hs (by simp)
      | none =>
        -- the converted result is a success, so the given one was
        rw [toVoid_object hfrom] at hs
        obtain rfl := Option.some.inj hs
        exact .inr ⟨rfl, hstate.symm⟩
    · rintro (hvoid | ⟨hfrom, hvalue⟩)
      · exact absurd hvoid (by simp)
      · refine ⟨_, toVoid_object hfrom r, hvalue.symm, ?_⟩
        rw [hvalue]
        simp

/-- `std::size_t` is another type than `VoidResult`. -/
theorem nat_ne_voidResult : Nat ≠ VoidResult := by
  intro heq
  have hone : ∀ a b : VoidResult, a = b := by
    intro a b
    cases a
    cases b
    rfl
  rw [← heq] at hone
  exact absurd (hone 0 1) (by decide)

/-- A cancelled `Result<std::size_t, std::error_code>`, as `result_error` constructs it: an
    `std::error_code` converts neither to a `std::size_t` nor from the variant. -/
theorem toVoid_drops_error :
    ∃ r : ResultStorage ErrorCode Nat,
      ResultStorage.ofValue (.exact id) .none operationCanceled = some r ∧
      r.isErrorValue = true ∧ r.error = some operationCanceled ∧
      ∀ c, (∃ s, toVoid (.object Nat nat_ne_voidResult) (fun _ => none) c r = some s ∧
        s.isErrorValue = false) ∧
        ¬ KeepsState r (toVoid (.object Nat nat_ne_voidResult) (fun _ => none) c r) := by
  refine ⟨⟨.inl operationCanceled⟩, rfl, rfl, rfl, fun c => ⟨⟨_, rfl, rfl⟩, ?_⟩⟩
  rintro ⟨s, hs, hstate, _⟩
  rw [toVoid_object rfl] at hs
  obtain rfl := Option.some.inj hs
  exact absurd hstate (by decide)

end Exios
