import Dss.Lib.Stream
import Mathlib.Algebra.Order.Round
import Mathlib.Data.Rat.Floor

/-!
# JSON values

A `nlohmann::json` value, and what its member functions do. An object is the list of
its members in the order they are iterated, which is that of the keys. A
floating-point number is its value, `none` if it is not finite.

The two overloads of `operator[]` differ where the key is missing: the one for a
const value has no defined result there (`Json.index`), the other one inserts a null
(`Json.entry`), and makes an object of a null. Any value can be iterated
(`Json.elements`): an array or an object by its elements, a null not at all, and any
other value is visited once.

A conversion to a number is a `static_cast` (`Json.toUnsigned`): an integer wraps
around, a fraction is cut off. What the standard leaves open is a parameter
(`Cast`).
-/

namespace Dss.Lib

inductive Json
  | null
  | boolean (b : Bool)
  | integer (n : ℤ)
  | float (x : Option ℚ)
  | string (s : Bytes)
  | array (elems : List Json)
  | object (members : List (Bytes × Json))

/-- How reading a value fails: by an exception, or without a defined result. -/
inductive Failure
  | thrown
  | undefined
  deriving DecidableEq, Repr

/-- What is left open of the conversion to an unsigned type of `bits` bits. -/
structure Cast where
  /-- The result for a floating-point number whose integral part is not in range. -/
  overflow : (bits : ℕ) → Option ℚ → ℕ
  /-- Whether a boolean is converted. -/
  acceptsBool : (bits : ℕ) → Bool

namespace Json

/-! ## Access by key -/

/-- The members with a value for the key: the one it has is replaced, a new one is put
    before the greater keys. -/
def setMember (key : Bytes) (value : Json) : List (Bytes × Json) → List (Bytes × Json)
  | [] => [(key, value)]
  | m :: members =>
    if key = m.1 then (key, value) :: members
    else if key < m.1 then (key, value) :: m :: members
    else m :: setMember key value members

/-- The value of the key, if the value is an object that has it. -/
def get? (j : Json) (key : Bytes) : Option Json :=
  match j with
  | object members => members.lookup key
  | _ => none

/-- `j.contains(key)`. -/
def contains (j : Json) (key : Bytes) : Bool := (j.get? key).isSome

/-- `j[key]` of a const `j`. -/
def index (j : Json) (key : Bytes) : Except Failure Json :=
  match j with
  | object members =>
    match members.lookup key with
    | some value => .ok value
    | none => .error .undefined
  | _ => .error .thrown

/-- Whether a `j` that is not const has a defined `j[key]`: an object, or a null, which
    becomes one. -/
def isKeyed : Json → Bool
  | object _ | null => true
  | _ => false

/-- `j[key]` of a `j` that is not const: the value referred to, and `j` afterwards. -/
def entry (j : Json) (key : Bytes) : Except Failure (Json × Json) :=
  match j with
  | object members =>
    match members.lookup key with
    | some value => .ok (value, j)
    | none => .ok (null, object (setMember key null members))
  | null => .ok (null, object [(key, null)])
  | _ => .error .thrown

/-- `j` with what a reference returned by `j[key]` is assigned. -/
def set (j : Json) (key : Bytes) (value : Json) : Json :=
  match j with
  | object members => object (setMember key value members)
  | _ => j

/-! ## Iteration -/

/-- The values visited in an iteration over `j`. -/
def elements : Json → List Json
  | array elems => elems
  | object members => members.map Prod.snd
  | null => []
  | j => [j]

/-- `j` with what the references of an iteration are assigned, in their order. -/
def setElements (j : Json) (values : List Json) : Json :=
  match j with
  | array _ => array values
  | object members => object ((members.map Prod.fst).zip values)
  | null => null
  | _ => values.head?.getD j

/-! ## Conversions -/

/-- `std::string(j)`. -/
def toText : Json → Except Failure Bytes
  | string s => .ok s
  | _ => .error .thrown

/-- `bool(j)`. -/
def toBool : Json → Except Failure Bool
  | boolean b => .ok b
  | _ => .error .thrown

/-- The integral part: rounded towards zero. -/
def truncate (x : ℚ) : ℤ := if 0 ≤ x then ⌊x⌋ else ⌈x⌉

/-- The conversion to an unsigned type of `bits` bits. -/
def toUnsigned (cast : Cast) (bits : ℕ) : Json → Except Failure ℕ
  | integer n => .ok (n % 2 ^ bits).toNat
  | float x =>
    match x.map truncate with
    | some n => .ok (if 0 ≤ n ∧ n < 2 ^ bits then n.toNat else cast.overflow bits x % 2 ^ bits)
    | none => .ok (cast.overflow bits x % 2 ^ bits)
  | boolean b => if cast.acceptsBool bits then .ok (b.toNat % 2 ^ bits) else .error .thrown
  | _ => .error .thrown

/-- The number written, if the value is one. -/
def number? : Json → Option ℚ
  | integer n => some n
  | float x => x
  | _ => none

/-- Whether the value is a number or a boolean. -/
def isArithmetic : Json → Bool
  | integer _ | float _ | boolean _ => true
  | _ => false

/-- Whether the value is a natural number of `bits` bits. -/
def FitsUnsigned (j : Json) (bits : ℕ) : Prop := ∃ n : ℕ, j.number? = some n ∧ n < 2 ^ bits

variable {j j' : Json} {key key' : Bytes} {value : Json} {members : List (Bytes × Json)}
  {cast : Cast} {bits n : ℕ}

/-! ## Lemmas -/

theorem lookup_cons_of_ne {m : Bytes × Json} (h : key ≠ m.1) :
    (m :: members).lookup key = members.lookup key := by
  obtain ⟨k, v⟩ := m
  simp [List.lookup_cons, beq_false_of_ne h]

theorem lookup_setMember_of_ne (h : key' ≠ key) :
    (setMember key value members).lookup key' = members.lookup key' := by
  induction members with
  | nil => exact lookup_cons_of_ne h
  | cons m members ih =>
    rw [setMember]
    split_ifs with heq
    · rw [lookup_cons_of_ne h, lookup_cons_of_ne (heq ▸ h)]
    · exact lookup_cons_of_ne h
    · rw [List.lookup_cons, List.lookup_cons, ih]

@[simp] theorem contains_eq_true : j.contains key = true ↔ ∃ v, j.get? key = some v :=
  Option.isSome_iff_exists

/-- What is read is the value of the key. -/
theorem index_eq_ok : j.index key = .ok value ↔ j.get? key = some value := by
  cases j with
  | object members =>
    rw [index, get?]
    cases members.lookup key <;> simp
  | _ => simp [index, get?]

/-- The result of reading an object without the key is undefined. -/
theorem index_eq_undefined : j.index key = .error .undefined ↔
    (∃ members, j = object members) ∧ j.get? key = none := by
  cases j with
  | object members =>
    rw [index, get?]
    cases members.lookup key <;> simp
  | _ => simp [index]

theorem isKeyed_of_get? (h : j.get? key = some value) : j.isKeyed := by
  cases j with
  | object members => rfl
  | _ => cases h

theorem entry_of_isKeyed (key : Bytes) (h : j.isKeyed) :
    ∃ j', j.entry key = .ok ((j.get? key).getD null, j') ∧ j'.isKeyed ∧
      ∀ key' ≠ key, j'.get? key' = j.get? key' := by
  cases j with
  | object members =>
    rw [entry, get?]
    cases members.lookup key with
    | some value => exact ⟨_, rfl, rfl, fun _ _ => rfl⟩
    | none => exact ⟨_, rfl, rfl, fun _ h => lookup_setMember_of_ne h⟩
  | null =>
    refine ⟨_, rfl, rfl, fun key' h => ?_⟩
    rw [get?, lookup_cons_of_ne h]
    rfl
  | _ => cases h

theorem entry_of_not_isKeyed (key : Bytes) (h : ¬j.isKeyed) : j.entry key = .error .thrown := by
  cases j with
  | object | null => exact absurd rfl h
  | _ => rfl

@[simp] theorem isKeyed_set : (j.set key value).isKeyed = j.isKeyed := by
  cases j <;> rfl

theorem get?_set_of_ne (h : key' ≠ key) : (j.set key value).get? key' = j.get? key' := by
  cases j with
  | object members => exact lookup_setMember_of_ne h
  | _ => rfl

theorem toUnsigned_lt (h : j.toUnsigned cast bits = .ok n) : n < 2 ^ bits := by
  have hpos : 0 < 2 ^ bits := Nat.two_pow_pos bits
  cases j with
  | integer m =>
    obtain rfl := Except.ok.inj h
    have hlt := Int.emod_lt_of_pos m (b := 2 ^ bits) (by positivity)
    rw [Int.toNat_lt' (by positivity)]
    exact_mod_cast hlt
  | float x =>
    rw [toUnsigned] at h
    split at h
    next m _ =>
      obtain rfl := Except.ok.inj h
      split_ifs with hm
      · rw [Int.toNat_lt hm.1]
        exact_mod_cast hm.2
      · exact Nat.mod_lt _ hpos
    next =>
      obtain rfl := Except.ok.inj h
      exact Nat.mod_lt _ hpos
  | boolean b =>
    rw [toUnsigned] at h
    split_ifs at h
    obtain rfl := Except.ok.inj h
    exact Nat.mod_lt _ hpos
  | _ => cases h

/-- A number of the type is converted to itself. -/
theorem toUnsigned_of_number (hn : j.number? = some (n : ℚ)) (hlt : n < 2 ^ bits) :
    j.toUnsigned cast bits = .ok n := by
  have hlt' : (n : ℤ) < 2 ^ bits := by exact_mod_cast hlt
  cases j with
  | integer m =>
    obtain rfl : m = n := by exact_mod_cast Option.some.inj hn
    rw [toUnsigned, Int.emod_eq_of_lt (Int.natCast_nonneg n) hlt', Int.toNat_natCast]
  | float x =>
    obtain rfl : x = some (n : ℚ) := hn
    have htrunc : truncate n = n := by
      rw [truncate, if_pos (Nat.cast_nonneg n), Int.floor_natCast]
    rw [toUnsigned, Option.map_some]
    simp only [htrunc]
    rw [if_pos ⟨Int.natCast_nonneg n, hlt'⟩, Int.toNat_natCast]
  | _ => cases hn

/-- What is converted is the number written exactly if this is one of the type. -/
theorem number?_eq_iff (h : j.toUnsigned cast bits = .ok n) :
    j.number? = some (n : ℚ) ↔ j.FitsUnsigned bits := by
  constructor
  · exact fun hn => ⟨n, hn, toUnsigned_lt h⟩
  · rintro ⟨m, hm, hlt⟩
    obtain rfl := Except.ok.inj (h.symm.trans (toUnsigned_of_number hm hlt))
    exact hm

end Json

end Dss.Lib
