import Dss.Lib.Actions
import Dss.Lib.Json

/-!
# `json_struct`

A `json_struct` is a list of fields, each read from the JSON value it is constructed
from under its name (`Fields`). A field is required or optional, and holds one
element or an array of them; an element is a scalar or a `json_struct` again
(`Elem`). Each of these four kinds of fields has two constructors: one from a
`const njson &`, and one from an `njson &&`, which refers to the value passed and may
insert into it. What is converted to a scalar type is left open (`Conversion`).

`Elem.copy` and `Fields.copy` construct from a const value, in the order of the
fields. For both constructors, `Elem.copyIn` and `Elem.move` leave the order open in
which the constructors of the fields are evaluated (`EvaluationOrder`).
-/

namespace Dss.Config

open Dss.Lib

/-- The scalar types `S` of fields, and what a value is converted to: a value that is
    none of the type throws. -/
structure Conversion (S V : Type) where
  convert : S → Json → Except Failure V
  defined : ∀ type j, convert type j ≠ .error .undefined

/-- The scalar type is `std::string` only. -/
def texts : Conversion Unit Bytes := ⟨fun _ => Json.toText, fun _ json => by cases json <;> nofun⟩

mutual

/-- The type `T` of a field, or of the elements of an array `T[]`. -/
inductive Elem (S : Type)
  | scalar (type : S)
  | struct (fields : Fields S)

/-- The fields `json_field_base<T, name, required>` of a `json_struct`, as its `holder`
    lists them. -/
inductive Fields (S : Type)
  | nil
  | cons (name : Bytes) (required isArray : Bool) (elem : Elem S) (rest : Fields S)

end

/-- What a field holds; an optional field may hold nothing. -/
inductive Value (V : Type)
  | scalar (v : V)
  | array (values : List (Value V))
  | struct (fields : List (Bytes × Value V))
  | none

variable {S V : Type}

def Fields.names : Fields S → List Bytes
  | .nil => []
  | .cons name _ _ _ rest => name :: rest.names

/-! ## The constructors from a const value -/

section

variable (name : Bytes) (construct : Json → Except Failure (Value V)) (data : Json)

def copyRequired : Except Failure (Value V) := do
  let value ← data.index name
  construct value

def copyRequiredArray : Except Failure (Value V) := do
  let array ← data.index name
  let result ← array.elements.mapM construct
  return .array result

def copyOptional : Except Failure (Value V) :=
  if data.contains name then do
    let value ← data.index name
    construct value
  else return .none

def copyOptionalArray : Except Failure (Value V) :=
  if data.contains name then do
    let array ← data.index name
    let result ← array.elements.mapM construct
    return .array result
  else return .none

def copyField (required isArray : Bool) : Except Failure (Value V) :=
  match required, isArray with
  | true, false => copyRequired name construct data
  | true, true => copyRequiredArray name construct data
  | false, false => copyOptional name construct data
  | false, true => copyOptionalArray name construct data

end

mutual

/-- `clean_type(const njson &)`. -/
def Elem.copy (conv : Conversion S V) : Elem S → Json → Except Failure (Value V)
  | .scalar type, data => .scalar <$> conv.convert type data
  | .struct fields, data => .struct <$> fields.copy conv data

/-- `json_struct(const njson &)`, in the order of the fields. -/
def Fields.copy (conv : Conversion S V) :
    Fields S → Json → Except Failure (List (Bytes × Value V))
  | .nil, _ => return []
  | .cons name required isArray elem rest, data => do
    let value ← copyField name (elem.copy conv) data required isArray
    let values ← rest.copy conv data
    return (name, value) :: values

end

/-! ## The constructors from a value that is moved -/

/-- A constructor that may change the value it is given: what it constructs, and that
    value afterwards. -/
abbrev Constructor (V : Type) := Action Json Failure (Value V)

/-- The elements constructed one after the other. -/
def moveElements (construct : Constructor V) :
    List Json → Except Failure (List (Value V) × List Json)
  | [] => return ([], [])
  | elem :: elems => do
    let (value, elem) ← construct elem
    let (values, elems) ← moveElements construct elems
    return (value :: values, elem :: elems)

section

variable (name : Bytes)

/-- What `operator[]` returns is an lvalue, so the element is constructed from a const
    value. -/
def moveRequired (construct : Json → Except Failure (Value V)) : Constructor V := fun data => do
  let (value, data) ← data.entry name
  let result ← construct value
  return (result, data)

def moveRequiredArray (construct : Constructor V) : Constructor V := fun data => do
  let (array, data) ← data.entry name
  let (result, elems) ← moveElements construct array.elements
  return (.array result, data.set name (array.setElements elems))

def moveOptional (construct : Constructor V) : Constructor V := fun data =>
  if data.contains name then do
    let (value, data) ← data.entry name
    let (result, value) ← construct value
    return (result, data.set name value)
  else return (.none, data)

def moveOptionalArray (construct : Constructor V) : Constructor V := fun data =>
  if data.contains name then do
    let (array, data) ← data.entry name
    let (result, elems) ← moveElements construct array.elements
    return (.array result, data.set name (array.setElements elems))
  else return (.none, data)

def moveField (required isArray : Bool) (copy : Json → Except Failure (Value V))
    (move : Constructor V) : Constructor V :=
  match required, isArray with
  | true, false => moveRequired name copy
  | true, true => moveRequiredArray name move
  | false, false => moveOptional name move
  | false, true => moveOptionalArray name move

end

/-! ## The order of the fields -/

/-- The order in which the constructors of the fields of a `json_struct` are evaluated:
    any, by their names and the value they are given. -/
structure EvaluationOrder where
  shuffle : {α : Type} → List Bytes → Json → List α → List α
  perm : ∀ {α : Type} (names : List Bytes) (data : Json) (l : List α),
    (shuffle names data l).Perm l

/-- The order in which the fields are listed. -/
def EvaluationOrder.listed : EvaluationOrder := ⟨fun _ _ l => l, fun _ _ l => .refl l⟩

/-- The fields constructed in some order, and put in that of their list. -/
def constructIn (ord : EvaluationOrder) (cs : List (Bytes × Constructor V)) :
    Constructor V := fun data => do
  let names := cs.map Prod.fst
  let (values, data) ← runAll (ord.shuffle names data cs) data
  return (.struct (names.map fun name => (name, (values.lookup name).getD .none)), data)

mutual

/-- `clean_type(const njson &)`, in any order. -/
def Elem.copyIn (conv : Conversion S V) (ord : EvaluationOrder) : Elem S → Constructor V
  | .scalar type, data => (fun v => (.scalar v, data)) <$> conv.convert type data
  | .struct fields, data => constructIn ord (fields.copiesIn conv ord) data

/-- The constructors of the fields from a const value. -/
def Fields.copiesIn (conv : Conversion S V) (ord : EvaluationOrder) :
    Fields S → List (Bytes × Constructor V)
  | .nil => []
  | .cons name required isArray elem rest =>
    (name, fun data => (fun v => (v, data)) <$>
      copyField name (fun x => Prod.fst <$> elem.copyIn conv ord x) data required isArray) ::
    rest.copiesIn conv ord

end

mutual

/-- `clean_type(njson &&)`, in any order. -/
def Elem.move (conv : Conversion S V) (ord : EvaluationOrder) : Elem S → Constructor V
  | .scalar type, data => (fun v => (.scalar v, data)) <$> conv.convert type data
  | .struct fields, data => constructIn ord (fields.moves conv ord) data

/-- The constructors of the fields from a value that is moved. -/
def Fields.moves (conv : Conversion S V) (ord : EvaluationOrder) :
    Fields S → List (Bytes × Constructor V)
  | .nil => []
  | .cons name required isArray elem rest =>
    (name, moveField name required isArray (fun x => Prod.fst <$> elem.copyIn conv ord x)
      (elem.move conv ord)) :: rest.moves conv ord

end

end Dss.Config
