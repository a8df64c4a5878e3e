import Dss.Config.Acceptance

/-!
# The scalars of a configuration

The scalars a value holds, each with the path it is found at (`Value.leaves`), and
what a document has at a path (`follow`). After a successful construction, the scalars
are as they should be exactly if the document has what it should have wherever a
scalar is read (`Fields.leaves_iff`).
-/

namespace Dss.Config

open Dss.Lib

variable {S V : Type}

/-- A step into a document: to the value of a key, or to the value visited as the
    `i`-th one in an iteration. -/
inductive Step
  | key (name : Bytes)
  | elem (i : ℕ)
  deriving DecidableEq, Repr

abbrev Path := List Step

/-- The scalars found behind a step. -/
def under (step : Step) (l : List (Path × V)) : List (Path × V) :=
  l.map fun e => (step :: e.1, e.2)

mutual

/-- The scalars of a value, and where they are found. -/
def Value.leaves : Value V → List (Path × V)
  | .scalar v => [([], v)]
  | .array values => leavesArray 0 values
  | .struct fields => leavesFields fields
  | .none => []

def leavesArray (i : ℕ) : List (Value V) → List (Path × V)
  | [] => []
  | value :: values => under (.elem i) value.leaves ++ leavesArray (i + 1) values

def leavesFields : List (Bytes × Value V) → List (Path × V)
  | [] => []
  | field :: fields => leavesField field ++ leavesFields fields

def leavesField : Bytes × Value V → List (Path × V)
  | (name, value) => under (.key name) value.leaves

end

/-- What the document has at the path. -/
def follow : Json → Path → Option Json
  | data, [] => some data
  | data, .key name :: path => (data.get? name).bind fun value => follow value path
  | data, .elem i :: path => data.elements[i]?.bind fun value => follow value path

/-- The document has something at the path that is `good` for the scalar. -/
def Found (good : V → Json → Prop) (data : Json) (e : Path × V) : Prop :=
  ∃ value, follow data e.1 = some value ∧ good e.2 value

mutual

/-- What is there of the values a scalar is read from satisfies `fit`. -/
def Elem.AllScalars (fit : S → Json → Prop) : Elem S → Json → Prop
  | .scalar type, data => fit type data
  | .struct fields, data => fields.AllScalars fit data

def Fields.AllScalars (fit : S → Json → Prop) : Fields S → Json → Prop
  | .nil, _ => True
  | .cons name _ isArray elem rest, data =>
    (∀ value, data.get? name = some value → ∀ part ∈ parts isArray value,
      elem.AllScalars fit part) ∧ rest.AllScalars fit data

end

variable {conv : Conversion S V} {good : V → Json → Prop} {fit : S → Json → Prop} {data : Json}

mutual

theorem Elem.allScalars_of_forall (h : ∀ type data, fit type data) :
    ∀ (elem : Elem S) (data : Json), elem.AllScalars fit data
  | .scalar type, data => h type data
  | .struct fields, data => Fields.allScalars_of_forall h fields data

theorem Fields.allScalars_of_forall (h : ∀ type data, fit type data) :
    ∀ (fields : Fields S) (data : Json), fields.AllScalars fit data
  | .nil, _ => trivial
  | .cons _ _ _ elem rest, data =>
    ⟨fun _ _ part _ => Elem.allScalars_of_forall h elem part,
      Fields.allScalars_of_forall h rest data⟩

end

theorem forall_mem_under {step : Step} {l : List (Path × V)} {p : Path × V → Prop} :
    (∀ e ∈ under step l, p e) ↔ ∀ e ∈ l, p (step :: e.1, e.2) :=
  List.forall_mem_map

theorem found_key {name : Bytes} {value : Json} {e : Path × V} (h : data.get? name = some value) :
    Found good data (.key name :: e.1, e.2) ↔ Found good value e := by
  rw [Found, Found, follow, h, Option.bind_some]

theorem found_elem {i : ℕ} {value : Json} {e : Path × V} (h : data.elements[i]? = some value) :
    Found good data (.elem i :: e.1, e.2) ↔ Found good value e := by
  rw [Found, Found, follow, h, Option.bind_some]

/-- The scalars of an array are found if those of its elements are, one by one. -/
theorem forall_leavesArray {construct : Json → Except Failure (Value V)} {p : Json → Prop}
    (hp : ∀ part v, construct part = .ok v → ((∀ e ∈ v.leaves, Found good part e) ↔ p part))
    {elems : List Json} {values : List (Value V)}
    (h : List.Forall₂ (fun part v => construct part = .ok v) elems values) (i : ℕ)
    (hi : ∀ k, data.elements[i + k]? = elems[k]?) :
    (∀ e ∈ leavesArray i values, Found good data e) ↔ ∀ part ∈ elems, p part := by
  induction h generalizing i with
  | nil => simp [leavesArray]
  | @cons part v elems values hv _ ih =>
    rw [leavesArray, List.forall_mem_append, forall_mem_under, List.forall_mem_cons, ← hp part v hv,
      ih (i + 1) fun k => by rw [Nat.add_right_comm, Nat.add_assoc, hi, List.getElem?_cons_succ]]
    have hpart : data.elements[i]? = some part := by simpa using hi 0
    simp only [found_elem hpart]

/-- The scalars of a field are found if those of its parts are. -/
theorem forall_leavesField {construct : Json → Except Failure (Value V)} {p : Json → Prop}
    (hp : ∀ part v, construct part = .ok v → ((∀ e ∈ v.leaves, Found good part e) ↔ p part))
    {name : Bytes} {required isArray : Bool} {v : Value V}
    (h : copyField name construct data required isArray = .ok v) :
    (∀ e ∈ leavesField (name, v), Found good data e) ↔
      ∀ value, data.get? name = some value → ∀ part ∈ parts isArray value, p part := by
  rw [leavesField, forall_mem_under]
  cases hget : data.get? name with
  | none =>
    cases required with
    | false =>
      rw [copyField_optional hget, Except.ok.injEq] at h
      simp [← h, Value.leaves]
    | true =>
      obtain ⟨e, he⟩ := exists_index_error hget
      rw [copyField_required he] at h
      cases h
  | some value =>
    rw [copyField_of_get? hget, map_eq_ok] at h
    obtain ⟨values, hvalues, rfl⟩ := h
    rw [mapM_eq_ok] at hvalues
    simp only [found_key hget, Option.some.injEq, forall_eq']
    cases isArray with
    | true => exact forall_leavesArray hp hvalues 0 fun k => by rw [Nat.zero_add]; rfl
    | false =>
      -- the value is the only part
      obtain ⟨v, _, hv, hnil, rfl⟩ := List.forall₂_cons_left_iff.1 hvalues
      obtain rfl := List.forall₂_nil_left_iff.1 hnil
      simpa [parts, collect] using hp value v hv

mutual

theorem Elem.leaves_iff (hgood : ∀ type data v, conv.convert type data = .ok v →
    (good v data ↔ fit type data)) : ∀ (elem : Elem S) (data : Json) (v : Value V),
      elem.copy conv data = .ok v →
        ((∀ e ∈ v.leaves, Found good data e) ↔ elem.AllScalars fit data)
  | .scalar type, data, v, h => by
    rw [Elem.copy, map_eq_ok] at h
    obtain ⟨x, hx, rfl⟩ := h
    simp [Value.leaves, Found, follow, Elem.AllScalars, hgood type data x hx]
  | .struct fields, data, v, h => by
    rw [Elem.copy, map_eq_ok] at h
    obtain ⟨vs, hvs, rfl⟩ := h
    rw [Value.leaves, Elem.AllScalars]
    exact Fields.leaves_iff hgood fields data vs hvs

theorem Fields.leaves_iff (hgood : ∀ type data v, conv.convert type data = .ok v →
    (good v data ↔ fit type data)) : ∀ (fields : Fields S) (data : Json)
      (vs : List (Bytes × Value V)), fields.copy conv data = .ok vs →
        ((∀ e ∈ leavesFields vs, Found good data e) ↔ fields.AllScalars fit data)
  | .nil, data, vs, h => by
    obtain rfl := Except.ok.inj h
    simp [leavesFields, Fields.AllScalars]
  | .cons name required isArray elem rest, data, vs, h => by
    simp only [Fields.copy, bind_eq_ok, pure, Except.pure, Except.ok.injEq] at h
    obtain ⟨v, hv, vs, hvs, rfl⟩ := h
    rw [leavesFields, List.forall_mem_append, Fields.AllScalars,
      Fields.leaves_iff hgood rest data vs hvs,
      forall_leavesField (fun part v hv => Elem.leaves_iff hgood elem part v hv) hv]

end

end Dss.Config
