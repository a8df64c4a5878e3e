import Dss.Config.JsonStruct
import Dss.Lib.Failing

/-!
# What a `json_struct` accepts

What construction from a const value comes to, told from the value without the
constructors:

* it succeeds exactly if the value is accepted (`Fields.exists_copy_ok`): a required key
  is there, and what is there under a key is accepted by the field, so that none is
  missing anywhere (`Fields.not_omits`);
* it has no defined result exactly if it reaches a missing key
  (`Fields.copy_undefined`): all that is read before is accepted.
-/

namespace Dss.Config

open Dss.Lib

variable {S V : Type} (conv : Conversion S V)

/-- The values a field is constructed from, by what is there under its name. -/
def parts (isArray : Bool) (value : Json) : List Json :=
  if isArray then value.elements else [value]

/-- What is required is there, and what is there is accepted. -/
def FieldAccepts (name : Bytes) (required isArray : Bool) (accepts : Json → Prop)
    (data : Json) : Prop :=
  (required → ∃ value, data.get? name = some value) ∧
    ∀ value, data.get? name = some value → ∀ part ∈ parts isArray value, accepts part

mutual

/-- The value is accepted: a scalar can be converted. -/
def Elem.Accepts : Elem S → Json → Prop
  | .scalar type, data => ∃ v, conv.convert type data = .ok v
  | .struct fields, data => fields.Accepts data

/-- The value is accepted by all fields. -/
def Fields.Accepts : Fields S → Json → Prop
  | .nil, _ => True
  | .cons name required isArray elem rest, data =>
    FieldAccepts name required isArray elem.Accepts data ∧ rest.Accepts data

end

mutual

/-- The constructor of the element reads an object that lacks a required key, after
    nothing that is not accepted. -/
def Elem.ReachesMissing : Elem S → Json → Prop
  | .scalar _, _ => False
  | .struct fields, data => fields.ReachesMissing data

/-- So does one of the fields: the first one, or the others if it accepts the value. -/
def Fields.ReachesMissing : Fields S → Json → Prop
  | .nil, _ => False
  | .cons name required isArray elem rest, data =>
    (required ∧ (∃ members, data = .object members) ∧ data.get? name = none) ∨
    (∃ value pre part post, data.get? name = some value ∧
      parts isArray value = pre ++ part :: post ∧ (∀ part ∈ pre, elem.Accepts conv part) ∧
        elem.ReachesMissing part) ∨
    (FieldAccepts name required isArray (elem.Accepts conv) data ∧ rest.ReachesMissing data)

end

mutual

/-- A required key is missing somewhere in the value. -/
def Elem.Omits : Elem S → Json → Prop
  | .scalar _, _ => False
  | .struct fields, data => fields.Omits data

def Fields.Omits : Fields S → Json → Prop
  | .nil, _ => False
  | .cons name required isArray elem rest, data =>
    (required ∧ data.get? name = none) ∨
    (∃ value, data.get? name = some value ∧ ∃ part ∈ parts isArray value, elem.Omits part) ∨
    rest.Omits data

end

variable {conv} {name : Bytes} {required isArray : Bool} {data value : Json}
  {construct : Json → Except Failure (Value V)} {e : Failure}

/-! ## One field -/

/-- What a field holds, by what is constructed from its parts. -/
def collect (isArray : Bool) (values : List (Value V)) : Value V :=
  if isArray then .array values else values.headD .none

theorem collect_part : collect false <$> (parts false value).mapM construct = construct value := by
  simp [parts, collect]

/-- A field whose key is there is constructed from the parts of the value. -/
theorem copyField_of_get? (h : data.get? name = some value) :
    copyField name construct data required isArray =
      collect isArray <$> (parts isArray value).mapM construct := by
  have hindex := Json.index_eq_ok.2 h
  have hcontains := Json.contains_eq_true.2 ⟨value, h⟩
  cases required <;> cases isArray
  · rw [copyField, copyOptional, if_pos hcontains, hindex, collect_part]
    rfl
  · rw [copyField, copyOptionalArray, if_pos hcontains, hindex]
    exact bind_pure_comp Value.array (value.elements.mapM construct)
  · rw [copyField, copyRequired, hindex, collect_part]
    rfl
  · rw [copyField, copyRequiredArray, hindex]
    exact bind_pure_comp Value.array (value.elements.mapM construct)

/-- An optional field whose key is not there holds nothing. -/
theorem copyField_optional (h : data.get? name = none) :
    copyField name construct data false isArray = .ok .none := by
  have hcontains : ¬data.contains name = true := by simp [Json.contains, h]
  cases isArray
  · rw [copyField, copyOptional, if_neg hcontains]
    rfl
  · rw [copyField, copyOptionalArray, if_neg hcontains]
    rfl

/-- A required field fails as reading the key does. -/
theorem copyField_required (h : data.index name = .error e) :
    copyField name construct data true isArray = .error e := by
  cases isArray
  · rw [copyField, copyRequired, h]
    rfl
  · rw [copyField, copyRequiredArray, h]
    rfl

/-- Where the key is not there, reading it fails. -/
theorem exists_index_error (h : data.get? name = none) : ∃ e, data.index name = .error e := by
  cases hindex : data.index name with
  | error e => exact ⟨e, rfl⟩
  | ok value =>
    rw [Json.index_eq_ok.1 hindex] at h
    cases h

theorem copyField_eq_ok {v : Value V} :
    copyField name construct data required isArray = .ok v ↔
      (∃ value, data.get? name = some value ∧
        collect isArray <$> (parts isArray value).mapM construct = .ok v) ∨
      (data.get? name = none ∧ required = false ∧ v = .none) := by
  cases h : data.get? name with
  | some value => simp [copyField_of_get? h]
  | none =>
    cases required with
    | false => simp [copyField_optional h, eq_comm]
    | true =>
      obtain ⟨e, he⟩ := exists_index_error h
      simp [copyField_required he]

theorem exists_collect_ok :
    (∃ v, collect isArray <$> (parts isArray value).mapM construct = .ok v) ↔
      ∀ part ∈ parts isArray value, ∃ v, construct part = .ok v := by
  simp [map_eq_ok, exists_mapM_eq_ok]

theorem exists_copyField_ok : (∃ v, copyField name construct data required isArray = .ok v) ↔
    FieldAccepts name required isArray (fun part => ∃ v, construct part = .ok v) data := by
  rw [FieldAccepts]
  cases h : data.get? name with
  | some value =>
    rw [copyField_of_get? h, exists_collect_ok]
    simp
  | none =>
    cases required with
    | false => simp [copyField_optional h]
    | true =>
      obtain ⟨e, he⟩ := exists_index_error h
      simp [copyField_required he]

theorem copyField_undefined : copyField name construct data required isArray = .error .undefined ↔
    (required ∧ (∃ members, data = .object members) ∧ data.get? name = none) ∨
    ∃ value pre part post, data.get? name = some value ∧
      parts isArray value = pre ++ part :: post ∧ (∀ part ∈ pre, ∃ v, construct part = .ok v) ∧
        construct part = .error .undefined := by
  cases h : data.get? name with
  | some value =>
    rw [copyField_of_get? h, map_eq_error, mapM_eq_error]
    simp
  | none =>
    cases required with
    | false => simp [copyField_optional h]
    | true =>
      obtain ⟨e, he⟩ := exists_index_error h
      have hiff : data.index name = .error .undefined ↔ _ := Json.index_eq_undefined
      rw [copyField_required he]
      simp_all

/-! ## All fields -/

mutual

theorem Elem.exists_copy_ok : ∀ (elem : Elem S) (data : Json),
    (∃ v, elem.copy conv data = .ok v) ↔ elem.Accepts conv data
  | .scalar type, data => by
    simp [Elem.copy, Elem.Accepts, map_eq_ok]
  | .struct fields, data => by
    rw [Elem.Accepts, ← Fields.exists_copy_ok fields data]
    simp [Elem.copy, map_eq_ok]

theorem Fields.exists_copy_ok : ∀ (fields : Fields S) (data : Json),
    (∃ vs, fields.copy conv data = .ok vs) ↔ fields.Accepts conv data
  | .nil, _ => by simp [Fields.copy, Fields.Accepts, pure, Except.pure]
  | .cons name required isArray elem rest, data => by
    have helem : elem.Accepts conv = fun part => ∃ v, elem.copy conv part = .ok v := by
      funext part
      exact propext (Elem.exists_copy_ok elem part).symm
    rw [Fields.Accepts, ← Fields.exists_copy_ok rest data, helem, ← exists_copyField_ok]
    simp only [Fields.copy, bind_eq_ok, pure, Except.pure, Except.ok.injEq]
    constructor
    · rintro ⟨_, v, hv, vs, hvs, -⟩
      exact ⟨⟨v, hv⟩, vs, hvs⟩
    · rintro ⟨⟨v, hv⟩, vs, hvs⟩
      exact ⟨_, v, hv, vs, hvs, rfl⟩

end

theorem Elem.accepts_eq (elem : Elem S) :
    elem.Accepts conv = fun part => ∃ v, elem.copy conv part = .ok v := by
  funext part
  exact propext (elem.exists_copy_ok part).symm

mutual

theorem Elem.copy_undefined : ∀ (elem : Elem S) (data : Json),
    elem.copy conv data = .error .undefined ↔ elem.ReachesMissing conv data
  | .scalar type, data => by
    simp [Elem.copy, Elem.ReachesMissing, map_eq_error, conv.defined type data]
  | .struct fields, data => by
    rw [Elem.copy, map_eq_error, Elem.ReachesMissing, Fields.copy_undefined fields data]

theorem Fields.copy_undefined : ∀ (fields : Fields S) (data : Json),
    fields.copy conv data = .error .undefined ↔ fields.ReachesMissing conv data
  | .nil, _ => by simp [Fields.copy, Fields.ReachesMissing, pure, Except.pure]
  | .cons name required isArray elem rest, data => by
    simp only [Fields.copy, Fields.ReachesMissing, bind_eq_error, copyField_undefined,
      elem.accepts_eq, ← exists_copyField_ok, ← Fields.copy_undefined rest data,
      ← Elem.copy_undefined elem, or_assoc]
    refine or_congr_right (or_congr_right ?_)
    constructor
    · rintro ⟨v, hv, hrest | ⟨_, _, hpure⟩⟩
      · exact ⟨⟨v, hv⟩, hrest⟩
      · cases hpure
    · rintro ⟨⟨v, hv⟩, hrest⟩
      exact ⟨v, hv, .inl hrest⟩

end

/-! ## What is missing -/

mutual

theorem Elem.not_omits : ∀ (elem : Elem S) (data : Json), elem.Accepts conv data → ¬elem.Omits data
  | .scalar _, _, _ => id
  | .struct fields, data, h => Fields.not_omits fields data h

/-- Nothing required is missing in what is accepted. -/
theorem Fields.not_omits : ∀ (fields : Fields S) (data : Json),
    fields.Accepts conv data → ¬fields.Omits data
  | .nil, _, _ => id
  | .cons name required isArray elem rest, data, ⟨⟨hkey, hparts⟩, hrest⟩ => by
    rintro (⟨hrequired, hnone⟩ | ⟨value, hvalue, part, hpart, homits⟩ | homits)
    · obtain ⟨value, hvalue⟩ := hkey hrequired
      rw [hnone] at hvalue
      cases hvalue
    · exact Elem.not_omits elem part (hparts value hvalue part hpart) homits
    · exact Fields.not_omits rest data hrest homits

end

end Dss.Config
