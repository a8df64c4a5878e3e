import Dss.Config.Acceptance

/-!
# What conforms to a schema

A document conforms to the fields of a `json_struct` if every required key is there and
what is there is of the kind declared (`Fields.Conforms`). What is constructed from a
document that conforms tells what it says (`Elem.decodes_of_copy`). But more documents
are accepted: any value can be iterated, so that one that is no array is taken for an
array field, and a `json_struct` without required fields is constructed from any value
(`Fields.Loose`). Where no value is taken so, or the document is rejected for another
reason, what is accepted is exactly what conforms (`decodesExactly_iff`).
-/

namespace Dss.Config

open Dss.Lib

/-! ## Documents that conform -/

/-- The value is of the kind of the field: an array of what conforms, or what conforms. -/
def OfKind (isArray : Bool) (conforms : Json → Prop) (value : Json) : Prop :=
  if isArray then ∃ elems, value = .array elems ∧ ∀ elem ∈ elems, conforms elem
  else conforms value

/-- What is required is there, and what is there is of the kind of the field. -/
def FieldConforms (name : Bytes) (required isArray : Bool) (conforms : Json → Prop)
    (data : Json) : Prop :=
  (required → ∃ value, data.get? name = some value) ∧
    ∀ value, data.get? name = some value → OfKind isArray conforms value

mutual

def Elem.Conforms : Elem Unit → Json → Prop
  | .scalar _, data => ∃ s, data = .string s
  | .struct fields, data => (∃ members, data = .object members) ∧ fields.Conforms data

def Fields.Conforms : Fields Unit → Json → Prop
  | .nil, _ => True
  | .cons name required isArray elem rest, data =>
    FieldConforms name required isArray elem.Conforms data ∧ rest.Conforms data

end

/-! ## What a document says -/

/-- `has_value()`. -/
def Value.hasValue {V : Type} : Value V → Bool
  | .none => false
  | _ => true

/-- An array is as long as the one in the document, and in the same order. -/
def ValueDecodes (isArray : Bool) (decodes : Json → Value Bytes → Prop) (value : Json)
    (v : Value Bytes) : Prop :=
  if isArray then ∃ elems values, value = .array elems ∧ v = .array values ∧
    List.Forall₂ decodes elems values
  else decodes value v

/-- The field has a value if its key is there, and this value. -/
structure FieldDecodes (name : Bytes) (isArray : Bool) (decodes : Json → Value Bytes → Prop)
    (data : Json) (v : Value Bytes) : Prop where
  hasValue : v.hasValue = data.contains name
  value : ∀ value, data.get? name = some value → ValueDecodes isArray decodes value v

mutual

/-- What is constructed is what the document says. -/
def Elem.DecodesTo : Elem Unit → Json → Value Bytes → Prop
  | .scalar _, data, v => ∃ s, data = .string s ∧ v = .scalar s
  | .struct fields, data, v => ∃ vs, v = .struct vs ∧ fields.DecodesTo data vs

def Fields.DecodesTo : Fields Unit → Json → List (Bytes × Value Bytes) → Prop
  | .nil, _, vs => vs = []
  | .cons name _ isArray elem rest, data, vs =>
    ∃ v vs', vs = (name, v) :: vs' ∧ FieldDecodes name isArray elem.DecodesTo data v ∧
      rest.DecodesTo data vs'

end

/-- The constructor accepts exactly the documents that conform, and constructs what they
    say. -/
structure DecodesExactly (fields : Fields Unit) (data : Json) : Prop where
  accepts : (∃ v, (Elem.struct fields).copy texts data = .ok v) ↔
    (Elem.struct fields).Conforms data
  faithful : ∀ v, (Elem.struct fields).copy texts data = .ok v →
    (Elem.struct fields).DecodesTo data v

/-! ## Documents that are taken loosely -/

/-- There is a value that is no array for an array, or one that is taken loosely. -/
def FieldLoose (name : Bytes) (isArray : Bool) (loose : Json → Prop) (data : Json) : Prop :=
  ∃ value, data.get? name = some value ∧
    ((isArray ∧ ¬∃ elems, value = .array elems) ∨ ∃ part ∈ parts isArray value, loose part)

mutual

/-- A value that is no object is there for a `json_struct`, or one that is no array for an
    array. -/
def Elem.Loose : Elem Unit → Json → Prop
  | .scalar _, _ => False
  | .struct fields, data => (¬∃ members, data = .object members) ∨ fields.Loose data

def Fields.Loose : Fields Unit → Json → Prop
  | .nil, _ => False
  | .cons name _ isArray elem rest, data =>
    FieldLoose name isArray elem.Loose data ∨ rest.Loose data

end

/-! ## What conforms is accepted -/

section

variable {name : Bytes} {required isArray : Bool} {accepts loose : Json → Prop} {data value : Json}

theorem ofKind_iff : OfKind isArray (fun part => accepts part ∧ ¬loose part) value ↔
    (∀ part ∈ parts isArray value, accepts part) ∧
      ¬((isArray ∧ ¬∃ elems, value = .array elems) ∨ ∃ part ∈ parts isArray value, loose part) := by
  cases isArray with
  | true =>
    by_cases h : ∃ elems, value = .array elems
    · obtain ⟨elems, rfl⟩ := h
      simp [OfKind, parts, Json.elements, forall_and]
    · rw [OfKind, if_pos rfl]
      refine iff_of_false ?_ fun h' => h'.2 (.inl ⟨rfl, h⟩)
      rintro ⟨elems, helems, -⟩
      exact h ⟨elems, helems⟩
  | false => simp [OfKind, parts]

theorem fieldConforms_iff :
    FieldConforms name required isArray (fun part => accepts part ∧ ¬loose part) data ↔
      FieldAccepts name required isArray accepts data ∧ ¬FieldLoose name isArray loose data := by
  simp only [FieldConforms, FieldAccepts, FieldLoose, ofKind_iff, not_exists, not_and,
    forall_and, and_assoc]

end

theorem accepts_scalar_iff {type : Unit} {data : Json} :
    (Elem.scalar type).Accepts texts data ↔ ∃ s, data = .string s := by
  cases data <;> simp [Elem.Accepts, texts, Json.toText]

mutual

theorem Elem.conforms_iff : ∀ (elem : Elem Unit) (data : Json),
    elem.Conforms data ↔ elem.Accepts texts data ∧ ¬elem.Loose data
  | .scalar _, data => by
    rw [Elem.Conforms, accepts_scalar_iff, Elem.Loose, not_false_iff, and_true]
  | .struct fields, data => by
    rw [Elem.Conforms, Elem.Accepts, Elem.Loose, Fields.conforms_iff fields data, not_or, not_not]
    tauto

/-- What conforms is what is accepted and not taken loosely. -/
theorem Fields.conforms_iff : ∀ (fields : Fields Unit) (data : Json),
    fields.Conforms data ↔ fields.Accepts texts data ∧ ¬fields.Loose data
  | .nil, _ => by simp [Fields.Conforms, Fields.Accepts, Fields.Loose]
  | .cons name required isArray elem rest, data => by
    have helem : elem.Conforms = fun part => elem.Accepts texts part ∧ ¬elem.Loose part := by
      funext part
      exact propext (Elem.conforms_iff elem part)
    rw [Fields.Conforms, Fields.Accepts, Fields.Loose, helem, fieldConforms_iff,
      Fields.conforms_iff rest data, not_or]
    tauto

end

/-! ## What is constructed -/

section

variable {name : Bytes} {required isArray : Bool} {data value : Json} {v : Value Bytes}
  {construct : Json → Except Failure (Value Bytes)} {decodes : Json → Value Bytes → Prop}

theorem valueDecodes_of_collect
    (h : ∀ part ∈ parts isArray value, ∀ v, construct part = .ok v → decodes part v)
    (hkind : isArray → ∃ elems, value = .array elems)
    (hv : collect isArray <$> (parts isArray value).mapM construct = .ok v) :
    ValueDecodes isArray decodes value v := by
  cases isArray with
  | true =>
    obtain ⟨elems, rfl⟩ := hkind rfl
    obtain ⟨values, hvalues, rfl⟩ := map_eq_ok.1 hv
    exact ⟨elems, values, rfl, rfl, forall₂_imp_of_mem h (mapM_eq_ok.1 hvalues)⟩
  | false =>
    rw [collect_part] at hv
    exact h value (List.mem_singleton.2 rfl) v hv

theorem Elem.hasValue_of_copy {elem : Elem Unit} (h : elem.copy texts data = .ok v) :
    v.hasValue = true := by
  cases elem with
  | scalar type =>
    obtain ⟨s, -, rfl⟩ := map_eq_ok.1 h
    rfl
  | struct fields =>
    obtain ⟨vs, -, rfl⟩ := map_eq_ok.1 h
    rfl

theorem hasValue_of_collect (h : ∀ part v, construct part = .ok v → v.hasValue = true)
    (hv : collect isArray <$> (parts isArray value).mapM construct = .ok v) :
    v.hasValue = true := by
  cases isArray with
  | true =>
    obtain ⟨values, -, rfl⟩ := map_eq_ok.1 hv
    rfl
  | false =>
    rw [collect_part] at hv
    exact h value v hv

theorem fieldDecodes_of_copyField {loose : Json → Prop}
    (hvalue : ∀ part v, construct part = .ok v → v.hasValue = true)
    (h : ∀ part v, ¬loose part → construct part = .ok v → decodes part v)
    (hloose : ¬FieldLoose name isArray loose data)
    (hv : copyField name construct data required isArray = .ok v) :
    FieldDecodes name isArray decodes data v := by
  rcases copyField_eq_ok.1 hv with ⟨value, hget, hv⟩ | ⟨hget, -, rfl⟩
  · have hnot := fun h => hloose ⟨value, hget, h⟩
    constructor
    · rw [hasValue_of_collect hvalue hv, Json.contains, hget, Option.isSome_some]
    · intro value' hget'
      obtain rfl := Option.some.inj (hget.symm.trans hget')
      refine valueDecodes_of_collect (fun part hpart v => h part v fun hl => ?_) ?_ hv
      · exact hnot (.inr ⟨part, hpart, hl⟩)
      · exact fun harray => by_contra fun hno => hnot (.inl ⟨harray, hno⟩)
  · constructor
    · rw [Json.contains, hget, Option.isSome_none]
      rfl
    · intro value hget'
      rw [hget] at hget'
      cases hget'

end

mutual

/-- What is constructed is what the document says, if no value is taken loosely. -/
theorem Elem.decodes_of_copy : ∀ (elem : Elem Unit) (data : Json) (v : Value Bytes),
    ¬elem.Loose data → elem.copy texts data = .ok v → elem.DecodesTo data v
  | .scalar type, data, v, _, h => by
    obtain ⟨s, hs, rfl⟩ := map_eq_ok.1 h
    cases data with
    | string t => exact ⟨t, rfl, congrArg _ (Except.ok.inj hs).symm⟩
    | _ => cases hs
  | .struct fields, data, v, hloose, h => by
    obtain ⟨vs, hvs, rfl⟩ := map_eq_ok.1 h
    exact ⟨vs, rfl, Fields.decodes_of_copy fields data vs (fun hl => hloose (.inr hl)) hvs⟩

theorem Fields.decodes_of_copy : ∀ (fields : Fields Unit) (data : Json)
    (vs : List (Bytes × Value Bytes)),
    ¬fields.Loose data → fields.copy texts data = .ok vs → fields.DecodesTo data vs
  | .nil, _, vs, _, h => (Except.ok.inj h).symm
  | .cons name required isArray elem rest, data, vs, hloose, h => by
    rw [Fields.Loose, not_or] at hloose
    simp only [Fields.copy, bind_eq_ok, pure, Except.pure, Except.ok.injEq] at h
    obtain ⟨v, hv, vs', hvs, rfl⟩ := h
    exact ⟨v, vs', rfl, fieldDecodes_of_copyField (fun _ _ => Elem.hasValue_of_copy)
      (Elem.decodes_of_copy elem) hloose.1 hv, Fields.decodes_of_copy rest data vs' hloose.2 hvs⟩

end

/-- Exactly the documents that conform are accepted, and decoded as they are written,
    unless a value is taken loosely in a document that is accepted. -/
theorem decodesExactly_iff (fields : Fields Unit) (members : List (Bytes × Json)) :
    DecodesExactly fields (.object members) ↔
      ¬(fields.Accepts texts (.object members) ∧ fields.Loose (.object members)) := by
  have haccepts : (∃ v, (Elem.struct fields).copy texts (.object members) = .ok v) ↔
      fields.Accepts texts (.object members) := Elem.exists_copy_ok _ _
  have hconforms : (Elem.struct fields).Conforms (.object members) ↔
      fields.Accepts texts (.object members) ∧ ¬fields.Loose (.object members) := by
    rw [Elem.Conforms, Fields.conforms_iff]
    exact and_iff_right ⟨members, rfl⟩
  constructor
  · rintro h ⟨hfields, hloose⟩
    exact (hconforms.1 (h.accepts.1 (haccepts.2 hfields))).2 hloose
  · intro hnot
    refine ⟨?_, fun v hv => Elem.decodes_of_copy _ _ v ?_ hv⟩
    · rw [haccepts, hconforms]
      exact ⟨fun h => ⟨h, fun hloose => hnot ⟨h, hloose⟩⟩, And.left⟩
    · rintro (hno | hloose)
      · exact hno ⟨members, rfl⟩
      · exact hnot ⟨haccepts.1 ⟨v, hv⟩, hloose⟩

/-- A string is taken for an array of one. -/
theorem not_decodesExactly_string :
    ¬DecodesExactly (.cons (ascii "options") true true (.scalar ()) .nil)
      (.object [(ascii "options", .string (ascii "a"))]) := by
  intro h
  obtain ⟨-, ⟨-, hkind⟩, -⟩ := h.accepts.1
    ⟨.struct [(ascii "options", .array [.scalar (ascii "a")])], rfl⟩
  obtain ⟨_, harray, -⟩ := hkind _ rfl
  cases harray

end Dss.Config
