import Dss.Config.Orders

/-!
# Copying and moving a `json_struct`

The constructor from an `njson &&` accepts what the one from a `const njson &` accepts,
and constructs the same (`Elem.moved_of_copy`). But it accepts more: where it looks for a
required key that is missing, it inserts a null, which is an array without elements,
and a `json_struct` whose fields are all optional (`Elem.AcceptsMoved`). The two agree,
whatever the order of the fields, unless this is so (`copy_move_agree_iff`).
-/

namespace Dss.Config

open Dss.Lib

variable {S V : Type} (conv : Conversion S V)

/-- The two constructors of a `json_struct` return the same, or none returns, in whatever
    order the fields of the one and the other are constructed. -/
def CopyMoveAgree (fields : Fields S) (data : Json) : Prop :=
  ∀ ord ord' v, Returns ((Elem.struct fields).copyIn conv ord) data v ↔
    Returns ((Elem.struct fields).move conv ord') data v

/-- What each of them returns is the same in any order of the fields. -/
def OrderIndependent (fields : Fields S) (data : Json) : Prop :=
  ∀ ord ord' v,
    (Returns ((Elem.struct fields).copyIn conv ord) data v ↔
      Returns ((Elem.struct fields).copyIn conv ord') data v) ∧
    (Returns ((Elem.struct fields).move conv ord) data v ↔
      Returns ((Elem.struct fields).move conv ord') data v)

/-- A null stands for what is required and missing. -/
def FieldAcceptsMoved (name : Bytes) (required isArray : Bool) (accepts acceptsMoved : Json → Prop)
    (data : Json) : Prop :=
  if required then
    data.isKeyed ∧ ∀ part ∈ parts isArray ((data.get? name).getD .null),
      if isArray then acceptsMoved part else accepts part
  else ∀ value, data.get? name = some value → ∀ part ∈ parts isArray value, acceptsMoved part

mutual

/-- The value is accepted where it is moved. -/
def Elem.AcceptsMoved : Elem S → Json → Prop
  | .scalar type, data => ∃ v, conv.convert type data = .ok v
  | .struct fields, data => fields.AcceptsMoved data

def Fields.AcceptsMoved : Fields S → Json → Prop
  | .nil, _ => True
  | .cons name required isArray elem rest, data =>
    FieldAcceptsMoved name required isArray (elem.Accepts conv) elem.AcceptsMoved data ∧
      rest.AcceptsMoved data

end

variable {conv}

/-! ## What is copied is moved -/

section

variable {name : Bytes} {required isArray : Bool} {data value : Json} {v : Value V}
  {copy move : Json → Except Failure (Value V)}

theorem collect_ok_mono (h : ∀ part v, copy part = .ok v → move part = .ok v)
    (hv : collect isArray <$> (parts isArray value).mapM copy = .ok v) :
    collect isArray <$> (parts isArray value).mapM move = .ok v := by
  simp only [map_eq_ok, mapM_eq_ok] at hv ⊢
  obtain ⟨vs, hvs, rfl⟩ := hv
  exact ⟨vs, hvs.imp fun part v => h part v, rfl⟩

theorem movedField_of_copyField (h : ∀ part v, copy part = .ok v → move part = .ok v)
    (hv : copyField name copy data required isArray = .ok v) :
    movedField name required isArray copy move data = .ok v := by
  rw [movedField]
  rcases copyField_eq_ok.1 hv with ⟨value, hvalue, hv'⟩ | ⟨hnone, rfl, rfl⟩
  · cases required with
    | true =>
      rw [if_pos rfl, if_pos (Json.isKeyed_of_get? hvalue), hvalue, Option.getD_some]
      cases isArray with
      | true => exact collect_ok_mono h hv'
      | false => exact hv'
    | false =>
      rw [if_neg Bool.false_ne_true, hvalue]
      exact collect_ok_mono h hv'
  · rw [if_neg Bool.false_ne_true, hnone]

end

mutual

theorem Elem.moved_of_copy : ∀ (elem : Elem S) (data : Json) (v : Value V),
    elem.copy conv data = .ok v → elem.moved conv data = .ok v
  | .scalar _, _, _ => id
  | .struct fields, data, v => by
    simp only [Elem.copy, Elem.moved, map_eq_ok]
    rintro ⟨vs, hvs, rfl⟩
    exact ⟨vs, Fields.moved_of_copy fields data vs hvs, rfl⟩

theorem Fields.moved_of_copy : ∀ (fields : Fields S) (data : Json) (vs : List (Bytes × Value V)),
    fields.copy conv data = .ok vs → fields.moved conv data = .ok vs
  | .nil, _, _ => id
  | .cons name required isArray elem rest, data, vs => by
    simp only [Fields.copy, Fields.moved, bind_eq_ok]
    rintro ⟨v, hv, vs', hvs, h⟩
    exact ⟨v, movedField_of_copyField (Elem.moved_of_copy elem) hv, vs',
      Fields.moved_of_copy rest data vs' hvs, h⟩

end

/-! ## What is accepted -/

section

variable {name : Bytes} {required isArray : Bool} {data : Json}
  {copy move : Json → Except Failure (Value V)}

theorem exists_movedField_ok : (∃ v, movedField name required isArray copy move data = .ok v) ↔
    FieldAcceptsMoved name required isArray (fun part => ∃ v, copy part = .ok v)
      (fun part => ∃ v, move part = .ok v) data := by
  rw [movedField, FieldAcceptsMoved]
  cases required with
  | true =>
    rw [if_pos rfl, if_pos rfl]
    by_cases h : data.isKeyed
    · rw [if_pos h, exists_collect_ok, and_iff_right h]
      cases isArray <;> rfl
    · rw [if_neg h]
      exact iff_of_false (by simp) fun h' => h h'.1
  | false =>
    rw [if_neg Bool.false_ne_true, if_neg Bool.false_ne_true]
    cases data.get? name with
    | some value =>
      rw [exists_collect_ok]
      simp
    | none => simp

end

mutual

theorem Elem.exists_moved_ok : ∀ (elem : Elem S) (data : Json),
    (∃ v, elem.moved conv data = .ok v) ↔ elem.AcceptsMoved conv data
  | .scalar type, data => by
    simp [Elem.moved, Elem.AcceptsMoved, map_eq_ok]
  | .struct fields, data => by
    rw [Elem.AcceptsMoved, ← Fields.exists_moved_ok fields data]
    simp [Elem.moved, map_eq_ok]

theorem Fields.exists_moved_ok : ∀ (fields : Fields S) (data : Json),
    (∃ vs, fields.moved conv data = .ok vs) ↔ fields.AcceptsMoved conv data
  | .nil, _ => by simp [Fields.moved, Fields.AcceptsMoved, pure, Except.pure]
  | .cons name required isArray elem rest, data => by
    have hmove : elem.AcceptsMoved conv = fun part => ∃ v, elem.moved conv part = .ok v := by
      funext part
      exact propext (Elem.exists_moved_ok elem part).symm
    rw [Fields.AcceptsMoved, ← Fields.exists_moved_ok rest data, elem.accepts_eq, hmove,
      ← exists_movedField_ok]
    simp only [Fields.moved, bind_eq_ok, pure, Except.pure, Except.ok.injEq]
    constructor
    · rintro ⟨_, v, hv, vs, hvs, -⟩
      exact ⟨⟨v, hv⟩, vs, hvs⟩
    · rintro ⟨⟨v, hv⟩, vs, hvs⟩
      exact ⟨_, v, hv, vs, hvs, rfl⟩

end

/-! ## What is missing -/

mutual

theorem Elem.accepts_of_not_omits : ∀ (elem : Elem S) (data : Json),
    elem.AcceptsMoved conv data → ¬elem.Omits data → elem.Accepts conv data
  | .scalar _, _, h, _ => h
  | .struct fields, data, h, hnot => Fields.accepts_of_not_omits fields data h hnot

/-- What is accepted where it is moved is accepted if nothing required is missing. -/
theorem Fields.accepts_of_not_omits : ∀ (fields : Fields S) (data : Json),
    fields.AcceptsMoved conv data → ¬fields.Omits data → fields.Accepts conv data
  | .nil, _, _, _ => trivial
  | .cons name required isArray elem rest, data, ⟨hfield, hrest⟩, hnot => by
    simp only [Fields.Omits, not_or] at hnot
    obtain ⟨hkey, hparts, hnot⟩ := hnot
    refine ⟨⟨fun hrequired => ?_, fun value hvalue part hpart => ?_⟩,
      Fields.accepts_of_not_omits rest data hrest hnot⟩
    · exact Option.ne_none_iff_exists'.1 fun hnone => hkey ⟨hrequired, hnone⟩
    · have hmoved : elem.Accepts conv part ∨ elem.AcceptsMoved conv part := by
        rw [FieldAcceptsMoved, hvalue, Option.getD_some] at hfield
        split_ifs at hfield
        · exact .inr (hfield.2 part hpart)
        · exact .inl (hfield.2 part hpart)
        · exact .inr (hfield value rfl part hpart)
      rcases hmoved with h | h
      · exact h
      · exact Elem.accepts_of_not_omits elem part h fun homits =>
          hparts ⟨value, hvalue, part, hpart, homits⟩

end

/-! ## Agreement -/

/-- The order of the fields does not matter, and the two constructors agree unless a
    required key is missing in a value that is accepted where it is moved. -/
theorem copy_move_agree_iff (fields : Fields S) (h : fields.Distinct) (data : Json) :
    OrderIndependent conv fields data ∧
      (CopyMoveAgree conv fields data ↔
        ¬(fields.AcceptsMoved conv data ∧ fields.Omits data)) := by
  have hstruct : (Elem.struct fields).Distinct := h
  have hcopy : ∀ ord v, Returns ((Elem.struct fields).copyIn conv ord) data v ↔
      (Elem.struct fields).copy conv data = .ok v := fun _ _ => Elem.returns_copyIn hstruct
  have hmove : ∀ ord v, Returns ((Elem.struct fields).move conv ord) data v ↔
      (Elem.struct fields).moved conv data = .ok v := fun _ _ => Elem.returns_move hstruct
  have hmono : ∀ v, (Elem.struct fields).copy conv data = .ok v →
      (Elem.struct fields).moved conv data = .ok v := Elem.moved_of_copy _ _
  have hcopies : (∃ v, (Elem.struct fields).copy conv data = .ok v) ↔ fields.Accepts conv data :=
    Elem.exists_copy_ok _ _
  have hmoves : (∃ v, (Elem.struct fields).moved conv data = .ok v) ↔
      fields.AcceptsMoved conv data := Elem.exists_moved_ok _ _
  refine ⟨fun ord ord' v => ?_, fun hagree => ?_, fun hnot ord ord' v => ?_⟩
  · rw [hcopy, hcopy, hmove, hmove]
    exact ⟨.rfl, .rfl⟩
  · rintro ⟨hmoved, homits⟩
    obtain ⟨v, hv⟩ := hmoves.2 hmoved
    have hreturns := (hagree .listed .listed v).2 ((hmove _ v).2 hv)
    exact fields.not_omits data (hcopies.1 ⟨v, (hcopy _ v).1 hreturns⟩) homits
  · rw [hcopy, hmove]
    refine ⟨hmono v, fun hv => ?_⟩
    -- what is moved is accepted by the other constructor, which constructs the same
    have hmoved := hmoves.1 ⟨v, hv⟩
    have haccepts := fields.accepts_of_not_omits data hmoved fun homits => hnot ⟨hmoved, homits⟩
    obtain ⟨v', hv'⟩ := hcopies.2 haccepts
    obtain rfl := Except.ok.inj ((hmono v' hv').symm.trans hv)
    exact hv'

/-- A required array of strings. -/
def options : Fields Unit := .cons (ascii "options") true true (.scalar ()) .nil

theorem copy_move_agree_options :
    let document := Json.object [(ascii "options", .array [.string (ascii "a")])]
    OrderIndependent texts options document ∧ CopyMoveAgree texts options document := by
  intro document
  obtain ⟨horder, hagree⟩ := copy_move_agree_iff options (by simp [options, Fields.Distinct,
    Elem.Distinct, Fields.names]) document
  refine ⟨horder, hagree.2 ?_⟩
  rintro ⟨-, ⟨-, hnone⟩ | ⟨_, _, _, _, homits⟩ | homits⟩
  · cases hnone
  · exact homits
  · exact homits

/-- A required array that is missing has no elements where it is moved. -/
theorem not_copyMoveAgree_empty : options.Distinct ∧ ¬CopyMoveAgree texts options (.object []) := by
  refine ⟨by simp [options, Fields.Distinct, Elem.Distinct, Fields.names], fun h => ?_⟩
  obtain ⟨_, hcopy⟩ := (h .listed .listed (.struct [(ascii "options", .array [])])).2 ⟨_, rfl⟩
  cases hcopy

end Dss.Config
