import Dss.Config.Acceptance

/-!
# The order of the fields

The constructors of the fields of a `json_struct` are evaluated in any order, on the
same value, which those from an `njson &&` may change. But each depends on what is there
under its own name only, and changes nothing else (`Fields.confined_moves`). So if the
names are different (`Fields.Distinct`), the order does not matter:

* what is constructed from a const value is `Elem.copy` (`Elem.returns_copyIn`);
* what is constructed from a value that is moved is `Elem.moved`, which tells it without
  the changes and the order (`Elem.returns_move`).
-/

namespace Dss.Config

open Dss.Lib

variable {S V : Type}

mutual

/-- The names of the fields are different, at each level. -/
def Elem.Distinct : Elem S → Prop
  | .scalar _ => True
  | .struct fields => fields.Distinct

def Fields.Distinct : Fields S → Prop
  | .nil => True
  | .cons name _ _ elem rest => name ∉ rest.names ∧ elem.Distinct ∧ rest.Distinct

end

/-! ## What is moved -/

/-- A required field is constructed from a null where the key is missing; its elements
    are moved if it is an array. -/
def movedField (name : Bytes) (required isArray : Bool)
    (copy move : Json → Except Failure (Value V)) (data : Json) : Except Failure (Value V) :=
  if required then
    if data.isKeyed then
      collect isArray <$> (parts isArray ((data.get? name).getD .null)).mapM
        (if isArray then move else copy)
    else .error .thrown
  else
    match data.get? name with
    | some value => collect isArray <$> (parts isArray value).mapM move
    | none => .ok .none

mutual

def Elem.moved (conv : Conversion S V) : Elem S → Json → Except Failure (Value V)
  | .scalar type, data => .scalar <$> conv.convert type data
  | .struct fields, data => .struct <$> fields.moved conv data

def Fields.moved (conv : Conversion S V) :
    Fields S → Json → Except Failure (List (Bytes × Value V))
  | .nil, _ => return []
  | .cons name required isArray elem rest, data => do
    let value ← movedField name required isArray (elem.copy conv) (elem.moved conv) data
    let values ← rest.moved conv data
    return (name, value) :: values

end

/-! ## One field -/

/-- What a constructor of a field sees of the value: what is there under a name. -/
def view (data : Json) (name : Bytes) : Bool × Option Json := (data.isKeyed, data.get? name)

section

variable {name : Bytes} {required isArray : Bool} {data data' : Json} {v : Value V}
  {construct copy copy' move' : Json → Except Failure (Value V)} {move : Constructor V}
  {elems : List Json}

theorem returns_iff {c : Constructor V} : Returns c data v ↔ Prod.fst <$> c data = .ok v := by
  simp only [Returns, map_eq_ok, Prod.exists]
  constructor
  · rintro ⟨data', h⟩
    exact ⟨v, data', h, rfl⟩
  · rintro ⟨_, data', h, rfl⟩
    exact ⟨data', h⟩

theorem fst_moveElements :
    Prod.fst <$> moveElements move elems = elems.mapM fun elem => Prod.fst <$> move elem := by
  induction elems with
  | nil => rfl
  | cons elem elems ih =>
    rw [List.mapM_cons, ← ih, moveElements]
    simp only [map_bind, bind_map_left, map_pure]

theorem fst_moveArray (k : List Json → Json) :
    Prod.fst <$> (moveElements move data.elements >>= fun r => pure (Value.array r.1, k r.2)) =
      collect true <$> (parts true data).mapM fun elem => Prod.fst <$> move elem := by
  rw [parts, if_pos rfl, ← fst_moveElements]
  simp only [bind_pure_comp, Functor.map_map]
  rfl

theorem fst_moveElem (k : Json → Json) :
    Prod.fst <$> (move data >>= fun r => pure (r.1, k r.2)) =
      collect false <$> (parts false data).mapM fun elem => Prod.fst <$> move elem := by
  rw [collect_part]
  simp only [bind_pure_comp, Functor.map_map]

theorem fst_copyElem : Prod.fst <$> (copy data >>= fun r => pure (r, data')) =
    collect false <$> (parts false data).mapM copy := by
  rw [collect_part]
  simp only [map_bind, map_pure, bind_pure]

theorem fst_moveField_required : Prod.fst <$> moveField name true isArray copy move data =
    movedField name true isArray copy (fun elem => Prod.fst <$> move elem) data := by
  rw [movedField, if_pos rfl]
  by_cases h : data.isKeyed
  · rw [if_pos h]
    obtain ⟨data', hentry, -⟩ := Json.entry_of_isKeyed name h
    cases isArray with
    | true =>
      rw [moveField, moveRequiredArray, hentry]
      exact fst_moveArray fun elems => data'.set name (Json.setElements _ elems)
    | false =>
      rw [moveField, moveRequired, hentry]
      exact fst_copyElem
  · rw [if_neg h]
    have hentry := Json.entry_of_not_isKeyed name h
    cases isArray with
    | true =>
      rw [moveField, moveRequiredArray, hentry]
      rfl
    | false =>
      rw [moveField, moveRequired, hentry]
      rfl

theorem fst_moveField_optional : Prod.fst <$> moveField name false isArray copy move data =
    movedField name false isArray copy (fun elem => Prod.fst <$> move elem) data := by
  rw [movedField, if_neg Bool.false_ne_true]
  cases h : data.get? name with
  | some value =>
    have hcontains := Json.contains_eq_true.2 ⟨value, h⟩
    obtain ⟨data', hentry, -⟩ := Json.entry_of_isKeyed name (Json.isKeyed_of_get? h)
    rw [h, Option.getD_some] at hentry
    cases isArray with
    | true =>
      rw [moveField, moveOptionalArray, if_pos hcontains, hentry]
      exact fst_moveArray fun elems => data'.set name (Json.setElements _ elems)
    | false =>
      rw [moveField, moveOptional, if_pos hcontains, hentry]
      exact fst_moveElem fun value => data'.set name value
  | none =>
    have hcontains : ¬data.contains name = true := by simp [Json.contains, h]
    cases isArray with
    | true =>
      rw [moveField, moveOptionalArray, if_neg hcontains]
      rfl
    | false =>
      rw [moveField, moveOptional, if_neg hcontains]
      rfl

/-- What a constructor of a field constructs from a value that is moved. -/
theorem fst_moveField : Prod.fst <$> moveField name required isArray copy move data =
    movedField name required isArray copy (fun elem => Prod.fst <$> move elem) data := by
  cases required with
  | true => exact fst_moveField_required
  | false => exact fst_moveField_optional

/-! ## What a constructor of a field changes -/

theorem view_entry {value : Json} {key : Bytes} (h : data.entry name = .ok (value, data'))
    (hkey : key ≠ name) : view data' key = view data key := by
  have hkeyed : data.isKeyed := by
    by_contra hnot
    rw [Json.entry_of_not_isKeyed name hnot] at h
    cases h
  obtain ⟨data₁, hentry, hkeyed', hget⟩ := Json.entry_of_isKeyed name hkeyed
  obtain ⟨-, rfl⟩ := Prod.mk.inj (Except.ok.inj (h.symm.trans hentry))
  rw [view, view, hkeyed', hkeyed, hget key hkey]

theorem view_set {value : Json} {key : Bytes} (hkey : key ≠ name) :
    view (data.set name value) key = view data key := by
  rw [view, view, Json.isKeyed_set, Json.get?_set_of_ne hkey]

/-- What is there under other names stays as it is. -/
theorem view_moveField (h : moveField name required isArray copy move data = .ok (v, data'))
    {key : Bytes} (hkey : key ≠ name) : view data' key = view data key := by
  cases required <;> cases isArray
  · rw [moveField, moveOptional] at h
    split_ifs at h
    · obtain ⟨⟨value, data₁⟩, hentry, h⟩ := bind_eq_ok.1 h
      obtain ⟨⟨result, value'⟩, -, h⟩ := bind_eq_ok.1 h
      obtain ⟨-, rfl⟩ := Prod.mk.inj (Except.ok.inj h)
      rw [view_set hkey, view_entry hentry hkey]
    · obtain ⟨-, rfl⟩ := Prod.mk.inj (Except.ok.inj h)
      rfl
  · rw [moveField, moveOptionalArray] at h
    split_ifs at h
    · obtain ⟨⟨array, data₁⟩, hentry, h⟩ := bind_eq_ok.1 h
      obtain ⟨⟨result, elems⟩, -, h⟩ := bind_eq_ok.1 h
      obtain ⟨-, rfl⟩ := Prod.mk.inj (Except.ok.inj h)
      rw [view_set hkey, view_entry hentry hkey]
    · obtain ⟨-, rfl⟩ := Prod.mk.inj (Except.ok.inj h)
      rfl
  · obtain ⟨⟨value, data₁⟩, hentry, h⟩ := bind_eq_ok.1 h
    obtain ⟨result, -, h⟩ := bind_eq_ok.1 h
    obtain ⟨-, rfl⟩ := Prod.mk.inj (Except.ok.inj h)
    exact view_entry hentry hkey
  · obtain ⟨⟨array, data₁⟩, hentry, h⟩ := bind_eq_ok.1 h
    obtain ⟨⟨result, elems⟩, -, h⟩ := bind_eq_ok.1 h
    obtain ⟨-, rfl⟩ := Prod.mk.inj (Except.ok.inj h)
    rw [view_set hkey, view_entry hentry hkey]

theorem movedField_congr (h : view data name = view data' name) :
    movedField name required isArray copy copy' data =
      movedField name required isArray copy copy' data' := by
  obtain ⟨hkeyed, hget⟩ := Prod.mk.inj h
  rw [movedField, movedField, hkeyed, hget]

theorem confined_moveField :
    Confined view name (moveField name required isArray copy move) where
  reads data data' h v := by
    rw [returns_iff, returns_iff, fst_moveField, fst_moveField, movedField_congr h]
    exact id
  writes data v data' h key hkey := view_moveField h hkey

theorem confined_copyField :
    Confined view name fun data =>
      (·, data) <$> copyField name construct data required isArray where
  reads data data' h v := by
    obtain ⟨-, hget⟩ := Prod.mk.inj h
    simp only [returns_iff, Functor.map_map, id_map', copyField_eq_ok, hget, imp_self]
  writes data v data' h key hkey := by
    obtain ⟨v', -, heq⟩ := map_eq_ok.1 h
    obtain ⟨-, rfl⟩ := Prod.mk.inj heq
    rfl

end

/-! ## All fields -/

variable {conv : Conversion S V} {ord : EvaluationOrder} {data : Json} {v : Value V}

theorem Fields.Distinct.nodup : ∀ {fields : Fields S}, fields.Distinct → fields.names.Nodup
  | .nil, _ => List.nodup_nil
  | .cons _ _ _ _ _, h => List.nodup_cons.2 ⟨h.1, h.2.2.nodup⟩

/-- The fields hold what their constructors return on the value given, in any order. -/
theorem returns_constructIn {cs : List (Bytes × Constructor V)}
    (hcs : ∀ c ∈ cs, Confined view c.1 c.2) (hnames : (cs.map Prod.fst).Nodup) :
    Returns (constructIn ord cs) data v ↔ ∃ values, v = .struct values ∧
      List.Forall₂ (fun c value => value.1 = c.1 ∧ Returns c.2 data value.2) cs values := by
  simp only [← returns_runAll_perm hcs hnames (ord.perm (cs.map Prod.fst) data cs) .none]
  simp only [Returns, constructIn, bind_eq_ok, Prod.exists, pure, Except.pure, Except.ok.injEq,
    Prod.mk.injEq]
  constructor
  · rintro ⟨data', values, data₁, h, rfl, -⟩
    exact ⟨_, rfl, values, ⟨data₁, h⟩, rfl⟩
  · rintro ⟨_, rfl, values, ⟨data₁, h⟩, rfl⟩
    exact ⟨data₁, values, data₁, h, rfl, rfl⟩

theorem Fields.names_copiesIn : ∀ fields : Fields S,
    (fields.copiesIn conv ord).map Prod.fst = fields.names
  | .nil => rfl
  | .cons _ _ _ _ rest => congrArg _ rest.names_copiesIn

theorem Fields.names_moves : ∀ fields : Fields S,
    (fields.moves conv ord).map Prod.fst = fields.names
  | .nil => rfl
  | .cons _ _ _ _ rest => congrArg _ rest.names_moves

theorem Fields.confined_copiesIn : ∀ fields : Fields S,
    ∀ c ∈ fields.copiesIn conv ord, Confined view c.1 c.2
  | .nil => List.forall_mem_nil _
  | .cons _ _ _ _ rest => List.forall_mem_cons.2 ⟨confined_copyField, rest.confined_copiesIn⟩

theorem Fields.confined_moves : ∀ fields : Fields S,
    ∀ c ∈ fields.moves conv ord, Confined view c.1 c.2
  | .nil => List.forall_mem_nil _
  | .cons _ _ _ _ rest => List.forall_mem_cons.2 ⟨confined_moveField, rest.confined_moves⟩

section

variable {name : Bytes} {required isArray : Bool} {value : Json}
  {construct construct' copy copy' move move' : Json → Except Failure (Value V)}

/-- What a field is constructed to depends on what its parts are constructed to. -/
theorem collect_ok_congr (h : ∀ part v, construct part = .ok v ↔ construct' part = .ok v) :
    collect isArray <$> (parts isArray value).mapM construct = .ok v ↔
      collect isArray <$> (parts isArray value).mapM construct' = .ok v := by
  simp only [map_eq_ok, mapM_eq_ok, h]

theorem copyField_ok_congr (h : ∀ part v, construct part = .ok v ↔ construct' part = .ok v) :
    copyField name construct data required isArray = .ok v ↔
      copyField name construct' data required isArray = .ok v := by
  simp only [copyField_eq_ok, collect_ok_congr h]

theorem movedField_ok_congr (hcopy : ∀ part v, copy part = .ok v ↔ copy' part = .ok v)
    (hmove : ∀ part v, move part = .ok v ↔ move' part = .ok v) :
    movedField name required isArray copy move data = .ok v ↔
      movedField name required isArray copy' move' data = .ok v := by
  rw [movedField, movedField]
  cases required with
  | true =>
    rw [if_pos rfl, if_pos rfl]
    split_ifs
    · exact collect_ok_congr hmove
    · exact collect_ok_congr hcopy
    · rfl
  | false =>
    rw [if_neg Bool.false_ne_true, if_neg Bool.false_ne_true]
    cases data.get? name with
    | some value => exact collect_ok_congr hmove
    | none => rfl

end

theorem forall₂_cons_returns {name : Bytes} {c : Constructor V} {cs : List (Bytes × Constructor V)}
    {values : List (Bytes × Value V)} {x : Except Failure (Value V)}
    {xs : Except Failure (List (Bytes × Value V))} (hx : ∀ {v}, Returns c data v ↔ x = .ok v)
    (hxs : ∀ {values}, List.Forall₂ (fun c value => value.1 = c.1 ∧ Returns c.2 data value.2)
      cs values ↔ xs = .ok values) :
    List.Forall₂ (fun c value => value.1 = c.1 ∧ Returns c.2 data value.2) ((name, c) :: cs)
      values ↔ (do return (name, ← x) :: (← xs)) = .ok values := by
  simp only [List.forall₂_cons_left_iff, bind_eq_ok, pure, Except.pure, Except.ok.injEq, hxs, hx]
  constructor
  · rintro ⟨⟨_, v⟩, vs, ⟨rfl, hv⟩, hvs, rfl⟩
    exact ⟨v, hv, vs, hvs, rfl⟩
  · rintro ⟨v, hv, vs, hvs, rfl⟩
    exact ⟨(name, v), vs, ⟨rfl, hv⟩, hvs, rfl⟩

mutual

/-- What is constructed from a const value in any order is what is in the order listed. -/
theorem Elem.returns_copyIn : ∀ {elem : Elem S}, elem.Distinct → ∀ {data : Json} {v : Value V},
    Returns (elem.copyIn conv ord) data v ↔ elem.copy conv data = .ok v
  | .scalar type, _, data, v => by
    simp only [returns_iff, Elem.copyIn, Elem.copy, Functor.map_map]
  | .struct fields, h, data, v => by
    have hnames : ((fields.copiesIn conv ord).map Prod.fst).Nodup :=
      fields.names_copiesIn ▸ h.nodup
    simp only [Elem.copyIn, Elem.copy, map_eq_ok,
      returns_constructIn fields.confined_copiesIn hnames, Fields.forall₂_copiesIn h]
    simp only [and_comm, eq_comm]

theorem Fields.forall₂_copiesIn : ∀ {fields : Fields S}, fields.Distinct → ∀ {data : Json}
    {values : List (Bytes × Value V)},
    List.Forall₂ (fun c value => value.1 = c.1 ∧ Returns c.2 data value.2)
      (fields.copiesIn conv ord) values ↔ fields.copy conv data = .ok values
  | .nil, _, data, values => by
    simp [Fields.copiesIn, Fields.copy, pure, Except.pure, eq_comm]
  | .cons name required isArray elem rest, ⟨_, helem, hrest⟩, data, values => by
    refine forall₂_cons_returns ?_ (Fields.forall₂_copiesIn hrest)
    intro v
    simp only [returns_iff, Functor.map_map, id_map']
    exact copyField_ok_congr fun part v =>
      returns_iff.symm.trans (Elem.returns_copyIn helem)

end

mutual

/-- What is constructed from a value that is moved. -/
theorem Elem.returns_move : ∀ {elem : Elem S}, elem.Distinct → ∀ {data : Json} {v : Value V},
    Returns (elem.move conv ord) data v ↔ elem.moved conv data = .ok v
  | .scalar type, _, data, v => by
    simp only [returns_iff, Elem.move, Elem.moved, Functor.map_map]
  | .struct fields, h, data, v => by
    have hnames : ((fields.moves conv ord).map Prod.fst).Nodup := fields.names_moves ▸ h.nodup
    simp only [Elem.move, Elem.moved, map_eq_ok, returns_constructIn fields.confined_moves hnames,
      Fields.forall₂_moves h]
    simp only [and_comm, eq_comm]

theorem Fields.forall₂_moves : ∀ {fields : Fields S}, fields.Distinct → ∀ {data : Json}
    {values : List (Bytes × Value V)},
    List.Forall₂ (fun c value => value.1 = c.1 ∧ Returns c.2 data value.2)
      (fields.moves conv ord) values ↔ fields.moved conv data = .ok values
  | .nil, _, data, values => by
    simp [Fields.moves, Fields.moved, pure, Except.pure, eq_comm]
  | .cons name required isArray elem rest, ⟨_, helem, hrest⟩, data, values => by
    refine forall₂_cons_returns ?_ (Fields.forall₂_moves hrest)
    intro v
    rw [returns_iff, fst_moveField]
    exact movedField_ok_congr (fun part v => returns_iff.symm.trans (Elem.returns_copyIn helem))
      fun part v => returns_iff.symm.trans (Elem.returns_move helem)

end

end Dss.Config
