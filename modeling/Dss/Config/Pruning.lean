import Dss.Config.Documents
import Dss.Config.Orders

/-!
# What is not read from a document

A document may have members no field is read from, and has its members in some order.
`Elem.prune` drops those members at every level, and puts the others in the order of the
fields. A constructor does with what is left what it does with the document
(`unread_ignored`): in the order the fields are listed in, it constructs the same or
fails in the same way; in any other order, which may depend on the document, it
constructs the same or fails. The constructors of the configuration construct the same
or fail in the same way as well (`Configuration.ofJson_eq_of_prune_eq`).
-/

namespace Dss.Config

open Dss.Lib

variable {S V : Type}

/-- The value of a field, with its parts pruned. -/
def pruneValue (isArray : Bool) (prune : Json → Json) (value : Json) : Json :=
  if isArray then value.setElements (value.elements.map prune) else prune value

mutual

/-- The value without what is not read from it. -/
def Elem.prune : Elem S → Json → Json
  | .scalar _, data => data
  | .struct fields, data =>
    match data with
    | .object members => .object (fields.pruneMembers members)
    | data => data

/-- The members the fields are read from, in the order of the fields. -/
def Fields.pruneMembers : Fields S → List (Bytes × Json) → List (Bytes × Json)
  | .nil, _ => []
  | .cons name _ isArray elem rest, members =>
    match members.lookup name with
    | some value => (name, pruneValue isArray elem.prune value) :: rest.pruneMembers members
    | none => rest.pruneMembers members

end

section

variable {conv : Conversion S V} {fields : Fields S} {members members' : List (Bytes × Json)}
  {name key : Bytes} {required isArray : Bool} {data data' value : Json}
  {prune : Json → Json} {construct : Json → Except Failure (Value V)}

/-! ## One field -/

/-- Only objects are pruned. -/
theorem Elem.prune_of_ne_object (elem : Elem S) (h : ∀ members, data ≠ .object members) :
    elem.prune data = data := by
  cases elem with
  | scalar type => rfl
  | struct fields =>
    cases data with
    | object members => exact absurd rfl (h members)
    | null | boolean | integer | float | string | array => rfl

/-- The elements visited are the ones assigned. -/
theorem elements_setElements (hprune : ∀ data, (∀ members, data ≠ .object members) →
    prune data = data) :
    (value.setElements (value.elements.map prune)).elements = value.elements.map prune := by
  cases value with
  | array elems | null => rfl
  | object members =>
    have hlen : (members.map Prod.fst).length = ((members.map Prod.snd).map prune).length := by simp
    exact List.map_snd_zip hlen.ge
  | boolean b =>
    have hb : prune (.boolean b) = .boolean b := hprune _ nofun
    simp [Json.elements, Json.setElements, hb]
  | integer n =>
    have hn : prune (.integer n) = .integer n := hprune _ nofun
    simp [Json.elements, Json.setElements, hn]
  | float x =>
    have hx : prune (.float x) = .float x := hprune _ nofun
    simp [Json.elements, Json.setElements, hx]
  | string s =>
    have hs : prune (.string s) = .string s := hprune _ nofun
    simp [Json.elements, Json.setElements, hs]

/-- The parts of a pruned value are those of the value, pruned. -/
theorem parts_pruneValue (hprune : ∀ data, (∀ members, data ≠ .object members) →
    prune data = data) :
    parts isArray (pruneValue isArray prune value) = (parts isArray value).map prune := by
  cases isArray with
  | false => rfl
  | true => exact elements_setElements hprune

/-- A field does not tell two objects apart if it does not tell apart what is there under
    its name. -/
theorem copyField_congr (hprune : ∀ data, (∀ members, data ≠ .object members) →
    prune data = data) (hconstruct : ∀ part, construct (prune part) = construct part)
    (h : members'.lookup name = (members.lookup name).map (pruneValue isArray prune)) :
    copyField name construct (.object members') required isArray =
      copyField name construct (.object members) required isArray := by
  cases hlookup : members.lookup name with
  | some value =>
    rw [hlookup] at h
    have hget : (Json.object members).get? name = some value := hlookup
    have hget' : (Json.object members').get? name = some (pruneValue isArray prune value) := h
    have hcomp : construct ∘ prune = construct := funext hconstruct
    rw [copyField_of_get? hget, copyField_of_get? hget', parts_pruneValue hprune,
      List.mapM_map, hcomp]
  | none =>
    rw [hlookup] at h
    cases required with
    | false =>
      have hget : (Json.object members).get? name = none := hlookup
      have hget' : (Json.object members').get? name = none := h
      rw [copyField_optional hget, copyField_optional hget']
    | true =>
      have hmissing : ∀ {ms : List (Bytes × Json)}, ms.lookup name = none →
          (Json.object ms).index name = .error .undefined := fun hms => by rw [Json.index, hms]
      rw [copyField_required (hmissing hlookup), copyField_required (hmissing h)]

/-! ## All fields -/

/-- What is there under the names of the fields is the same, pruned. -/
def Fields.Agree : Fields S → List (Bytes × Json) → List (Bytes × Json) → Prop
  | .nil, _, _ => True
  | .cons name _ isArray elem rest, members, members' =>
    members'.lookup name = (members.lookup name).map (pruneValue isArray elem.prune) ∧
      rest.Agree members members'

theorem notMem_names_cons {elem : Elem S} {rest : Fields S} :
    key ∉ (Fields.cons name required isArray elem rest).names ↔
      key ≠ name ∧ key ∉ rest.names := by
  simp [Fields.names]

/-- A member no field is read from makes no difference. -/
theorem Fields.Agree.cons : ∀ {fields : Fields S}, key ∉ fields.names →
    fields.Agree members members' → fields.Agree members ((key, value) :: members')
  | .nil, _, _ => trivial
  | .cons _ _ _ _ _, hkey, h => by
    obtain ⟨hne, hkey⟩ := notMem_names_cons.1 hkey
    refine ⟨?_, h.2.cons hkey⟩
    rw [List.lookup_cons, beq_false_of_ne (Ne.symm hne)]
    exact h.1

theorem Fields.lookup_pruneMembers_of_notMem : ∀ {fields : Fields S}, key ∉ fields.names →
    (fields.pruneMembers members).lookup key = none
  | .nil, _ => rfl
  | .cons name _ isArray elem rest, hkey => by
    obtain ⟨hne, hkey⟩ := notMem_names_cons.1 hkey
    have hrest : (rest.pruneMembers members).lookup key = none :=
      Fields.lookup_pruneMembers_of_notMem hkey
    rw [Fields.pruneMembers]
    split
    · rw [List.lookup_cons, beq_false_of_ne hne]
      exact hrest
    · exact hrest

/-- Each field finds in the members left what it finds in all, if their names are
    different. -/
theorem Fields.agree_pruneMembers : ∀ {fields : Fields S}, fields.names.Nodup →
    fields.Agree members (fields.pruneMembers members)
  | .nil, _ => trivial
  | .cons name _ isArray elem rest, h => by
    obtain ⟨hname, hrest⟩ := List.nodup_cons.1 h
    have hagree : rest.Agree members (rest.pruneMembers members) :=
      Fields.agree_pruneMembers hrest
    unfold Fields.Agree
    rw [Fields.pruneMembers]
    split
    next value hlookup =>
      exact ⟨by rw [hlookup, List.lookup_cons_self]; rfl, hagree.cons hname⟩
    next hlookup =>
      refine ⟨?_, hagree⟩
      rw [hlookup]
      exact Fields.lookup_pruneMembers_of_notMem hname

/-- The members left are the ones there under the names of the fields, in their order. -/
theorem Fields.keys_pruneMembers : ∀ fields : Fields S,
    (fields.pruneMembers members).map Prod.fst =
      fields.names.filter fun name => (members.lookup name).isSome
  | .nil => rfl
  | .cons name _ _ _ rest => by
    have hrest := Fields.keys_pruneMembers rest
    rw [Fields.pruneMembers, Fields.names, List.filter_cons]
    split
    next value hlookup => rw [hlookup, List.map_cons, hrest]; rfl
    next hlookup => rw [hlookup, hrest]; rfl

mutual

/-- What is constructed from a value and from what is left of it is the same. -/
theorem Elem.copy_prune : ∀ {elem : Elem S}, elem.Distinct → ∀ data : Json,
    elem.copy conv (elem.prune data) = elem.copy conv data
  | .scalar _, _, _ => rfl
  | .struct fields, h, data => by
    cases data with
    | object members =>
      rw [Elem.prune, Elem.copy, Elem.copy,
        Fields.copy_of_agree h (Fields.agree_pruneMembers (Fields.Distinct.nodup h))]
    | null | boolean | integer | float | string | array => rfl

/-- Objects that agree are not told apart. -/
theorem Fields.copy_of_agree : ∀ {fields : Fields S}, fields.Distinct →
    ∀ {members members' : List (Bytes × Json)}, fields.Agree members members' →
      fields.copy conv (.object members') = fields.copy conv (.object members)
  | .nil, _, _, _, _ => rfl
  | .cons _ _ _ elem _, ⟨_, helem, hrest⟩, _, _, ⟨hlookup, hagree⟩ => by
    rw [Fields.copy, Fields.copy, Fields.copy_of_agree hrest hagree,
      copyField_congr (fun _ => elem.prune_of_ne_object) (Elem.copy_prune helem) hlookup]

end

theorem Fields.copy_prune (h : fields.Distinct) (data : Json) :
    fields.copy conv ((Elem.struct fields).prune data) = fields.copy conv data := by
  cases data with
  | object members => exact Fields.copy_of_agree h (Fields.agree_pruneMembers h.nodup)
  | null | boolean | integer | float | string | array => rfl

/-- From documents of which the same is left the same is constructed, in whatever
    order the fields are, and in the order listed they also fail in the same way. What
    is left of an object are the members that are read. -/
theorem unread_ignored (conv : Conversion S V) (fields : Fields S) (h : fields.Distinct) :
    (∀ data data' : Json, (Elem.struct fields).prune data = (Elem.struct fields).prune data' →
      fields.copy conv data = fields.copy conv data' ∧
        ∀ ord v, Returns ((Elem.struct fields).copyIn conv ord) data v ↔
          Returns ((Elem.struct fields).copyIn conv ord) data' v) ∧
      ∀ members, (fields.pruneMembers members).map Prod.fst =
        fields.names.filter fun name => (members.lookup name).isSome := by
  have hstruct : (Elem.struct fields).Distinct := h
  refine ⟨fun data data' hprune => ?_, fun members => fields.keys_pruneMembers⟩
  have hcopy : (Elem.struct fields).copy conv data = (Elem.struct fields).copy conv data' := by
    rw [← Elem.copy_prune hstruct, hprune, Elem.copy_prune hstruct]
  refine ⟨?_, fun ord v => by rw [Elem.returns_copyIn hstruct, Elem.returns_copyIn hstruct, hcopy]⟩
  rw [← Fields.copy_prune h, hprune, Fields.copy_prune h]

/-- The elements of an array may have members that are not read as well. -/
theorem unread_ignored_array :
    let fields : Fields Unit := .cons (ascii "nodes") false true
      (.struct (.cons (ascii "host") true false (.scalar ()) .nil)) .nil
    let host := (ascii "host", Json.string (ascii "a"))
    let comment := (ascii "comment", Json.null)
    fields.copy texts (.object [comment, (ascii "nodes", .array [.object [comment, host]])]) =
      fields.copy texts (.object [(ascii "nodes", .array [.object [host, comment]]), comment]) := by
  intro fields host comment
  have hdistinct : fields.Distinct := by simp [fields, Fields.Distinct, Elem.Distinct, Fields.names]
  exact ((unread_ignored texts fields hdistinct).1 _ _ rfl).1

/-! ## Members that are read -/

variable {α : Type} {elem : Elem S} {read : Json → Except Failure α}

/-- What is read from a value and from what is left of it is the same. -/
def ReadsPruned (elem : Elem S) (read : Json → Except Failure α) : Prop :=
  ∀ data, read (elem.prune data) = read data

theorem readsPruned_scalar {type : S} : ReadsPruned (.scalar type) read := fun _ => rfl

/-- An object is read by its members. -/
theorem readsPruned_struct (h : fields.names.Nodup) (hread : ∀ members members',
    fields.Agree members members' → read (.object members') = read (.object members)) :
    ReadsPruned (.struct fields) read := by
  intro data
  cases data with
  | object members => exact hread _ _ (Fields.agree_pruneMembers h)
  | null | boolean | integer | float | string | array => rfl

variable {key : String}

theorem member_object : member (.object members) key read =
    (members.lookup (ascii key)).elim (.error .undefined) read := by
  rw [member, Json.index]
  cases members.lookup (ascii key) <;> rfl

theorem optional_object : optional (.object members) key read =
    (members.lookup (ascii key)).elim (.ok none) fun value => some <$> read value := by
  rw [optional, Json.contains, Json.get?, member_object]
  cases members.lookup (ascii key) <;> rfl

theorem member_congr (hread : ReadsPruned elem read) (h : members'.lookup (ascii key) =
    (members.lookup (ascii key)).map (pruneValue false elem.prune)) :
    member (.object members') key read = member (.object members) key read := by
  rw [member_object, member_object, h]
  cases members.lookup (ascii key) with
  | none => rfl
  | some value => exact hread value

theorem optional_congr (hread : ReadsPruned elem read) (h : members'.lookup (ascii key) =
    (members.lookup (ascii key)).map (pruneValue false elem.prune)) :
    optional (.object members') key read = optional (.object members) key read := by
  rw [optional_object, optional_object, h]
  cases members.lookup (ascii key) with
  | none => rfl
  | some value => exact congrArg (some <$> ·) (hread value)

/-- The elements of an array are read one by one. -/
theorem optional_array_congr (hread : ReadsPruned elem read) (h : members'.lookup (ascii key) =
    (members.lookup (ascii key)).map (pruneValue true elem.prune)) :
    optional (.object members') key (fun array => array.elements.mapM read) =
      optional (.object members) key fun array => array.elements.mapM read := by
  have hcomp : read ∘ elem.prune = read := funext hread
  rw [optional_object, optional_object, h]
  cases members.lookup (ascii key) with
  | none => rfl
  | some value =>
    have helements : (pruneValue true elem.prune value).elements = value.elements.map elem.prune :=
      elements_setElements fun _ => elem.prune_of_ne_object
    rw [Option.map_some, Option.elim, Option.elim, helements, List.mapM_map, hcomp]

end

/-! ## The configuration -/

variable (cast : Cast)

theorem RotateConfiguration.readsPruned : ReadsPruned (.struct fields) (ofJson cast) := by
  refine readsPruned_struct (by decide) fun _ _ ⟨hsize, hfiles, _⟩ => ?_
  rw [ofJson, ofJson, member_congr readsPruned_scalar hsize, member_congr readsPruned_scalar hfiles]

theorem AsyncConfiguration.readsPruned : ReadsPruned (.struct fields) (ofJson cast) := by
  refine readsPruned_struct (by decide) fun _ _ ⟨hthreads, hqueue, _⟩ => ?_
  rw [ofJson, ofJson, member_congr readsPruned_scalar hthreads,
    member_congr readsPruned_scalar hqueue]

theorem LoggerConfiguration.readsPruned : ReadsPruned (.struct fields) (ofJson cast) := by
  refine readsPruned_struct (by decide) fun _ _
    ⟨hname, hfilepath, hpattern, hlevel, hconsole, hrotate, hasync, _⟩ => ?_
  rw [ofJson, ofJson, member_congr readsPruned_scalar hname,
    member_congr readsPruned_scalar hfilepath, optional_congr readsPruned_scalar hpattern,
    optional_congr readsPruned_scalar hlevel, optional_congr readsPruned_scalar hconsole,
    optional_congr (RotateConfiguration.readsPruned cast) hrotate,
    optional_congr (AsyncConfiguration.readsPruned cast) hasync]

theorem FsConfiguration.readsPruned : ReadsPruned (.struct fields) (ofJson cast) := by
  refine readsPruned_struct (by decide) fun _ _ ⟨hhost, hport, _⟩ => ?_
  rw [ofJson, ofJson, member_congr readsPruned_scalar hhost, member_congr readsPruned_scalar hport]

theorem FileConfiguration.readsPruned : ReadsPruned (.struct fields) (ofJson cast) := by
  refine readsPruned_struct (by decide) fun _ _ ⟨hlimit, hignored, _⟩ => ?_
  rw [ofJson, ofJson, member_congr readsPruned_scalar hlimit,
    member_congr readsPruned_scalar hignored]

theorem DataNodeConfiguration.readsPruned : ReadsPruned (.struct fields) (ofJson cast) := by
  refine readsPruned_struct (by decide) fun _ _ ⟨hname, hdir, hport, hreplication, _⟩ => ?_
  rw [ofJson, ofJson, member_congr readsPruned_scalar hname, member_congr readsPruned_scalar hdir,
    member_congr readsPruned_scalar hport, member_congr readsPruned_scalar hreplication]

theorem DataNodeForNameNode.readsPruned : ReadsPruned (.struct fields) (ofJson cast) := by
  refine readsPruned_struct (by decide) fun _ _ ⟨hhost, hport, _⟩ => ?_
  rw [ofJson, ofJson, member_congr readsPruned_scalar hhost, member_congr readsPruned_scalar hport]

theorem NameNodeConfiguration.readsPruned : ReadsPruned (.struct fields) (ofJson cast) := by
  refine readsPruned_struct (by decide) fun _ _
    ⟨hname, hdata, hdir, hport, hreplication, hnodes, _⟩ => ?_
  rw [ofJson, ofJson, member_congr readsPruned_scalar hname, member_congr readsPruned_scalar hdata,
    member_congr readsPruned_scalar hdir, member_congr readsPruned_scalar hport,
    member_congr readsPruned_scalar hreplication,
    optional_array_congr (DataNodeForNameNode.readsPruned cast) hnodes]

theorem DfsConfiguration.readsPruned : ReadsPruned (.struct fields) (ofJson cast) := by
  refine readsPruned_struct (by decide) fun _ _ ⟨hdata, hname, _⟩ => ?_
  rw [ofJson, ofJson, optional_congr (DataNodeConfiguration.readsPruned cast) hdata,
    optional_congr (NameNodeConfiguration.readsPruned cast) hname]

theorem SortConfiguration.readsPruned : ReadsPruned (.struct fields) (ofJson cast) := by
  refine readsPruned_struct (by decide) fun _ _ ⟨hfactor, hbuffer, _⟩ => ?_
  rw [ofJson, ofJson, member_congr readsPruned_scalar hfactor,
    member_congr readsPruned_scalar hbuffer]

theorem IoConfiguration.readsPruned : ReadsPruned (.struct fields) (ofJson cast) := by
  refine readsPruned_struct (by decide) fun _ _ ⟨hsort, hbuffer, hbytes, hskip, herrors, _⟩ => ?_
  rw [ofJson, ofJson, member_congr (SortConfiguration.readsPruned cast) hsort,
    member_congr readsPruned_scalar hbuffer, member_congr readsPruned_scalar hbytes,
    member_congr readsPruned_scalar hskip, member_congr readsPruned_scalar herrors]

theorem IpcConfiguration.readsPruned : ReadsPruned (.struct fields) (ofJson cast) := by
  refine readsPruned_struct (by decide) fun _ _ ⟨htimeout, _⟩ => ?_
  rw [ofJson, ofJson, member_congr readsPruned_scalar htimeout]

theorem JobTrackerConfiguration.readsPruned : ReadsPruned (.struct fields) (ofJson cast) := by
  refine readsPruned_struct (by decide) fun _ _ ⟨hlocation, hport, _⟩ => ?_
  rw [ofJson, ofJson, member_congr readsPruned_scalar hlocation,
    member_congr readsPruned_scalar hport]

theorem TaskTrackerConfiguration.readsPruned : ReadsPruned (.struct fields) (ofJson cast) := by
  refine readsPruned_struct (by decide) fun _ _
    ⟨houtput, hreport, htasks, hheap, htimeout, _⟩ => ?_
  rw [ofJson, ofJson, member_congr readsPruned_scalar houtput,
    member_congr readsPruned_scalar hreport, member_congr readsPruned_scalar htasks,
    member_congr readsPruned_scalar hheap, member_congr readsPruned_scalar htimeout]

theorem DirectoriesConfiguration.readsPruned : ReadsPruned (.struct fields) ofJson := by
  refine readsPruned_struct (by decide) fun _ _ ⟨hlocal, hsystem, htemp, _⟩ => ?_
  rw [ofJson, ofJson, member_congr readsPruned_scalar hlocal,
    member_congr readsPruned_scalar hsystem, member_congr readsPruned_scalar htemp]

theorem MapredConfiguration.readsPruned : ReadsPruned (.struct fields) (ofJson cast) := by
  refine readsPruned_struct (by decide) fun _ _
    ⟨hjob, htask, hdirectories, hmap, hreduce, hbuffer, _⟩ => ?_
  rw [ofJson, ofJson, member_congr (JobTrackerConfiguration.readsPruned cast) hjob,
    member_congr (TaskTrackerConfiguration.readsPruned cast) htask,
    member_congr DirectoriesConfiguration.readsPruned hdirectories,
    member_congr readsPruned_scalar hmap, member_congr readsPruned_scalar hreduce,
    member_congr readsPruned_scalar hbuffer]

theorem Configuration.readsPruned : ReadsPruned (.struct fields) (ofJson cast) := by
  refine readsPruned_struct (by decide) fun _ _
    ⟨hlogger, hfs, hfile, hdfs, hio, hipc, hmapred, _⟩ => ?_
  rw [ofJson, ofJson, member_congr (LoggerConfiguration.readsPruned cast) hlogger,
    member_congr (FsConfiguration.readsPruned cast) hfs,
    member_congr (FileConfiguration.readsPruned cast) hfile,
    member_congr (DfsConfiguration.readsPruned cast) hdfs,
    member_congr (IoConfiguration.readsPruned cast) hio,
    member_congr (IpcConfiguration.readsPruned cast) hipc,
    member_congr (MapredConfiguration.readsPruned cast) hmapred]

/-- Documents from which the same is left are loaded as the same configuration, or
    rejected in the same way. -/
theorem Configuration.ofJson_eq_of_prune_eq (cast : Cast) (json json' : Json)
    (h : (Elem.struct fields).prune json = (Elem.struct fields).prune json') :
    ofJson cast json = ofJson cast json' := by
  rw [← Configuration.readsPruned cast json, h, Configuration.readsPruned cast json']

theorem Configuration.ofJson_eq_of_prune_eq_sample :
    let comment := (ascii "comment", Json.string (ascii "ports below 1024 need root"))
    let rotate := [(ascii "max-size", Json.integer 1), (ascii "max-files", .integer 2)]
    let logger := [(ascii "rotate", Json.object rotate), (ascii "name", .string (ascii "log"))]
    let logger' := [(ascii "name", Json.string (ascii "log")),
      (ascii "rotate", .object (comment :: rotate.reverse))]
    ∀ cast members, ofJson cast (.object ((ascii "logger", .object logger) :: members)) =
      ofJson cast (.object (comment :: (ascii "logger", .object logger') :: members)) :=
  fun _ _ => ofJson_eq_of_prune_eq _ _ _ rfl

end Dss.Config
