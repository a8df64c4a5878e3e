import Dss.Config.Documents

/-!
# Loading a configuration

What can go wrong when a configuration is constructed from a document:

* a required key that is not there is read without a check, which has no defined
  result, unless something read before throws (`loadedOrRejected_iff`);
* a number that is not one of the type of its member is changed into one without any
  sign (`unchangedNumbers_iff`).
-/

namespace Dss.Config

open Dss.Lib

variable (cast : Cast) (json : Json)

/-- The scalars of the configuration come from the document: there is a value that
    converts to each at its path. -/
def Configuration.ComesFrom (c : Configuration) : Prop :=
  ∀ e ∈ c.leaves, Found (fun v value => ∃ type, convert cast type value = .ok v) json e

/-- A configuration is constructed from what is in the document, which has every required
    key, or an exception is thrown. -/
def LoadedOrRejected : Prop :=
  (∃ c, Configuration.ofJson cast json = .ok c ∧ c.ComesFrom cast json ∧
    ¬Configuration.fields.Omits json) ∨
  Configuration.ofJson cast json = .error .thrown

/-- A number is the one that is written. -/
def SameNumber : Scalar → Json → Prop
  | .number n, value => value.number? = some (n : ℚ)
  | _, _ => True

/-- A number or a boolean that is written for the type is a natural number of it. -/
def FitsType : ScalarType → Json → Prop
  | .uint16, value => value.isArithmetic → value.FitsUnsigned 16
  | .uint32, value => value.isArithmetic → value.FitsUnsigned 32
  | .uint64, value => value.isArithmetic → value.FitsUnsigned 64
  | _, _ => True

/-- Every number or boolean that the document has for a numeric member is a natural
    number of its type. -/
def NumbersFit : Prop := Configuration.fields.AllScalars FitsType json

/-- The scalars of the configuration are found in the document, the numbers
    unchanged. -/
def Configuration.Exact (c : Configuration) : Prop := ∀ e ∈ c.leaves, Found SameNumber json e

/-- Every number of a configuration constructed is the one in the document, and a number
    that is none of its type, or a boolean, makes the construction throw. -/
structure UnchangedNumbers : Prop where
  exact : ∀ c, Configuration.ofJson cast json = .ok c → c.Exact json
  thrown : ¬NumbersFit json → Configuration.ofJson cast json = .error .thrown

variable {cast json} {c : Configuration}

/-! ## The outcome -/

theorem exists_ofJson_ok : (∃ c, Configuration.ofJson cast json = .ok c) ↔
    Configuration.fields.Accepts (conversion cast) json := by
  have h : Configuration.fields.readLeaves cast json = _ := Configuration.leaves_ofJson json
  rw [← Fields.exists_copy_ok]
  constructor
  · rintro ⟨c, hc⟩
    rw [hc] at h
    obtain ⟨vs, hvs, -⟩ := map_eq_ok.1 (h.trans rfl)
    exact ⟨vs, hvs⟩
  · rintro ⟨vs, hvs⟩
    rw [Fields.readLeaves, hvs] at h
    obtain ⟨c, hc, -⟩ := map_eq_ok.1 (h.symm.trans rfl)
    exact ⟨c, hc⟩

theorem ofJson_undefined : Configuration.ofJson cast json = .error .undefined ↔
    Configuration.fields.ReachesMissing (conversion cast) json := by
  rw [← Fields.copy_undefined, ← map_eq_error (g := Configuration.leaves),
    ← Configuration.leaves_ofJson, Fields.readLeaves, map_eq_error]

/-- An exception is thrown for the other documents. -/
theorem ofJson_thrown : Configuration.ofJson cast json = .error .thrown ↔
    ¬Configuration.fields.Accepts (conversion cast) json ∧
      ¬Configuration.fields.ReachesMissing (conversion cast) json := by
  rw [← exists_ofJson_ok, ← ofJson_undefined]
  match Configuration.ofJson cast json with
  | .ok c => simp
  | .error .thrown => simp
  | .error .undefined => simp

/-- The scalars of a configuration are as they should be if the document is so where
    they are read. -/
theorem Configuration.leaves_iff {good : Scalar → Json → Prop} {fit : ScalarType → Json → Prop}
    (hgood : ∀ type value v, convert cast type value = .ok v → (good v value ↔ fit type value))
    (hc : ofJson cast json = .ok c) :
    (∀ e ∈ c.leaves, Found good json e) ↔ fields.AllScalars fit json := by
  have h : Configuration.fields.readLeaves cast json = _ := Configuration.leaves_ofJson json
  rw [hc] at h
  obtain ⟨vs, hvs, hleaves⟩ := map_eq_ok.1 (h.trans rfl)
  rw [← hleaves]
  exact Fields.leaves_iff hgood fields json vs hvs

/-! ## Keys that are not there -/

/-- What is constructed comes from the document. -/
theorem Configuration.comesFrom_of_ok (hc : ofJson cast json = .ok c) :
    c.ComesFrom cast json := by
  have hall : Configuration.fields.AllScalars (fun _ _ => True) json :=
    Fields.allScalars_of_forall (fun _ _ => trivial) _ _
  exact (leaves_iff (fun type value v hv => iff_of_true ⟨type, hv⟩ trivial) hc).2 hall

/-- A document is loaded or rejected exactly if it has every required key where it is
    read, up to the first value of the wrong kind. -/
theorem loadedOrRejected_iff (cast : Cast) (json : Json) :
    LoadedOrRejected cast json ↔
      ¬Configuration.fields.ReachesMissing (conversion cast) json := by
  rw [← ofJson_undefined]
  constructor
  · rintro (⟨c, hc, -⟩ | hthrown) hundefined
    · rw [hc] at hundefined
      cases hundefined
    · rw [hthrown] at hundefined
      cases hundefined
  · intro hdefined
    cases h : Configuration.ofJson cast json with
    | ok c =>
      have haccepts := exists_ofJson_ok.1 ⟨c, h⟩
      exact .inl ⟨c, h, Configuration.comesFrom_of_ok h, Fields.not_omits _ _ haccepts⟩
    | error e =>
      cases e with
      | thrown => exact .inr h
      | undefined => exact absurd h hdefined

/-- Nothing is known of the result for an empty object. -/
theorem not_loadedOrRejected_empty : ¬∃ cast, LoadedOrRejected cast (.object []) := by
  rintro ⟨cast, ⟨c, hc, -⟩ | hthrown⟩
  · cases hc
  · cases hthrown

/-! ## Numbers -/

theorem isArithmetic_of_toUnsigned {bits n : ℕ} (h : json.toUnsigned cast bits = .ok n) :
    json.isArithmetic = true := by
  cases json with
  | integer _ | float _ | boolean _ => rfl
  | _ => cases h

/-- What is converted to a numeric type is the number written exactly if this fits. -/
theorem sameNumber_iff (type : ScalarType) (value : Json) (v : Scalar)
    (h : convert cast type value = .ok v) : SameNumber v value ↔ FitsType type value := by
  have hnumber : ∀ {bits n : ℕ}, value.toUnsigned cast bits = .ok n →
      (value.number? = some (n : ℚ) ↔ (value.isArithmetic → value.FitsUnsigned bits)) :=
    fun {bits n} hn => by
      rw [Json.number?_eq_iff hn, isArithmetic_of_toUnsigned hn, imp_iff_right rfl]
  cases type <;> simp only [convert, toUInt16, toUInt32, toUInt64, map_eq_ok] at h
  case string | boolean =>
    obtain ⟨_, -, rfl⟩ := h
    exact Iff.rfl
  case uint16 | uint32 | uint64 =>
    obtain ⟨_, ⟨n, hn, rfl⟩, rfl⟩ := h
    have hlt := Json.toUnsigned_lt hn
    norm_num at hlt
    rw [FitsType, ← hnumber hn, SameNumber]
    simp [Nat.mod_eq_of_lt hlt]

/-- No number is changed silently exactly if all numbers and booleans that the document
    has for numeric members fit, or the document is rejected for another reason: it is not
    accepted, and reaches no key that is not there. -/
theorem unchangedNumbers_iff (cast : Cast) (json : Json) :
    UnchangedNumbers cast json ↔ NumbersFit json ∨
      (¬Configuration.fields.Accepts (conversion cast) json ∧
        ¬Configuration.fields.ReachesMissing (conversion cast) json) := by
  rw [← ofJson_thrown]
  constructor
  · intro h
    exact or_iff_not_imp_left.2 h.thrown
  · rintro (hfit | hthrown)
    · exact ⟨fun c hc => (Configuration.leaves_iff sameNumber_iff hc).2 hfit,
        fun hnot => absurd hfit hnot⟩
    · refine ⟨fun c hc => ?_, fun _ => hthrown⟩
      rw [hthrown] at hc
      cases hc

/-- A document of a configuration without optional members. -/
def sampleDocument (port : ℤ) : Json := .object [
  (ascii "dfs", .object []),
  (ascii "file", .object [(ascii "ignored", .boolean false), (ascii "limit", .integer 0)]),
  (ascii "fs", .object [(ascii "host", .string (ascii "localhost")),
    (ascii "port", .integer port)]),
  (ascii "io", .object [(ascii "bytes-per-checksum", .integer 512),
    (ascii "file-buffer-size", .integer 4096), (ascii "map-index-skip", .integer 0),
    (ascii "skip-checksum-errors", .boolean false),
    (ascii "sort", .object [(ascii "buffer", .integer 100), (ascii "factor", .integer 10)])]),
  (ascii "ipc", .object [(ascii "timeout", .integer 60000)]),
  (ascii "logger", .object [(ascii "filepath", .string (ascii "log.txt")),
    (ascii "name", .string (ascii "log"))]),
  (ascii "map-reduce", .object [(ascii "combine-buffer-size", .integer 10000),
    (ascii "directories", .object [(ascii "local", .string (ascii "local")),
      (ascii "system", .string (ascii "system")), (ascii "temp", .string (ascii "temp"))]),
    (ascii "job-tracker", .object [(ascii "info-port", .integer 50030),
      (ascii "location", .string (ascii "local"))]),
    (ascii "map-tasks", .integer 2), (ascii "reduce-tasks", .integer 1),
    (ascii "task-tracker", .object [(ascii "child-heap-size", .integer 200),
      (ascii "output-port", .integer 50040), (ascii "report-port", .integer 50050),
      (ascii "task-timeout", .integer 600000), (ascii "tasks-limit", .integer 2)])])]

/-- The port 65616 is read as 80. -/
theorem not_unchangedNumbers_port :
    (∀ cast, (Configuration.ofJson cast (sampleDocument 65616)).map (·.fs.port) = .ok 80) ∧
      ¬∃ cast, UnchangedNumbers cast (sampleDocument 65616) := by
  have hport : ∀ cast,
      (Configuration.ofJson cast (sampleDocument 65616)).map (·.fs.port) = .ok 80 := fun _ => rfl
  refine ⟨hport, fun ⟨cast, h⟩ => ?_⟩
  obtain ⟨c, hc, hport⟩ := map_eq_ok.1 (hport cast)
  have hmem : ([.key (ascii "fs"), .key (ascii "port")], .number 80) ∈ c.leaves := by
    simp [Configuration.leaves, FsConfiguration.leaves, keyed, under, number, hport]
  obtain ⟨value, hfollow, hsame⟩ := h.exact c hc _ hmem
  obtain rfl : Json.integer 65616 = value := Option.some.inj hfollow
  norm_num [SameNumber, Json.number?] at hsame

end Dss.Config
