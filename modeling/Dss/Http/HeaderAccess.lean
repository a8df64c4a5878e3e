import Dss.Http.Codec

/-!
# Ways into and out of the headers

`headers_t` overrides `operator[]` and `find`, and inherits the other members of
`std::unordered_map`, which take a key as it is spelled. Headers ignore the case of
their keys exactly if all keys in them are normalized (`ignoresCase_iff`). So

* a sequence of calls keeps them so exactly if `insert` and `emplace` are given
  normalized keys only (`ignoresCase_calls_iff`);
* then `contains`, `count` and `at` agree with `find` on the normalized keys, and on
  those of which no spelling is there (`accessorsAgree_iff`). With an entry in the
  headers there are always others.
-/

namespace Dss.Http

open Dss.Lib Dss.Utils

namespace Headers

/-! ## The members inherited -/

/-- `headers[key]` where nothing is assigned: an entry without a value, if there is
    none. -/
def subscript (h : Headers) (key : Bytes) : Headers :=
  if normalize key ∈ h then h else Finmap.insert (normalize key) [] h

/-- `headers.insert({key, value})` and `headers.emplace(key, value)`: an entry that is
    there stays. -/
def insertNew (h : Headers) (key value : Bytes) : Headers :=
  if key ∈ h then h else Finmap.insert key value h

/-- `headers.erase(key)`. -/
def eraseKey (h : Headers) (key : Bytes) : Headers := Finmap.erase key h

/-- `headers.contains(key)`. -/
def contains (h : Headers) (key : Bytes) : Bool := key ∈ h

/-- `headers.count(key)`. -/
def count (h : Headers) (key : Bytes) : ℕ := if key ∈ h then 1 else 0

/-- `headers.at(key)`, which throws where there is no entry. -/
def at? (h : Headers) (key : Bytes) : Option Bytes := h.lookup key

/-- `headers.at(key) = value`. -/
def assignAt (h : Headers) (key value : Bytes) : Headers :=
  if (h.at? key).isSome then Finmap.insert key value h else h

/-- A call that may change the headers. -/
inductive Call
  | subscript (key : Bytes)
  | assign (key value : Bytes)
  | assignMove (key value : Bytes)
  | parse (stream : Bytes)
  | insert (key value : Bytes)
  | emplace (key value : Bytes)
  | erase (key : Bytes)
  | assignAt (key value : Bytes)
  deriving DecidableEq, Repr

def call (h : Headers) : Call → Headers
  | .subscript key => h.subscript key
  | .assign key value => h.assign key value
  | .assignMove key value => h.assignMove key value
  | .parse stream => (Headers.parse stream).1
  | .insert key value | .emplace key value => h.insertNew key value
  | .erase key => h.eraseKey key
  | .assignAt key value => h.assignAt key value

/-- The headers after a sequence of calls, from empty ones. -/
def calls (cs : List Call) : Headers := cs.foldl call ∅

/-! ## What should hold -/

/-- Every entry is found under every spelling of its key, and no two keys are
    spellings of one another. -/
structure IgnoresCase (h : Headers) : Prop where
  found : ∀ k v, h.lookup k = some v → ∀ k', normalize k' = normalize k → h.find k' = some v
  distinct : ∀ k ∈ h, ∀ k' ∈ h, normalize k = normalize k' → k = k'

/-- The accessors agree whether there is an entry for the key. -/
structure AccessorsAgree (h : Headers) (k : Bytes) : Prop where
  count : h.contains k ↔ h.count k ≠ 0
  find : h.contains k ↔ h.find k ≠ none
  at? : h.contains k ↔ h.at? k ≠ none

/-- The call does not bring in a key that is not normalized. -/
def Call.Normalized : Call → Prop
  | .insert key _ | .emplace key _ => normalize key = key
  | _ => True

variable {h : Headers} {k v : Bytes} {c : Call}

/-- It takes normalized keys to ignore the case. -/
theorem ignoresCase_iff : IgnoresCase h ↔ ∀ k ∈ h, normalize k = k := by
  constructor
  · intro hi k hk
    obtain ⟨v, hv⟩ := Finmap.mem_iff.1 hk
    have hfind := hi.found k v hv k rfl
    exact hi.distinct _ (Finmap.mem_iff.2 ⟨v, hfind⟩) k hk (normalize_normalize k)
  · intro hn
    refine ⟨fun k v hv k' hk' => ?_, fun k hk k' hk' heq => ?_⟩
    · rw [Headers.find, hk', hn k (Finmap.mem_of_lookup_eq_some hv), hv]
    · rw [← hn k hk, heq, hn k' hk']

/-- The accessors that take the key as it is spelled agree with one another. -/
theorem accessorsAgree_iff_mem : AccessorsAgree h k ↔ (k ∈ h ↔ normalize k ∈ h) := by
  have hfind : h.find k ≠ none ↔ normalize k ∈ h := by
    rw [Headers.find, ne_eq, Finmap.lookup_eq_none, not_not]
  have hcontains : (h.contains k = true) ↔ k ∈ h := decide_eq_true_iff
  constructor
  · intro ha
    rw [← hcontains, ← hfind]
    exact ha.find
  · intro hk
    refine ⟨?_, hcontains.trans (hk.trans hfind.symm), ?_⟩
    · simp [hcontains, Headers.count]
    · rw [hcontains, Headers.at?, ne_eq, Finmap.lookup_eq_none, not_not]

/-- They agree with `find` on the normalized keys, and on those without an entry under
    any spelling. -/
theorem accessorsAgree_iff (hi : IgnoresCase h) :
    AccessorsAgree h k ↔ normalize k = k ∨ normalize k ∉ h := by
  have hn := ignoresCase_iff.1 hi
  rw [accessorsAgree_iff_mem]
  constructor
  · intro hk
    exact or_iff_not_imp_right.2 fun hmem => hn k (hk.2 (not_not.1 hmem))
  · rintro (hk | hmem)
    · rw [hk]
    · exact ⟨fun hk => absurd ((hn k hk).symm ▸ hk) hmem, fun hk => absurd hk hmem⟩

/-! ## Sequences of calls -/

/-- A new entry keeps the keys normalized exactly if its own is. -/
theorem normalized_insert_iff (hn : ∀ k ∈ h, normalize k = k) :
    (∀ k' ∈ Finmap.insert k v h, normalize k' = k') ↔ normalize k = k := by
  simp only [Finmap.mem_insert, forall_eq_or_imp, and_iff_left hn]

/-- One call keeps the keys normalized exactly if it does not bring in one that is
    not. -/
theorem ignoresCase_call_iff (hi : IgnoresCase h) : IgnoresCase (h.call c) ↔ c.Normalized := by
  rw [ignoresCase_iff] at hi ⊢
  have hnew : ∀ key value, (∀ k ∈ h.insertNew key value, normalize k = k) ↔
      normalize key = key := by
    intro key value
    rw [insertNew]
    split
    next hmem => exact iff_of_true hi (hi key hmem)
    next => exact normalized_insert_iff hi
  have hassign : ∀ key value, ∀ k ∈ Finmap.insert (normalize key) value h, normalize k = k :=
    fun key value => (normalized_insert_iff hi).2 (normalize_normalize key)
  cases c with
  | subscript key =>
    refine iff_of_true ?_ trivial
    rw [call, subscript]
    split
    next => exact hi
    next => exact hassign key []
  | assign key value => exact iff_of_true (hassign key value) trivial
  | assignMove key value =>
    refine iff_of_true ?_ trivial
    rw [call, assignMove_eq]
    exact hassign key value
  | parse stream =>
    refine iff_of_true (fun k hk => ?_) trivial
    obtain ⟨v, hv⟩ := Finmap.mem_iff.1 hk
    exact (stored_of_parse rfl k v hv).1.normalized
  | insert key value => exact hnew key value
  | emplace key value => exact hnew key value
  | erase key => exact iff_of_true (fun k hk => hi k (Finmap.mem_erase.1 hk).2) trivial
  | assignAt key value =>
    refine iff_of_true ?_ trivial
    rw [call, assignAt]
    split
    next hsome =>
      refine (normalized_insert_iff hi).2 (hi key ?_)
      exact Finmap.lookup_isSome.1 hsome
    next => exact hi

/-- So does a sequence of calls, at every point of it. -/
theorem ignoresCase_foldl_iff (cs : List Call) (hi : IgnoresCase h) :
    (∀ pre, pre <+: cs → IgnoresCase (pre.foldl call h)) ↔ ∀ c ∈ cs, c.Normalized := by
  induction cs generalizing h with
  | nil => simp [hi]
  | cons c cs ih =>
    have hstep := ignoresCase_call_iff (c := c) hi
    rw [List.forall_mem_cons]
    constructor
    · intro hall
      have hc := hall [c] (List.prefix_cons_iff.2 (.inr ⟨[], rfl, List.nil_prefix⟩))
      refine ⟨hstep.1 hc, (ih hc).1 fun pre hpre => ?_⟩
      exact hall (c :: pre) (List.prefix_cons_iff.2 (.inr ⟨pre, rfl, hpre⟩))
    · rintro ⟨hc, hcs⟩ pre hpre
      rcases List.prefix_cons_iff.1 hpre with rfl | ⟨pre', rfl, hpre'⟩
      · exact hi
      · exact (ih (hstep.2 hc)).2 hcs pre' hpre'

/-- In a sequence of calls, the headers ignore the case at every point exactly if no
    call brings in a key that is not normalized; and then, at every point, the
    accessors agree on a key exactly if it is normalized, or no spelling of it is
    there. -/
theorem ignoresCase_calls_iff (cs : List Call) :
    ((∀ pre, pre <+: cs → IgnoresCase (calls pre)) ↔ ∀ c ∈ cs, c.Normalized) ∧
    ((∀ c ∈ cs, c.Normalized) → ∀ pre, pre <+: cs → ∀ k,
      AccessorsAgree (calls pre) k ↔ normalize k = k ∨ normalize k ∉ calls pre) := by
  have hempty : IgnoresCase ∅ := ignoresCase_iff.2 fun k hk => absurd hk Finmap.notMem_empty
  have hiff := ignoresCase_foldl_iff cs hempty
  exact ⟨hiff, fun hcs pre hpre k => accessorsAgree_iff (hiff.2 hcs pre hpre)⟩

/-- The accessors agree on all keys only of empty headers: an entry is found under
    spellings of its key with ever more blanks. -/
theorem forall_accessorsAgree_iff : (∀ k, AccessorsAgree h k) ↔ h = ∅ := by
  simp only [accessorsAgree_iff_mem]
  constructor
  · intro hall
    by_contra hne
    obtain ⟨k, hk⟩ : ∃ k, k ∈ h := by
      by_contra hnone
      push Not at hnone
      exact hne (Finmap.ext_lookup fun k => by simp [Finmap.lookup_eq_none.2 (hnone k)])
    -- the key is there with any number of blanks in front
    have hblanks : ∀ n, List.replicate n 32 ++ k ∈ h := fun n => by
      have hnorm : Utils.normalize (List.replicate n 32 ++ k) = Utils.normalize k := by
        simpa using normalize_eq (a := List.replicate n 32) (b := []) (t := k)
          (fun b hb => List.eq_of_mem_replicate hb ▸ rfl) (fun _ hb => nomatch hb) rfl
      rw [hall, hnorm, ← hall]
      exact hk
    refine Set.infinite_of_injective_forall_mem (f := fun n => List.replicate n 32 ++ k)
      (fun m n hmn => ?_) hblanks (h.keys.finite_toSet.subset fun k hk => Finmap.mem_keys.2 hk)
    simpa using congrArg List.length hmn
  · rintro rfl k
    exact iff_of_false Finmap.notMem_empty Finmap.notMem_empty

/-- Headers set by both an override and a member inherited. -/
theorem ignoresCase_calls_iff_host :
    ∀ k, AccessorsAgree (calls [.assign (ascii "Host") (ascii "a"),
        .emplace (ascii "accept") (ascii "*")]) k ↔
      normalize k = k ∨ normalize k ∉ calls [.assign (ascii "Host") (ascii "a"),
        .emplace (ascii "accept") (ascii "*")] :=
  (ignoresCase_calls_iff [.assign (ascii "Host") (ascii "a"),
    .emplace (ascii "accept") (ascii "*")]).2
    (by simpa [Call.Normalized] using (by decide : normalize (ascii "accept") = ascii "accept"))
    _ (List.prefix_refl _)

/-- A header set by `operator[]` is found, but not contained, under the name it was set
    by; one inserted under that name is not found. -/
theorem not_accessorsAgree_host :
    ¬AccessorsAgree (calls [.assign (ascii "Host") (ascii "a")]) (ascii "Host") ∧
    ¬IgnoresCase (calls [.insert (ascii "Host") (ascii "a")]) := by
  constructor
  · rw [accessorsAgree_iff_mem]
    decide
  · rw [ignoresCase_iff]
    intro hn
    exact absurd (hn (ascii "Host") (by decide)) (by decide)

end Headers

end Dss.Http
