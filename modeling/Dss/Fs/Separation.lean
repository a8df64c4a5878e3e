import Dss.Dfs.Refinement
import Dss.Fs.Interleaving
import Dss.Lib.Unwinding

/-!
# Clients on separate paths

Clients of a distributed file system that keep to paths of their own do not notice
each other, although all of them work on one map. The paths are divided among
groups of clients (`Separate`); then, however the calls of the name node interleave,
a group finds and makes the same entries, and is told the same, as if it had been
alone (`separate_alone`).

A call depends on the entries at its own paths and changes only these
(`FileMap.step_congr`, `FileMap.step_of_notMem`); the rest is the unwinding of the
run (`SameGroup`).
-/

namespace Dss.Dfs

open Dss.Lib Function

/-- The paths a call is about. -/
def FileCall.paths : FileCall → List Bytes
  | createFile path _ _ | deleteFile path | getMetadata path => [path]
  | renameFile oldPath newPath _ => [oldPath, newPath]

namespace FileMap

variable {m m' : FileMap} {call : FileCall} {path : Bytes}

theorem update_congr {a : Bytes} {v : Option FileMetadata} (h : m path = m' path) :
    update m a v path = update m' a v path := by
  by_cases ha : path = a
  · subst ha
    rw [update_self, update_self]
  · rw [update_of_ne ha, update_of_ne ha, h]

/-- A call depends on the files at its own paths. -/
theorem step_congr (h : ∀ path ∈ call.paths, m path = m' path) :
    (m.step call).2 = (m'.step call).2 ∧
      ∀ path, m path = m' path → (m.step call).1 path = (m'.step call).1 path := by
  cases call with
  | createFile a isDirectory now =>
    have ha : m a = m' a := h a (by simp [FileCall.paths])
    rw [step, step, ← ha]
    cases m a with
    | none => exact ⟨rfl, fun _ hpath => update_congr hpath⟩
    | some f => exact ⟨rfl, fun _ hpath => hpath⟩
  | deleteFile a =>
    have ha : m a = m' a := h a (by simp [FileCall.paths])
    rw [step, step, ← ha]
    cases m a with
    | none => exact ⟨rfl, fun _ hpath => hpath⟩
    | some f => exact ⟨rfl, fun _ hpath => update_congr hpath⟩
  | renameFile a b now =>
    have ha : m a = m' a := h a (by simp [FileCall.paths])
    have hb : m b = m' b := h b (by simp [FileCall.paths])
    rw [step, step, ← ha, ← hb]
    cases m a with
    | none => exact ⟨rfl, fun _ hpath => hpath⟩
    | some f =>
      cases m b with
      | none => exact ⟨rfl, fun _ hpath => update_congr (update_congr hpath)⟩
      | some g => exact ⟨rfl, fun _ hpath => hpath⟩
  | getMetadata a =>
    have ha : m a = m' a := h a (by simp [FileCall.paths])
    exact ⟨congrArg FileResult.found ha, fun _ hpath => hpath⟩

/-- It changes none at other paths. -/
theorem step_of_notMem (h : path ∉ call.paths) : (m.step call).1 path = m path := by
  cases call with
  | createFile a isDirectory now =>
    have ha : path ≠ a := by simpa [FileCall.paths] using h
    rw [step]
    split
    next => exact update_of_ne ha ..
    next => rfl
  | deleteFile a =>
    have ha : path ≠ a := by simpa [FileCall.paths] using h
    rw [step]
    split
    next => rfl
    next => exact update_of_ne ha ..
  | renameFile a b now =>
    obtain ⟨ha, hb⟩ : path ≠ a ∧ path ≠ b := by simpa [FileCall.paths] using h
    rw [step]
    split
    next => exact (update_of_ne hb ..).trans (update_of_ne ha ..)
    next => rfl
  | getMetadata a => rfl

end FileMap

end Dss.Dfs

namespace Dss.Fs

open Dss.Lib Dss.Dfs Function

namespace NameNodeCall

/-- The call at a time, as one of those about files. -/
def fileCall (now : TimePoint) : NameNodeCall → FileCall
  | createFile path isDirectory => .createFile path isDirectory now
  | deleteFile path => .deleteFile path
  | renameFile oldPath newPath => .renameFile oldPath newPath now

/-- The paths a call is about. -/
def paths : NameNodeCall → List Bytes
  | createFile path _ | deleteFile path => [path]
  | renameFile oldPath newPath => [oldPath, newPath]

variable {n n' : NameNode} {now : TimePoint} {call : NameNodeCall} {path : Bytes}

theorem paths_fileCall : (call.fileCall now).paths = call.paths := by cases call <;> rfl

/-- A call does what it does to the partial map. -/
theorem files_apply (n : NameNode) (call : NameNodeCall) (now : TimePoint) :
    (call.apply n now).1.files = (n.files.step (call.fileCall now)).1 ∧
      FileResult.done (call.apply n now).2 = (n.files.step (call.fileCall now)).2 := by
  cases call with
  | createFile path isDirectory => exact NameNode.fileStep_eq n (.createFile path isDirectory now)
  | deleteFile path => exact NameNode.fileStep_eq n (.deleteFile path)
  | renameFile oldPath newPath => exact NameNode.fileStep_eq n (.renameFile oldPath newPath now)

/-- What a call returns, and what it does to the entry at a path, depends on the
    entries at its own paths and at this one. -/
theorem apply_congr (h : ∀ path ∈ call.paths, n.files path = n'.files path) :
    (call.apply n now).2 = (call.apply n' now).2 ∧
      ∀ path, n.files path = n'.files path →
        (call.apply n now).1.files path = (call.apply n' now).1.files path := by
  obtain ⟨hfiles, hresult⟩ := files_apply n call now
  obtain ⟨hfiles', hresult'⟩ := files_apply n' call now
  have hpaths : ∀ path ∈ (call.fileCall now).paths, n.files path = n'.files path := by
    rwa [paths_fileCall]
  obtain ⟨hsame, hpath⟩ := FileMap.step_congr hpaths
  rw [hfiles, hfiles']
  exact ⟨FileResult.done.inj (by rw [hresult, hresult', hsame]), hpath⟩

theorem files_apply_of_notMem (h : path ∉ call.paths) :
    (call.apply n now).1.files path = n.files path := by
  rw [(files_apply n call now).1]
  exact FileMap.step_of_notMem (by rwa [paths_fileCall])

/-- Entries are made where they are made if the entries at its paths are the same. -/
theorem makes_congr (h : ∀ path ∈ call.paths, n.files path = n'.files path) :
    call.makes n = call.makes n' := by
  have hmem : ∀ path ∈ call.paths, path ∈ n.metadata ↔ path ∈ n'.metadata := fun path hpath => by
    rw [NameNode.mem_iff, NameNode.mem_iff, h path hpath]
  cases call with
  | createFile a isDirectory =>
    have ha := hmem a (by simp [paths])
    simp only [makes, ha]
  | deleteFile a => rfl
  | renameFile a b =>
    have ha := hmem a (by simp [paths])
    have hb := hmem b (by simp [paths])
    simp only [makes, ha, hb]

theorem mem_paths_of_makes (h : call.makes n = some path) : path ∈ call.paths := by
  cases call with
  | createFile a isDirectory =>
    rw [makes, Option.ite_none_left_eq_some] at h
    simp [paths, Option.some.inj h.2]
  | deleteFile a => cases h
  | renameFile a b =>
    rw [makes, Option.ite_none_right_eq_some] at h
    simp [paths, Option.some.inj h.2]

end NameNodeCall

/-! ## The paths of the clients -/

/-- The path of the second call of the operation. -/
def PointerUse.paths : PointerUse → List Bytes
  | copy dst => [dst]
  | openFile | isDirectory | size | copyToLocal | moveToLocal => []

/-- The paths a client is still about. -/
def ClientPc.paths : ClientPc → List Bytes
  | idle => []
  | reading use path _ => path :: use.paths
  | creating dst _ => [dst]
  | deleting src _ => [src]

theorem PointerUse.paths_next {use : PointerUse} {path q : Bytes} {version : ℕ}
    {isDirectory : Bool} (h : q ∈ (use.next path version isDirectory).paths) :
    q ∈ path :: use.paths := by
  cases use <;> cases isDirectory <;> simp_all [next, paths, ClientPc.paths]

namespace ClientEvent

variable {C : Type*}

/-- The client that takes the step. -/
def client : ClientEvent C → C
  | .call c _ _ | .getMetadata c _ _ | .read c _ | .createCopy c _ | .openFails c
  | .deleteCopied c _ => c

/-- The paths the operation is called with, where it starts. -/
def paths : ClientEvent C → List Bytes
  | .call _ nameNodeCall _ => nameNodeCall.paths
  | .getMetadata _ use path => path :: use.paths
  | .read _ _ | .createCopy _ _ | .openFails _ | .deleteCopied _ _ => []

end ClientEvent

namespace Clients

variable {C G : Type*} [DecidableEq C] {owner : Bytes → G} {group : C → G} {g : G}
  {s t u : Clients C} {e : ClientEvent C} {es : List (ClientEvent C)} {call : NameNodeCall}
  {client : C} {pc : ClientPc} {now : TimePoint} {path : Bytes}

/-- Every client keeps to the paths of its group. -/
def Separate (owner : Bytes → G) (group : C → G) (_ : Clients C) (e : ClientEvent C) : Prop :=
  ∀ path ∈ e.paths, owner path = group e.client

instance [DecidableEq G] (s : Clients C) (e : ClientEvent C) :
    Decidable (Separate owner group s e) :=
  inferInstanceAs (Decidable (∀ path ∈ e.paths, owner path = group e.client))

/-- What the client is told in a step: whether a call of the name node succeeds,
    whether there is an entry, whether it is a directory. -/
def told (s : Clients C) : ClientEvent C → List Bool
  | .call _ call now => [(call.apply s.nameNode now).2]
  | .getMetadata _ _ path => [path ∈ s.nameNode.metadata]
  | .read _ isDirectory => [isDirectory]
  | .createCopy client now =>
    match s.pc client with
    | .creating dst isDirectory =>
      [((NameNodeCall.createFile dst isDirectory).apply s.nameNode now).2]
    | _ => []
  | .openFails _ => []
  | .deleteCopied client now =>
    match s.pc client with
    | .deleting src _ => [((NameNodeCall.deleteFile src).apply s.nameNode now).2]
    | _ => []

/-- To the group `g` the clients look in `u` as in `s`: its own are where they were,
    and so are the entries at its paths. In `s` all clients keep to their paths. -/
structure SameGroup (owner : Bytes → G) (group : C → G) (g : G) (s u : Clients C) : Prop where
  own : ∀ client, ∀ path ∈ (s.pc client).paths, owner path = group client
  pc : ∀ client, group client = g → u.pc client = s.pc client
  files : ∀ path, owner path = g → u.nameNode.files path = s.nameNode.files path
  version : ∀ path, owner path = g → u.version path = s.version path

omit [DecidableEq C] in
/-- A client goes on with paths of the event, or with those it had. -/
theorem own_of_paths (hs : ∀ client, ∀ path ∈ (s.pc client).paths, owner path = group client)
    (hok : Separate owner group s e)
    (h : path ∈ e.paths ∨ path ∈ (s.pc e.client).paths) : owner path = group e.client :=
  h.elim (hok path) (hs e.client path)

/-- A step is a call of the name node by its client, or its client goes on; on paths
    of the event, or on those the client had. -/
theorem step_paths (h : s.step e = some t) :
    (∃ call now, t = (s.apply call now).setPc e.client .idle ∧
      ∀ path ∈ call.paths, path ∈ e.paths ∨ path ∈ (s.pc e.client).paths) ∨
    ∃ pc, t = s.setPc e.client pc ∧
      ∀ path ∈ pc.paths, path ∈ e.paths ∨ path ∈ (s.pc e.client).paths := by
  cases e with
  | call client call now =>
    rw [step, Option.ite_none_right_eq_some, Option.some.injEq] at h
    exact .inl ⟨call, now, h.2.symm, fun _ hpath => .inl hpath⟩
  | getMetadata client use path =>
    rw [step, Option.ite_none_right_eq_some, Option.some.injEq] at h
    refine .inr ⟨_, h.2.symm, fun q hq => ?_⟩
    split at hq
    next => exact .inl hq
    next => cases hq
  | read client isDirectory =>
    rw [step] at h
    split at h
    next use path version hpc =>
      rw [Option.ite_none_right_eq_some, Option.some.injEq] at h
      refine .inr ⟨_, h.2.symm, fun q hq => .inr ?_⟩
      rw [ClientEvent.client, hpc]
      exact PointerUse.paths_next hq
    next => cases h
  | createCopy client now =>
    rw [step] at h
    split at h
    next dst isDirectory hpc =>
      refine .inl ⟨_, now, (Option.some.inj h).symm, fun q hq => .inr ?_⟩
      rw [ClientEvent.client, hpc]
      exact hq
    next => cases h
  | openFails client =>
    rw [step] at h
    split at h
    next => exact .inr ⟨.idle, (Option.some.inj h).symm, fun _ hq => absurd hq List.not_mem_nil⟩
    next => cases h
  | deleteCopied client now =>
    rw [step] at h
    split at h
    next src version hpc =>
      refine .inl ⟨_, now, (Option.some.inj h).symm, fun q hq => .inr ?_⟩
      rw [ClientEvent.client, hpc]
      exact hq
    next => cases h

namespace SameGroup

/-- A client of the group goes on in both. -/
theorem setPc (h : SameGroup owner group g s u)
    (hpc : ∀ path ∈ pc.paths, owner path = group client) :
    SameGroup owner group g (s.setPc client pc) (u.setPc client pc) where
  own c path hpath := by
    by_cases hc : c = client
    · subst hc
      rw [setPc_self] at hpath
      exact hpc path hpath
    · rw [setPc_of_ne hc] at hpath
      exact h.own c path hpath
  pc c hg := by
    by_cases hc : c = client
    · subst hc
      rw [setPc_self, setPc_self]
    · rw [setPc_of_ne hc, setPc_of_ne hc]
      exact h.pc c hg
  files := h.files
  version := h.version

/-- A client of another group goes on. -/
theorem setPc_other (h : SameGroup owner group g s u) (hclient : group client ≠ g)
    (hpc : ∀ path ∈ pc.paths, owner path = group client) :
    SameGroup owner group g (s.setPc client pc) u where
  own := (h.setPc hpc).own
  pc c hg := by
    have hc : c ≠ client := fun hc => hclient (hc ▸ hg)
    rw [setPc_of_ne hc]
    exact h.pc c hg
  files := h.files
  version := h.version

omit [DecidableEq C] in
/-- A call on paths of the group makes the same of what looks the same. -/
theorem apply (h : SameGroup owner group g s u) (hcall : ∀ path ∈ call.paths, owner path = g) :
    SameGroup owner group g (s.apply call now) (u.apply call now) where
  own := h.own
  pc := h.pc
  files path hpath :=
    (NameNodeCall.apply_congr fun q hq => h.files q (hcall q hq)).2 path (h.files path hpath)
  version path hpath := by
    have hmakes : call.makes u.nameNode = call.makes s.nameNode :=
      NameNodeCall.makes_congr fun q hq => h.files q (hcall q hq)
    by_cases hmade : call.makes s.nameNode = some path
    · rw [version_apply_self hmade, version_apply_self (hmakes.trans hmade), h.version path hpath]
    · rw [version_apply_of_ne hmade, version_apply_of_ne (hmakes ▸ hmade), h.version path hpath]

omit [DecidableEq C] in
/-- A call on paths of another group changes nothing the group looks at. -/
theorem apply_other (h : SameGroup owner group g s u)
    (hcall : ∀ path ∈ call.paths, owner path ≠ g) :
    SameGroup owner group g (s.apply call now) u where
  own := h.own
  pc := h.pc
  files path hpath := by
    have hmem : path ∉ call.paths := fun hmem => hcall path hmem hpath
    exact (h.files path hpath).trans (NameNodeCall.files_apply_of_notMem hmem).symm
  version path hpath := by
    have hmakes : call.makes s.nameNode ≠ some path := fun hmakes =>
      hcall path (NameNodeCall.mem_paths_of_makes hmakes) hpath
    rw [version_apply_of_ne hmakes, h.version path hpath]

omit [DecidableEq C] in
theorem mem_iff (h : SameGroup owner group g s u) (hpath : owner path = g) :
    path ∈ u.nameNode.metadata ↔ path ∈ s.nameNode.metadata := by
  rw [NameNode.mem_iff, NameNode.mem_iff, h.files path hpath]

omit [DecidableEq C] in
theorem present_iff (h : SameGroup owner group g s u) {version : ℕ} (hpath : owner path = g) :
    u.Present path version ↔ s.Present path version := by
  rw [Present, Present, h.mem_iff hpath, h.version path hpath]

/-- A step of another group is not noticed. -/
theorem step_other (h : SameGroup owner group g s u) (hok : Separate owner group s e)
    (hclient : group e.client ≠ g) (hs : s.step e = some t) : SameGroup owner group g t u := by
  rcases step_paths hs with ⟨call, now, rfl, hcall⟩ | ⟨pc, rfl, hpc⟩
  · have happly : SameGroup owner group g (s.apply call now) u :=
      h.apply_other fun q hq => (own_of_paths h.own hok (hcall q hq)).trans_ne hclient
    exact happly.setPc_other hclient (by simp [ClientPc.paths])
  · exact h.setPc_other hclient fun q hq => own_of_paths h.own hok (hpc q hq)

/-- A step of the group itself is possible in both. -/
theorem step (h : SameGroup owner group g s u) (hok : Separate owner group s e)
    (hclient : group e.client = g) (hs : s.step e = some t) :
    ∃ v, u.step e = some v ∧ SameGroup owner group g t v := by
  have hown : ∀ q, q ∈ e.paths ∨ q ∈ (s.pc e.client).paths → owner q = g := fun q hq =>
    (own_of_paths h.own hok hq).trans hclient
  have hpc := h.pc e.client hclient
  cases e with
  | call client call now =>
    simp only [ClientEvent.client] at hclient hown hpc
    rw [Clients.step, Option.ite_none_right_eq_some, Option.some.injEq] at hs
    obtain ⟨hidle, rfl⟩ := hs
    refine ⟨_, by rw [Clients.step, if_pos (hpc.trans hidle)], ?_⟩
    exact (h.apply fun q hq => hown q (.inl hq)).setPc (by simp [ClientPc.paths])
  | getMetadata client use path =>
    simp only [ClientEvent.client] at hclient hown hpc
    rw [Clients.step, Option.ite_none_right_eq_some, Option.some.injEq] at hs
    obtain ⟨hidle, rfl⟩ := hs
    have hpath : owner path = g := hown path (.inl (by simp [ClientEvent.paths]))
    refine ⟨_, by rw [Clients.step, if_pos (hpc.trans hidle)], ?_⟩
    simp only [h.mem_iff hpath, h.version path hpath]
    refine h.setPc fun q hq => ?_
    split at hq
    next => exact (hown q (.inl hq)).trans hclient.symm
    next => cases hq
  | read client isDirectory =>
    simp only [ClientEvent.client] at hclient hown hpc
    rw [Clients.step] at hs
    split at hs
    next use path version hreading =>
      rw [Option.ite_none_right_eq_some, Option.some.injEq] at hs
      obtain ⟨hvalue, rfl⟩ := hs
      rw [hreading] at hown hpc
      have hpath : owner path = g := hown path (.inr (by simp [ClientPc.paths]))
      have hfound : u.nameNode.getMetadata path = s.nameNode.getMetadata path := h.files path hpath
      refine ⟨_, ?_, h.setPc fun q hq =>
        (hown q (.inr (PointerUse.paths_next hq))).trans hclient.symm⟩
      rw [Clients.step, hpc]
      exact if_pos fun hpresent => hfound ▸ hvalue ((h.present_iff hpath).1 hpresent)
    next => cases hs
  | createCopy client now =>
    simp only [ClientEvent.client] at hclient hown hpc
    rw [Clients.step] at hs
    split at hs
    next dst isDirectory hcreating =>
      obtain rfl := Option.some.inj hs
      rw [hcreating] at hown hpc
      have hcall : ∀ q ∈ (NameNodeCall.createFile dst isDirectory).paths, owner q = g :=
        fun q hq => hown q (.inr hq)
      refine ⟨_, by rw [Clients.step, hpc], ?_⟩
      exact (h.apply hcall).setPc (by simp [ClientPc.paths])
    next => cases hs
  | openFails client =>
    simp only [ClientEvent.client] at hpc
    rw [Clients.step] at hs
    split at hs
    next src version hdeleting =>
      obtain rfl := Option.some.inj hs
      rw [hdeleting] at hpc
      exact ⟨_, by rw [Clients.step, hpc], h.setPc (by simp [ClientPc.paths])⟩
    next => cases hs
  | deleteCopied client now =>
    simp only [ClientEvent.client] at hclient hown hpc
    rw [Clients.step] at hs
    split at hs
    next src version hdeleting =>
      obtain rfl := Option.some.inj hs
      rw [hdeleting] at hown hpc
      have hcall : ∀ q ∈ (NameNodeCall.deleteFile src).paths, owner q = g :=
        fun q hq => hown q (.inr hq)
      refine ⟨_, by rw [Clients.step, hpc], ?_⟩
      exact (h.apply hcall).setPc (by simp [ClientPc.paths])
    next => cases hs

omit [DecidableEq C] in
/-- And its client is told the same in both. -/
theorem told_eq (h : SameGroup owner group g s u) (hok : Separate owner group s e)
    (hclient : group e.client = g) : s.told e = u.told e := by
  have hown : ∀ q, q ∈ e.paths ∨ q ∈ (s.pc e.client).paths → owner q = g := fun q hq =>
    (own_of_paths h.own hok hq).trans hclient
  have hpc := h.pc e.client hclient
  have hcall : ∀ {call : NameNodeCall} {now : TimePoint}, (∀ q ∈ call.paths, owner q = g) →
      (call.apply s.nameNode now).2 = (call.apply u.nameNode now).2 := fun hpaths =>
    (NameNodeCall.apply_congr fun q hq => (h.files q (hpaths q hq)).symm).1
  cases e with
  | call client call now =>
    rw [told, told, hcall fun q hq => hown q (.inl hq)]
  | getMetadata client use path =>
    have hpath : owner path = g := hown path (.inl (by simp [ClientEvent.paths]))
    simp only [told, h.mem_iff hpath]
  | read client isDirectory => rfl
  | createCopy client now =>
    simp only [ClientEvent.client] at hown hpc
    rw [told, told, hpc]
    split
    next dst isDirectory hcreating =>
      rw [hcreating] at hown
      have hpaths : ∀ q ∈ (NameNodeCall.createFile dst isDirectory).paths, owner q = g :=
        fun q hq => hown q (.inr hq)
      rw [hcall hpaths]
    next => rfl
  | openFails client => rfl
  | deleteCopied client now =>
    simp only [ClientEvent.client] at hown hpc
    rw [told, told, hpc]
    split
    next src version hdeleting =>
      rw [hdeleting] at hown
      have hpaths : ∀ q ∈ (NameNodeCall.deleteFile src).paths, owner q = g :=
        fun q hq => hown q (.inr hq)
      rw [hcall hpaths]
    next => rfl

end SameGroup

/-- The events of the group do not depend on those of others. -/
theorem unwinding [DecidableEq G] (owner : Bytes → G) (group : C → G) (g : G) :
    Unwinding step (Separate owner group) (fun e => group e.client = g) told
      (SameGroup owner group g) where
  others _ _ _ _ hR hok hother hs := hR.step_other hok (by simpa using hother) hs
  ours _ _ _ _ hR hok hours hs := hR.step hok (by simpa using hours) hs
  same _ _ _ hR hok hours := hR.told_eq hok (by simpa using hours)

/-- Where every client keeps to the paths of its group, a group does not notice the
    others: without their steps, which may have come in between anywhere, it takes the
    same steps and is told the same, its clients get to where they got and the
    entries at its paths are the same. -/
theorem separate_alone [DecidableEq G] (owner : Bytes → G) (group : C → G)
    (hs : ∀ client, s.pc client = .idle) (h : Run step (Separate owner group) s es t) (g : G) :
    ∃ u, Run step always s (es.filter fun e => group e.client = g) u ∧
      outputs step (fun e => group e.client = g) told s (es.filter fun e => group e.client = g) =
        outputs step (fun e => group e.client = g) told s es ∧
      (∀ client, group client = g → u.pc client = t.pc client) ∧
      ∀ path, owner path = g →
        u.nameNode.metadata.lookup path = t.nameNode.metadata.lookup path := by
  have hstart : SameGroup owner group g s s :=
    ⟨fun client path hpath => by simp [hs, ClientPc.paths] at hpath, fun _ _ => rfl,
      fun _ _ => rfl, fun _ _ => rfl⟩
  obtain ⟨u, hrun, hsame, hout⟩ := (unwinding owner group g).run hstart h
  exact ⟨u, hrun, hout, hsame.pc, hsame.files⟩

/-- A client reads the size of a file of its own while the other makes and deletes
    another file. -/
theorem separate_alone_two :
    ∃ es t u, Run step (Separate (· == ascii "b") id) twoClients es t ∧
      es.filter (fun e => id e.client = false) =
        [.getMetadata false .size (ascii "a"), .read false false] ∧
      Run step always twoClients [.getMetadata false .size (ascii "a"), .read false false] u ∧
      u.nameNode.metadata.lookup (ascii "a") = t.nameNode.metadata.lookup (ascii "a") := by
  let es : List (ClientEvent Bool) := [.getMetadata false .size (ascii "a"),
    .call true (.createFile (ascii "b") false) 1, .read false false,
    .call true (.deleteFile (ascii "b")) 2]
  obtain ⟨t, ht, -⟩ := Option.map_eq_some_iff.1 (by decide +kernel :
    (exec step twoClients es).map (fun t => t.pc false) = some .idle)
  have hrun : Run step (Separate (· == ascii "b") id) twoClients es t :=
    .of_exec (by decide +kernel) ht
  have hown : es.filter (fun e => id e.client = false) =
      [.getMetadata false .size (ascii "a"), .read false false] := by decide
  obtain ⟨u, hu, -, -, hfiles⟩ := separate_alone _ _ (fun _ => rfl) hrun false
  rw [hown] at hu
  exact ⟨es, t, u, hrun, hown, hu, hfiles (ascii "a") (by decide)⟩

end Clients

end Dss.Fs
