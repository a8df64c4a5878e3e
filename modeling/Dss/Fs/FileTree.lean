import Dss.Lib.Branching
import Dss.Lib.Stream

/-!
# A tree of files with symbolic links

A tree of directories and regular files, where symbolic links lead from any directory
to anywhere in it (`FileTree`). If the links are followed, the tree is a branching, which
need be no tree any more (`FileTree.branching`).

* In a finite tree an end is come to exactly if no link met leads back to the directory it
  is in (`FileTree.acc_iff_links`).
* A regular file below the directory is collected once if no link met leads to it
  (`FileTree.count_eq_one`), and at least twice if one does (`FileTree.two_le_count`).
-/

namespace Dss.Fs

open Dss.Lib Relation

variable {ι : Type}

/-- What a name in a directory stands for: a directory or a regular file, or a symbolic
    link, by what it leads to through all further links, if there is anything. -/
inductive TreeEntry (ι : Type)
  | node (n : ι)
  | link (target : Option ι)
  deriving DecidableEq

def TreeEntry.leadsTo : TreeEntry ι → Option ι
  | .node n => some n
  | .link target => target

inductive TreeNode (ι : Type)
  | regularFile
  | directory (entries : List (Bytes × TreeEntry ι))

def TreeNode.entries : TreeNode ι → List (Bytes × TreeEntry ι)
  | .regularFile => []
  | .directory entries => entries

def TreeNode.isDirectory : TreeNode ι → Bool
  | .regularFile => false
  | .directory _ => true

/-- The directories and regular files `ι`, where a file with several hard links counts once
    for each of them. Each is in one directory at most, under one name, and no directory is
    below itself. -/
structure FileTree (ι : Type) where
  node : ι → TreeNode ι
  names_nodup : ∀ d, ((node d).entries.map Prod.fst).Nodup
  parent_unique : ∀ {d d' name name' n}, (name, .node n) ∈ (node d).entries →
    (name', .node n) ∈ (node d').entries → d = d' ∧ name = name'
  acyclic : ∀ d, ¬TransGen (fun d n => ∃ name, (name, .node n) ∈ (node d).entries) d d

namespace FileTree

variable (tree : FileTree ι)

/-- The directory `n` or the regular file `n` is in `d`. -/
def Holds (d n : ι) : Prop := ∃ name, (name, .node n) ∈ (tree.node d).entries

/-- A symbolic link in `d` leads to `n`. -/
def LinksTo (d n : ι) : Prop := ∃ name, (name, .link (some n)) ∈ (tree.node d).entries

/-- `f` is a regular file. -/
def IsFile (f : ι) : Prop := (tree.node f).isDirectory = false

/-- `n` is found in `d` if links are followed. -/
def Finds (d n : ι) : Prop := tree.Holds d n ∨ tree.LinksTo d n

/-- `n` lies in the directory tree under `d`. -/
abbrev Below : ι → ι → Prop := TransGen tree.Holds

/-- `n` is found from `d` if links are followed. -/
abbrev Reaches : ι → ι → Prop := ReflTransGen tree.Finds

/-- No link met in `d` leads back to the directory it is in, or to a regular file that
    lies in the tree under `d` anyway. -/
def LinksLeadAway (d : ι) : Prop := ∀ u v, tree.Reaches d u → tree.LinksTo u v →
  ¬tree.Reaches v u ∧ ∀ f, tree.IsFile f → tree.Below d f → ¬tree.Reaches v f

/-- What is found in the directories if links are followed, be it anything or not. -/
def branching : Branching (Option ι) where
  inner
    | some d => (tree.node d).isDirectory
    | none => false
  next
    | some d => (tree.node d).entries.map fun e => e.2.leadsTo
    | none => []

variable {tree} {d n c f u v : ι} {l : List (Option ι)}

/-! ## Walks -/

theorem inner_iff {m : Option ι} : tree.branching.inner m = true ↔
    ∃ d, m = some d ∧ (tree.node d).isDirectory = true := by
  cases m <;> simp [branching]

theorem isDirectory_of_mem {e : Bytes × TreeEntry ι} (he : e ∈ (tree.node d).entries) :
    (tree.node d).isDirectory = true := by
  cases hnode : tree.node d with
  | regularFile =>
    rw [hnode] at he
    cases he
  | directory entries => rfl

theorem leads_iff {m : Option ι} : tree.branching.Leads (some d) m ↔
    ∃ e ∈ (tree.node d).entries, e.2.leadsTo = m := by
  simp only [Branching.Leads, branching, List.mem_map]
  refine and_iff_right_of_imp ?_
  rintro ⟨e, he, -⟩
  exact isDirectory_of_mem he

theorem leads_some : tree.branching.Leads (some d) (some n) ↔ tree.Finds d n := by
  rw [leads_iff]
  constructor
  · rintro ⟨⟨name, _ | _⟩, hmem, heq⟩
    · obtain rfl := Option.some.inj heq
      exact .inl ⟨name, hmem⟩
    · obtain rfl := heq
      exact .inr ⟨name, hmem⟩
  · rintro (⟨name, hmem⟩ | ⟨name, hmem⟩) <;> exact ⟨_, hmem, rfl⟩

theorem not_leads_none {m : Option ι} : ¬tree.branching.Leads none m := fun h => nomatch h.1

theorem reaches_iff : tree.branching.Reaches (some d) (some n) ↔ tree.Reaches d n := by
  constructor
  · intro h
    -- nothing is found from where nothing is, so the walk does not lead through there
    have hwalk : ∀ m, tree.branching.Reaches m (some n) → ∀ d ∈ m, tree.Reaches d n := by
      intro m hm
      induction hm using ReflTransGen.head_induction_on with
      | refl =>
        rintro d ⟨⟩
        exact .refl
      | @head m k hmk hkn ih =>
        rintro d ⟨⟩
        cases k with
        | some k => exact .head (leads_some.1 hmk) (ih k rfl)
        | none =>
          rcases hkn.cases_head with heq | ⟨k, hk, -⟩
          · cases heq
          · exact absurd hk not_leads_none
    exact hwalk _ h d rfl
  · exact fun h => h.lift some fun _ _ h => leads_some.2 h

/-- Walks come to an end exactly if those in the branching do. -/
theorem acc_iff : Acc (Function.swap tree.branching.Leads) (some d) ↔
    Acc (Function.swap tree.Finds) d := by
  constructor
  · refine fun h => Subrelation.accessible ?_ (InvImage.accessible some h)
    exact fun h => leads_some.2 h
  · intro h
    induction h with
    | intro d _ ih =>
      refine .intro _ fun m hm => ?_
      cases m with
      | some n => exact ih n (leads_some.1 hm)
      | none => exact .intro _ fun k hk => absurd hk not_leads_none

/-- What is found is in the tree, or a link is followed on the way. -/
theorem holds_or_links (h : tree.Reaches d n) : ReflTransGen tree.Holds d n ∨
    ∃ u v, tree.Reaches d u ∧ tree.LinksTo u v ∧ tree.Reaches v n := by
  induction h using ReflTransGen.head_induction_on with
  | refl => exact .inl .refl
  | @head d c hdc hcn ih =>
    rcases hdc with hholds | hlink
    · rcases ih with hc | ⟨u, v, hu, hlink, hv⟩
      · exact .inl (.head hholds hc)
      · exact .inr ⟨u, v, .head (.inl hholds) hu, hlink, hv⟩
    · exact .inr ⟨d, c, .refl, hlink, hcn⟩

/-- Of two in a directory, at most one has a given node in its tree. -/
theorem eq_of_holds (hc : tree.Holds d c) (hn : tree.Holds d n)
    (hcf : ReflTransGen tree.Holds c f) (hnf : ReflTransGen tree.Holds n f) : c = n := by
  -- what holds a node is unique, so one of them is below the other
  have hparent : Relator.RightUnique (Function.swap tree.Holds) := by
    rintro n d d' ⟨name, h⟩ ⟨name', h'⟩
    exact (tree.parent_unique h h').1
  have hbelow : ∀ {c n}, tree.Holds d c → tree.Holds d n → ReflTransGen tree.Holds c n →
      c = n := by
    intro c n hc hn h
    rcases h.cases_tail with rfl | ⟨x, hcx, hx⟩
    · rfl
    · obtain rfl := hparent hx hn
      exact absurd (TransGen.head' hc hcx) (tree.acyclic x)
  rcases ReflTransGen.total_of_right_unique hparent (reflTransGen_swap.2 hcf)
    (reflTransGen_swap.2 hnf) with h | h
  · exact (hbelow hn hc (reflTransGen_swap.1 h)).symm
  · exact hbelow hc hn (reflTransGen_swap.1 h)

/-- Following links in a finite tree, an end is come to exactly if no link leads back to
    the directory it is in. -/
theorem acc_iff_links [Finite ι] : Acc (Function.swap tree.branching.Leads) (some d) ↔
    ∀ u v, tree.Reaches d u → tree.LinksTo u v → ¬tree.Reaches v u := by
  rw [acc_iff, acc_iff_no_cycle]
  constructor
  · exact fun h u v hu hlink hvu => h u hu (.head' (.inr hlink) hvu)
  · intro h n hn hcycle
    obtain ⟨c, hnc, hcn⟩ := TransGen.head'_iff.1 hcycle
    rcases hnc with hholds | hlink
    · rcases holds_or_links hcn with hup | ⟨u, v, hcu, hlink, hvn⟩
      · exact tree.acyclic n (.head' hholds hup)
      · have hnu : tree.Reaches n u := .head (.inl hholds) hcu
        exact h u v (hn.trans hnu) hlink (hvn.trans hnu)
    · exact h n c hn hlink hcn

/-! ## What is collected -/

theorem yields_iff (hd : (tree.node d).isDirectory = true) :
    tree.branching.Yields (some d) l ↔ ∃ ls,
      List.Forall₂ (fun e l => tree.branching.Yields e.2.leadsTo l) (tree.node d).entries ls ∧
        l = ls.flatten := by
  have hinner : tree.branching.inner (some d) = true := hd
  rw [Branching.yields_of_inner hinner]
  exact exists_congr fun ls => and_congr_left' List.forall₂_map_left_iff

/-- A regular file is collected if it is found. -/
theorem mem_iff_reaches (hf : tree.IsFile f) (hl : tree.branching.Yields (some n) l) :
    some f ∈ l ↔ tree.Reaches n f := by
  rw [hl.mem_iff, reaches_iff]
  refine and_iff_right_of_imp fun _ => ?_
  rw [Bool.not_eq_true]
  exact hf

/-- A regular file has no entries, so one in the tree of a directory is below it. -/
theorem exists_holds {e : Bytes × TreeEntry ι} (hf : tree.IsFile f)
    (hmem : e ∈ (tree.node d).entries) (hdf : ReflTransGen tree.Holds d f) :
    ∃ c, tree.Holds d c ∧ ReflTransGen tree.Holds c f := by
  rcases hdf.cases_head with rfl | h
  · exact absurd (isDirectory_of_mem hmem) (Bool.eq_false_iff.1 hf)
  · exact h

variable [DecidableEq ι]

/-- A regular file of a directory tree, to which no link leads, is collected once. -/
theorem count_eq_one (hf : tree.IsFile f) (hdf : ReflTransGen tree.Holds d f)
    (hlinks : ∀ u v, tree.Reaches d u → tree.LinksTo u v → ¬tree.Reaches v f)
    (hl : tree.branching.Yields (some d) l) : l.count (some f) = 1 := by
  induction hdf using ReflTransGen.head_induction_on generalizing l with
  | refl =>
    obtain rfl := (Branching.yields_of_end (by simp [branching, hf.symm])).1 hl
    simp
  | @head d c hdc hcf ih =>
    obtain ⟨name, hmem⟩ := hdc
    obtain ⟨ls, hls, rfl⟩ := (yields_iff (isDirectory_of_mem hmem)).1 hl
    have hdc : tree.Finds d c := .inl ⟨name, hmem⟩
    refine Branching.count_flatten_eq_one hls hmem (tree.names_nodup d).of_map
      (fun l hl => ih (fun u v hu => hlinks u v (.head hdc hu)) hl) ?_
    -- another entry is no link to the file, nor is the file in its tree
    rintro ⟨name', entry⟩ hmem' hne l' hl' hfl
    match entry with
    | .link none =>
      obtain rfl := (Branching.yields_of_end (by simp [branching, TreeEntry.leadsTo])).1 hl'
      simp [TreeEntry.leadsTo] at hfl
    | .link (some v) => exact hlinks d v .refl ⟨name', hmem'⟩ ((mem_iff_reaches hf hl').1 hfl)
    | .node n =>
      rcases holds_or_links ((mem_iff_reaches hf hl').1 hfl) with hnf | ⟨u, v, hu, hlink, hv⟩
      · obtain rfl := eq_of_holds ⟨name, hmem⟩ ⟨name', hmem'⟩ hcf hnf
        obtain ⟨-, rfl⟩ := tree.parent_unique hmem hmem'
        exact hne rfl
      · exact hlinks u v (.head (.inl ⟨name', hmem'⟩) hu) hlink hv

theorem one_le_count (hf : tree.IsFile f) (hn : tree.Reaches n f)
    (hl : tree.branching.Yields (some n) l) : 1 ≤ l.count (some f) :=
  List.count_pos_iff.2 ((mem_iff_reaches hf hl).2 hn)

/-- A regular file that is found through another entry than the one in whose tree it is. -/
theorem two_le_count_of_entry {name : Bytes} {e : TreeEntry ι} (hf : tree.IsFile f)
    (hdc : tree.Holds d c) (hcf : ReflTransGen tree.Holds c f)
    (hmem : (name, e) ∈ (tree.node d).entries) (hne : e ≠ .node c) (hn : e.leadsTo = some n)
    (hnf : tree.Reaches n f) (hl : tree.branching.Yields (some d) l) :
    2 ≤ l.count (some f) := by
  obtain ⟨name', hmem'⟩ := hdc
  obtain ⟨ls, hls, rfl⟩ := (yields_iff (isDirectory_of_mem hmem)).1 hl
  refine Branching.two_le_count_flatten hls hmem hmem' (fun heq => hne (congrArg Prod.snd heq))
    (fun l hl => one_le_count hf hnf (hn ▸ hl)) fun l hl => one_le_count hf ?_ hl
  exact hcf.lift id fun _ _ h => .inl h

/-- A regular file of a directory tree, to which a link leads, is collected twice. -/
theorem two_le_count (hf : tree.IsFile f) (hdf : ReflTransGen tree.Holds d f)
    (hdu : tree.Reaches d u) (hlink : tree.LinksTo u v) (hvf : tree.Reaches v f)
    (hl : tree.branching.Yields (some d) l) : 2 ≤ l.count (some f) := by
  induction hdu using ReflTransGen.head_induction_on generalizing l with
  | refl =>
    obtain ⟨name, hmem⟩ := hlink
    obtain ⟨c, hdc, hcf⟩ := exists_holds hf hmem hdf
    exact two_le_count_of_entry hf hdc hcf hmem nofun rfl hvf hl
  | @head d n hdn hnu ih =>
    have hnf : tree.Reaches n f := hnu.trans (.head (.inr hlink) hvf)
    rcases hdn with ⟨name, hmem⟩ | ⟨name, hmem⟩ <;>
      obtain ⟨c, hdc, hcf⟩ := exists_holds hf hmem hdf
    · by_cases hnc : n = c
      · -- the file is collected twice in the directory that is walked through
        subst hnc
        obtain ⟨ls, hls, rfl⟩ := (yields_iff (isDirectory_of_mem hmem)).1 hl
        exact Branching.le_count_flatten hls hmem fun l hl => ih hcf hl
      · refine two_le_count_of_entry hf hdc hcf hmem ?_ rfl hnf hl
        simpa using hnc
    · exact two_le_count_of_entry hf hdc hcf hmem nofun rfl hnf hl

/-- Following links, the regular files of the tree are collected once each exactly if no
    link leads to one. -/
theorem count_eq_one_iff (hl : tree.branching.Yields (some d) l) :
    (∀ f, tree.IsFile f → tree.Below d f → l.count (some f) = 1) ↔
      ∀ u v, tree.Reaches d u → tree.LinksTo u v → ∀ f, tree.IsFile f → tree.Below d f →
        ¬tree.Reaches v f := by
  constructor
  · intro hone u v hu hlink f hf hdf hvf
    have htwo := two_le_count hf hdf.to_reflTransGen hu hlink hvf hl
    rw [hone f hf hdf] at htwo
    exact absurd htwo (by decide)
  · exact fun h f hf hdf => count_eq_one hf hdf.to_reflTransGen
      (fun u v hu hlink => h u v hu hlink f hf hdf) hl

end FileTree

end Dss.Fs
