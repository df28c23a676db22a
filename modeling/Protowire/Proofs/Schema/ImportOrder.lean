import Mathlib.Data.List.Chain
import Mathlib.Data.List.Nodup
import Mathlib.Data.List.Perm.Subperm
import Mathlib.Logic.Relation
import Protowire.Schema.ImportOrder

/-!
# Proofs/Schema/ImportOrder — when files can be put after what they import

`importOrder` succeeds exactly when file names are distinct, all imports are supplied and no file
leads back to itself (`importOrder_isOk_iff`).  It then gives the same files, each after everything
it imports (`ImportSorted`); otherwise its fault is true of the files (`ImportFault`).

The walk keeps one invariant: the names on the way down form a path of imports (`Descent`), and
what is done is sorted and off that path (`Settled`).
-/

namespace Protowire

namespace FileDescriptor

variable {files : List FileDescriptor} {name : String} {f : FileDescriptor}

/-- A file found by a name is one of the files, and has the name. -/
theorem mem_of_named? (h : named? files name = some f) : f ∈ files ∧ f.name = name :=
  ⟨List.mem_of_find?_eq_some h,
    eq_of_beq (List.find?_some (p := fun g : FileDescriptor => g.name == name) h)⟩

/-- There is a file of a name exactly when one of the files has it. -/
theorem isSome_named?_iff : (named? files name).isSome = true ↔ name ∈ files.map (·.name) := by
  simp [named?, List.mem_map]

/-- Where names are distinct, a file is found by its name. -/
theorem named?_name (hdistinct : (files.map (·.name)).Nodup) (hf : f ∈ files) :
    named? files f.name = some f := by
  obtain ⟨g, hg⟩ := Option.isSome_iff_exists.1
    (isSome_named?_iff.2 (List.mem_map_of_mem (f := (·.name)) hf))
  obtain ⟨hmem, hname⟩ := mem_of_named? hg
  rw [hg, List.inj_on_of_nodup_map hdistinct hmem hf hname]

end FileDescriptor

namespace Schema

/-- A file of the name `name` imports `dependency`. -/
def Imports (files : List FileDescriptor) (name dependency : String) : Prop :=
  ∃ f ∈ files, f.name = name ∧ dependency ∈ f.imports

/-- No two files of one name, and each after everything it imports. -/
structure ImportSorted (files : List FileDescriptor) : Prop where
  distinct : (files.map (·.name)).Nodup
  after : ∀ before f rest, files = before ++ f :: rest →
    ∀ name ∈ f.imports, name ∈ before.map (·.name)

/-- Names that lead back to the first one by imports, and come once on the way. -/
structure ImportCycle (files : List FileDescriptor) (cycle : List String) : Prop where
  closed : ∃ name rest, cycle = name :: rest ++ [name] ∧ (name :: rest).Nodup
  chain : cycle.IsChain (Imports files)

/-- What is wrong with the imports of the files. -/
inductive ImportFault (files : List FileDescriptor) : SchemaError → Prop where
  | missing {file dependency : String} (imported : Imports files file dependency)
      (absent : dependency ∉ files.map (·.name)) :
      ImportFault files (.missingImport file dependency)
  | cycle {cycle : List String} (h : ImportCycle files cycle) :
      ImportFault files (.importCycle cycle)

/-! ## Sorted files -/

namespace ImportSorted

variable {files : List FileDescriptor} {f : FileDescriptor}

theorem nil : ImportSorted [] := ⟨List.nodup_nil, fun before f rest h => by simp at h⟩

/-- A file whose imports are all there goes behind sorted files. -/
theorem snoc (h : ImportSorted files) (hnew : f.name ∉ files.map (·.name))
    (himports : ∀ name ∈ f.imports, name ∈ files.map (·.name)) : ImportSorted (files ++ [f]) := by
  refine ⟨?_, fun before g rest hsplit name hname => ?_⟩
  · rw [List.map_append, List.map_singleton]
    exact List.nodup_append.2 ⟨h.distinct, List.nodup_singleton _, fun a ha b hb => by
      obtain rfl := List.mem_singleton.1 hb
      exact fun hab => hnew (hab ▸ ha)⟩
  · rcases List.eq_nil_or_concat rest with rfl | ⟨rest, g', rfl⟩
    · obtain ⟨rfl, hfg⟩ := List.append_inj' hsplit rfl
      obtain rfl := List.singleton_inj.1 hfg
      exact himports name hname
    · rw [List.concat_eq_append, ← List.cons_append, ← List.append_assoc] at hsplit
      exact h.after before g rest (List.append_inj' hsplit rfl).1 name hname

/-- **What a file imports has a smaller number.** -/
theorem exists_lt_of_mem_imports (h : ImportSorted files) {i : Nat} (hf : files[i]? = some f)
    {name : String} (hname : name ∈ f.imports) :
    ∃ j < i, ∃ g, files[j]? = some g ∧ g.name = name := by
  obtain ⟨hi, rfl⟩ := List.getElem?_eq_some_iff.1 hf
  have hsplit : files = files.take i ++ files[i] :: files.drop (i + 1) := by
    rw [List.getElem_cons_drop, List.take_append_drop]
  obtain ⟨g, hg, rfl⟩ := List.mem_map.1 (h.after _ _ _ hsplit name hname)
  obtain ⟨j, hj, hget⟩ := List.mem_iff_getElem.1 hg
  rw [List.length_take] at hj
  have hji : j < i := Nat.lt_of_lt_of_le hj (Nat.min_le_left _ _)
  refine ⟨j, hji, g, ?_, rfl⟩
  rw [← hget, List.getElem_take]
  exact List.getElem?_eq_getElem _

/-- A file that is imported comes before the one that imports it. -/
theorem idxOf_lt_of_imports (h : ImportSorted files) {name dependency : String}
    (himports : Imports files name dependency) :
    (files.map (·.name)).idxOf dependency < (files.map (·.name)).idxOf name := by
  obtain ⟨f, hf, rfl, hdep⟩ := himports
  obtain ⟨before, rest, rfl⟩ := List.append_of_mem hf
  have hbefore := h.after before f rest rfl dependency hdep
  have hnot : f.name ∉ before.map (·.name) := by
    have hdistinct := h.distinct
    rw [List.map_append, List.map_cons] at hdistinct
    exact fun hmem => (List.nodup_append.1 hdistinct).2.2 _ hmem _ List.mem_cons_self rfl
  rw [List.map_append, List.idxOf_append_of_mem hbefore, List.idxOf_append_of_notMem hnot,
    List.map_cons, List.idxOf_cons_self]
  exact Nat.lt_of_lt_of_le (List.idxOf_lt_length_of_mem hbefore) (Nat.le_add_right _ _)

/-- **Sorted files have no cycle.** -/
theorem acyclic (h : ImportSorted files) (name : String) :
    ¬ Relation.TransGen (Imports files) name name := by
  intro hcycle
  have hlt : ∀ {a b : String}, Relation.TransGen (Imports files) a b →
      (files.map (·.name)).idxOf b < (files.map (·.name)).idxOf a := fun hab => by
    induction hab with
    | single hstep => exact h.idxOf_lt_of_imports hstep
    | tail _ hstep ih => exact Nat.lt_trans (h.idxOf_lt_of_imports hstep) ih
  exact Nat.lt_irrefl _ (hlt hcycle)

end ImportSorted

/-! ## The walk -/

/-- The names on the way down: files that import one another, innermost first, and the others. -/
structure Descent (files away : List FileDescriptor) (path : List String) : Prop where
  away_eq : away = files.filter fun f => !path.contains f.name
  nodup : path.Nodup
  chain : path.IsChain fun inner outer => Imports files outer inner

/-- What is done: files in their order, off the way down. -/
structure Settled (files : List FileDescriptor) (path : List String)
    (done : List FileDescriptor) : Prop where
  sorted : ImportSorted done
  subset : ∀ f ∈ done, f ∈ files
  apart : ∀ f ∈ done, f.name ∉ path

/-- The names to go to: imports of the innermost file, or at the top any names of files. -/
def Reachable (files : List FileDescriptor) : (path : List String) → (name : String) → Prop
  | [], name => name ∈ files.map (·.name)
  | inner :: _, name => Imports files inner name

/-- What the walk comes to: the names are done behind what was, or the imports have a fault. -/
def Followed (files : List FileDescriptor) (path names : List String)
    (done : List FileDescriptor) : Except SchemaError (List FileDescriptor) → Prop
  | .ok done' => Settled files path done' ∧ done ⊆ done' ∧ ∀ name ∈ names, name ∈ done'.map (·.name)
  | .error fault => ImportFault files fault

namespace Descent

variable {files away : List FileDescriptor} {path : List String} {name : String}

/-- **A name met again on the way down closes a cycle.** -/
theorem importCycle (h : Descent files away path) (hname : Reachable files path name)
    (hmem : name ∈ path) : ImportCycle files (cycleOf name path) := by
  obtain ⟨inside, outer, hsplit, hnot⟩ := List.eq_append_cons_of_mem hmem
  have hinside : path.takeWhile (· != name) = inside := by
    rw [hsplit,
      List.takeWhile_append_of_pos fun n hn => bne_iff_ne.2 (ne_of_mem_of_not_mem hn hnot)]
    simp
  -- `front` is the path from the innermost file up to the name.
  obtain ⟨front, hfront⟩ : ∃ front, front = inside ++ [name] := ⟨_, rfl⟩
  replace hsplit : path = front ++ outer := by
    rw [hsplit, hfront, List.append_assoc, List.singleton_append]
  have hcycle : cycleOf name path = front.reverse ++ [name] := by
    rw [cycleOf, hinside, hfront, List.reverse_append]
    rfl
  have hnodup : front.Nodup := (List.nodup_append.1 (hsplit ▸ h.nodup)).1
  have hchain := (List.isChain_append.1 (hsplit ▸ h.chain)).1
  refine ⟨⟨name, inside.reverse, by rw [cycleOf, hinside], ?_⟩, ?_⟩
  · have hrev := List.nodup_reverse.2 hnodup
    rwa [hfront, List.reverse_append] at hrev
  · rw [hcycle]
    refine List.isChain_append.2 ⟨List.isChain_reverse.2 hchain, List.isChain_singleton _, ?_⟩
    intro inner hinner n hn
    obtain rfl : name = n := by simpa using hn
    rw [List.getLast?_reverse] at hinner
    -- The last file before the name comes again is the innermost one, which imports it.
    have hpath : path.head? = some inner := by
      rw [hsplit, List.head?_append_of_ne_nil]
      · exact hinner
      · rw [hfront]
        simp
    obtain ⟨rest, rfl⟩ : ∃ rest, path = inner :: rest := List.head?_eq_some_iff.1 hpath
    exact hname

/-- A name that is neither on the way down nor away is missing. -/
theorem importFault_of_named?_eq_none (h : Descent files away path)
    (hname : Reachable files path name) (hmem : name ∉ path)
    (hnone : FileDescriptor.named? away name = none) :
    ImportFault files (.missingImport (path.headD "") name) := by
  have habsent : name ∉ files.map (·.name) := fun hin => by
    obtain ⟨f, hf, rfl⟩ := List.mem_map.1 hin
    have haway : f ∈ away := by
      rw [h.away_eq]
      exact List.mem_filter.2 ⟨hf, by simpa using hmem⟩
    have := List.find?_eq_none.1 hnone f haway
    simp at this
  cases path with
  | nil => exact absurd hname habsent
  | cons inner outer => exact .missing hname habsent

/-- The way down goes on to a file that is away. -/
theorem cons (h : Descent files away path) (hname : Reachable files path name)
    (hmem : name ∉ path) : Descent files (FileDescriptor.allBut name away) (name :: path) := by
  refine ⟨?_, List.nodup_cons.2 ⟨hmem, h.nodup⟩, ?_⟩
  · rw [h.away_eq, FileDescriptor.allBut, List.filter_filter]
    refine List.filter_congr fun f _ => ?_
    rw [List.contains_cons, Bool.not_or]
    rfl
  · cases path with
    | nil => exact List.isChain_singleton _
    | cons inner outer => exact List.isChain_cons_cons.2 ⟨hname, h.chain⟩

end Descent

/-- **A file goes behind its imports.** -/
theorem Settled.snoc {files done : List FileDescriptor} {path : List String} {f : FileDescriptor}
    (h : Settled files (f.name :: path) done) (hf : f ∈ files) (hpath : f.name ∉ path)
    (himports : ∀ name ∈ f.imports, name ∈ done.map (·.name)) :
    Settled files path (done ++ [f]) := by
  have hnew : f.name ∉ done.map (·.name) := fun hmem => by
    obtain ⟨g, hg, hname⟩ := List.mem_map.1 hmem
    exact h.apart g hg (hname ▸ List.mem_cons_self)
  refine ⟨h.sorted.snoc hnew himports, fun g hg => ?_, fun g hg => ?_⟩
  · rcases List.mem_append.1 hg with hg | hg
    · exact h.subset g hg
    · exact List.mem_singleton.1 hg ▸ hf
  · rcases List.mem_append.1 hg with hg | hg
    · exact fun hmem => h.apart g hg (List.mem_cons_of_mem _ hmem)
    · exact List.mem_singleton.1 hg ▸ hpath

/-- A file that is not done is put on the way down. -/
theorem Settled.below {files done : List FileDescriptor} {path : List String} {name : String}
    (h : Settled files path done) (hnot : name ∉ done.map (·.name)) :
    Settled files (name :: path) done where
  sorted := h.sorted
  subset := h.subset
  apart f hf := by
    rintro (_ | ⟨_, hmem⟩)
    · exact hnot (List.mem_map_of_mem hf)
    · exact h.apart f hf hmem

namespace Followed

variable {files done done' : List FileDescriptor} {path names : List String}
  {result : Except SchemaError (List FileDescriptor)}

/-- A name that is done before the walk goes on is done at its end. -/
theorem cons {name : String} (h : Followed files path names done' result) (hsub : done ⊆ done')
    (hname : name ∈ done'.map (·.name)) : Followed files path (name :: names) done result := by
  cases result with
  | error fault => exact h
  | ok last =>
    obtain ⟨hsettled, hkept, hall⟩ := h
    exact ⟨hsettled, List.Subset.trans hsub hkept,
      List.forall_mem_cons.2 ⟨List.map_subset _ hkept hname, hall⟩⟩

/-- What goes on from where a walk comes to need not look at its faults. -/
theorem bind {path' names' : List String}
    {next : List FileDescriptor → Except SchemaError (List FileDescriptor)}
    (h : Followed files path' names' done result)
    (hnext : ∀ done', Settled files path' done' → done ⊆ done' →
      (∀ name ∈ names', name ∈ done'.map (·.name)) →
        Followed files path names done (next done')) :
    Followed files path names done (result >>= next) := by
  cases result with
  | error fault => exact h
  | ok done' => exact hnext done' h.1 h.2.1 h.2.2

end Followed

section Steps

variable {away done : List FileDescriptor} {path names : List String} {name : String}

/-- Where there is no file of a name, the one that imports it is at fault. -/
theorem follow_of_named?_eq_none
    (hdone : ¬ (FileDescriptor.named? done name).isSome = true)
    (hpath : ¬ path.contains name = true) (hnone : FileDescriptor.named? away name = none) :
    follow away path (name :: names) done = .error (.missingImport (path.headD "") name) := by
  rw [follow, if_neg hdone, if_neg hpath]
  split
  · rfl
  · rename_i f hf
    exact absurd (hf.symm.trans hnone) (Option.some_ne_none f)

/-- Where a name is neither done nor on the way down, its file goes behind its imports. -/
theorem follow_of_named? {f : FileDescriptor}
    (hdone : ¬ (FileDescriptor.named? done name).isSome = true)
    (hpath : ¬ path.contains name = true) (hf : FileDescriptor.named? away name = some f) :
    follow away path (name :: names) done
      = follow (FileDescriptor.allBut name away) (name :: path) f.imports done >>= fun done =>
          follow away path names (done ++ [f]) := by
  rw [follow, if_neg hdone, if_neg hpath]
  split
  · rename_i hnone
    exact absurd (hf.symm.trans hnone) (Option.some_ne_none f)
  · rename_i g hg
    obtain rfl := Option.some.inj (hf.symm.trans hg)
    rfl

end Steps

/-- **The walk does what is asked, or finds what is wrong with the imports.** -/
theorem follow_followed {files away done : List FileDescriptor} {path names : List String}
    (hdescent : Descent files away path) (hsettled : Settled files path done)
    (hnames : ∀ name ∈ names, Reachable files path name) :
    Followed files path names done (follow away path names done) := by
  induction away, path, names, done using follow.induct with
  | case1 away path done =>
    rw [follow]
    exact ⟨hsettled, fun _ h => h, fun _ h => absurd h List.not_mem_nil⟩
  | case2 away path name names done hdone ih =>
    -- The file is done already.
    rw [follow, if_pos hdone]
    have hrest := ih hdescent hsettled (List.forall_mem_of_forall_mem_cons hnames)
    exact hrest.cons (fun _ h => h) (FileDescriptor.isSome_named?_iff.1 hdone)
  | case3 away path name names done hdone hpath =>
    rw [follow, if_neg hdone, if_pos hpath]
    exact .cycle (hdescent.importCycle (hnames name List.mem_cons_self)
      (List.contains_iff_mem.1 hpath))
  | case4 away path name names done hdone hpath hnone =>
    rw [follow_of_named?_eq_none hdone hpath hnone]
    exact hdescent.importFault_of_named?_eq_none (hnames name List.mem_cons_self)
      (mt List.contains_iff_mem.2 hpath) hnone
  | case5 away path name names done hdone hpath f hf hlt ihimports ihrest =>
    have hmem : name ∉ path := mt List.contains_iff_mem.2 hpath
    have hbelow : Settled files (name :: path) done :=
      hsettled.below (mt FileDescriptor.isSome_named?_iff.2 hdone)
    have hdown := hdescent.cons (hnames name List.mem_cons_self) hmem
    rw [follow_of_named? hdone hpath hf]
    obtain ⟨haway, rfl⟩ := FileDescriptor.mem_of_named? hf
    have hfiles : f ∈ files := List.mem_of_mem_filter (hdescent.away_eq ▸ haway)
    -- The imports first, and the file itself behind them.
    refine (ihimports hdown hbelow fun n hn => ⟨f, hfiles, rfl, hn⟩).bind ?_
    intro done' hsettled' hsub hall
    have hrest := ihrest done' hdescent (hsettled'.snoc hfiles hmem hall)
      (List.forall_mem_of_forall_mem_cons hnames)
    exact hrest.cons (List.subset_append_of_subset_left _ hsub)
      (List.mem_map_of_mem (List.mem_append_right _ (List.mem_singleton_self f)))

/-! ## The order -/

variable {files order : List FileDescriptor}

/-- The walk from all names. -/
theorem followed_importOrder (hdistinct : (files.map (·.name)).Nodup) :
    importOrder files = follow files [] (files.map (·.name)) [] ∧
      Followed files [] (files.map (·.name)) [] (importOrder files) := by
  have hnone : Naming.firstRepeated? [] (files.map (·.name)) = none :=
    Naming.firstRepeated?_eq_none_iff.2 ⟨hdistinct, fun _ _ => List.not_mem_nil⟩
  have horder : importOrder files = follow files [] (files.map (·.name)) [] := by
    simp only [importOrder, hnone]
  refine ⟨horder, horder ▸ follow_followed ⟨?_, List.nodup_nil, List.IsChain.nil⟩
    ⟨.nil, nofun, nofun⟩ fun name hname => hname⟩
  simp

/-- **Files that are put in order are the same files, each after everything it imports.** -/
theorem importOrder_eq_ok (h : importOrder files = .ok order) :
    order.Perm files ∧ ImportSorted order := by
  have hdistinct : (files.map (·.name)).Nodup := by
    cases hrepeated : Naming.firstRepeated? [] (files.map (·.name)) with
    | none => exact (Naming.firstRepeated?_eq_none_iff.1 hrepeated).1
    | some name =>
      simp only [importOrder, hrepeated] at h
      exact absurd h nofun
  have hfollowed := (followed_importOrder hdistinct).2
  rw [h] at hfollowed
  obtain ⟨hsettled, -, hall⟩ := hfollowed
  refine ⟨?_, hsettled.sorted⟩
  have hnodup : files.Nodup := hdistinct.of_map _
  have hsub : files ⊆ order := fun f hf => by
    obtain ⟨g, hg, hname⟩ := List.mem_map.1 (hall f.name (List.mem_map_of_mem hf))
    rwa [← List.inj_on_of_nodup_map hdistinct (hsettled.subset g hg) hf hname]
  exact ((List.perm_ext_iff_of_nodup (hsettled.sorted.distinct.of_map _) hnodup).2 fun f =>
    ⟨hsettled.subset f, fun hf => hsub hf⟩)

/-- Names that are done add nothing. -/
theorem follow_of_done {away done : List FileDescriptor} {path names : List String}
    (h : ∀ name ∈ names, name ∈ done.map (·.name)) : follow away path names done = .ok done := by
  induction names with
  | nil => rw [follow]
  | cons name names ih =>
    obtain ⟨hname, hnames⟩ := List.forall_mem_cons.1 h
    rw [follow, if_pos (FileDescriptor.isSome_named?_iff.2 hname), ih hnames]

/-- **Files that come after what they import keep their order.** -/
theorem ImportSorted.importOrder_eq (h : ImportSorted files) : importOrder files = .ok files := by
  have hwalk : ∀ done rest, files = done ++ rest →
      follow files [] (rest.map (·.name)) done = .ok files := by
    intro done rest
    induction rest generalizing done with
    | nil =>
      rintro rfl
      rw [List.map_nil, follow, List.append_nil]
    | cons f rest ih =>
      intro hsplit
      have hdistinct := h.distinct
      rw [hsplit, List.map_append, List.nodup_append] at hdistinct
      have hnew : ¬ (FileDescriptor.named? done f.name).isSome = true := fun hdone =>
        hdistinct.2.2 _ (FileDescriptor.isSome_named?_iff.1 hdone) _ List.mem_cons_self rfl
      have hf : FileDescriptor.named? files f.name = some f :=
        FileDescriptor.named?_name h.distinct
          (hsplit ▸ List.mem_append_right done List.mem_cons_self)
      rw [List.map_cons, follow_of_named? hnew (by simp) hf,
        follow_of_done (h.after done f rest hsplit)]
      exact ih (done ++ [f]) (by rw [hsplit, List.append_assoc, List.singleton_append])
  rw [(followed_importOrder h.distinct).1]
  exact hwalk [] files rfl

/-- Imports do not depend on the order of the files. -/
theorem imports_congr (h : ∀ f, f ∈ files ↔ f ∈ order) : Imports files = Imports order := by
  funext name dependency
  exact propext (exists_congr fun f => and_congr_left fun _ => h f)

/-- A cycle leads from its first name back to it. -/
theorem ImportCycle.transGen {cycle : List String} (h : ImportCycle files cycle) :
    ∃ name, Relation.TransGen (Imports files) name name := by
  obtain ⟨name, rest, rfl, -⟩ := h.closed
  have hchain : (name :: (rest ++ [name])).IsChain (Imports files) := h.chain
  have hpairwise := List.isChain_iff_pairwise.1 (hchain.imp fun _ _ => Relation.TransGen.single)
  exact ⟨name, List.rel_of_pairwise_cons hpairwise (List.mem_append_right _ List.mem_cons_self)⟩

/-- **Files can be put in order exactly when** no two have one name, all that is imported is there
and no file leads back to itself by imports. -/
theorem importOrder_isOk_iff : (∃ order, importOrder files = .ok order) ↔
    (files.map (·.name)).Nodup ∧
    (∀ f ∈ files, ∀ name ∈ f.imports, name ∈ files.map (·.name)) ∧
    ∀ name, ¬ Relation.TransGen (Imports files) name name := by
  constructor
  · rintro ⟨order, h⟩
    obtain ⟨hperm, hsorted⟩ := importOrder_eq_ok h
    refine ⟨(hperm.map _).nodup_iff.1 hsorted.distinct, fun f hf name hname => ?_, fun name => ?_⟩
    · obtain ⟨before, rest, hsplit⟩ := List.append_of_mem (hperm.mem_iff.2 hf)
      have := hsorted.after before f rest hsplit name hname
      exact (hperm.map _).subset (hsplit ▸ List.map_subset _ (List.subset_append_left _ _) this)
    · rw [← imports_congr fun f => hperm.mem_iff]
      exact hsorted.acyclic name
  · rintro ⟨hdistinct, hsupplied, hacyclic⟩
    have hfollowed := (followed_importOrder hdistinct).2
    cases horder : importOrder files with
    | ok order => exact ⟨order, rfl⟩
    | error fault =>
      rw [horder] at hfollowed
      cases hfollowed with
      | missing himports habsent =>
        obtain ⟨f, hf, -, hname⟩ := himports
        exact absurd (hsupplied f hf _ hname) habsent
      | cycle hcycle =>
        obtain ⟨name, hname⟩ := hcycle.transGen
        exact absurd hname (hacyclic name)

/-- **Files are sorted by their imports.**  Of files with distinct names there is an order exactly
when everything imported is among them and no file leads back to itself by imports, be it at once or
through others.  The order then holds the same files, each once, and whatever a file imports stands
in front of it. -/
theorem importOrder_topological (hdistinct : (files.map (·.name)).Nodup) :
    ((∃ order, importOrder files = .ok order) ↔
      (∀ f ∈ files, ∀ name ∈ f.imports, name ∈ files.map (·.name)) ∧
        ∀ name, ¬ Relation.TransGen (Imports files) name name) ∧
    ∀ order, importOrder files = .ok order →
      order.Perm files ∧ order.Nodup ∧
        ∀ (i : Nat) (f : FileDescriptor), order[i]? = some f → ∀ name ∈ f.imports,
          ∃ j < i, ∃ g : FileDescriptor, order[j]? = some g ∧ g.name = name := by
  refine ⟨importOrder_isOk_iff.trans (and_iff_right hdistinct), fun order h => ?_⟩
  obtain ⟨hperm, hsorted⟩ := importOrder_eq_ok h
  exact ⟨hperm, hsorted.distinct.of_map _,
    fun i f hf name hname => hsorted.exists_lt_of_mem_imports hf hname⟩

/-- Three files that import one another towards the last: the last comes first.  A file that imports
itself has no order. -/
theorem importOrder_topological_three_and_self :
    (∃ order, importOrder [⟨"a", "", ["b", "c"], [], [], "proto3"⟩,
        ⟨"b", "", ["c"], [], [], "proto3"⟩, ⟨"c", "", [], [], [], "proto3"⟩] = .ok order ∧
      order.map (·.name) = ["c", "b", "a"] ∧ order.Nodup ∧
      ∃ j < 2, ∃ g : FileDescriptor, order[j]? = some g ∧ g.name = "b") ∧
    ¬ ∃ order, importOrder [⟨"a", "", ["a"], [], [], "proto3"⟩] = .ok order := by
  refine ⟨?_, fun h => ?_⟩
  · have horder : importOrder [⟨"a", "", ["b", "c"], [], [], "proto3"⟩,
          ⟨"b", "", ["c"], [], [], "proto3"⟩, ⟨"c", "", [], [], [], "proto3"⟩]
        = .ok [⟨"c", "", [], [], [], "proto3"⟩, ⟨"b", "", ["c"], [], [], "proto3"⟩,
          ⟨"a", "", ["b", "c"], [], [], "proto3"⟩] := by cbv
    obtain ⟨-, hnodup, hbefore⟩ := (importOrder_topological (by decide)).2 _ horder
    exact ⟨_, horder, rfl, hnodup, hbefore 2 _ rfl "b" List.mem_cons_self⟩
  · have hcycle : Imports [⟨"a", "", ["a"], [], [], "proto3"⟩] "a" "a" :=
      ⟨_, List.mem_cons_self, rfl, List.mem_cons_self⟩
    exact ((importOrder_topological (by decide)).1.1 h).2 "a" (.single hcycle)

end Schema

end Protowire
