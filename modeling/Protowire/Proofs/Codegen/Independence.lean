import Protowire.Generator.Generate
import Protowire.Proofs.Codegen.Renumber
import Protowire.Proofs.Schema.Agreement

/-!
# Proofs/Codegen/Independence — a file is generated from itself and what it imports

Which other files there are, and in what order they come, decides the numbers of everything in the
schema.  The code of a file does not show it: where two lists of files share a file and all it
leads to by imports, its code is **the same in both**.
-/

namespace Protowire

open Schema

namespace Schema

/-- The file generated for the schema file of a name. -/
def codeOf? (s : Schema) (config : Config) (name : String) : Option CodeFile := do
  let id ← s.fileNamed? name
  let file ← s.files[id]?
  return CodeFile.ofFile s config id file

/-- What is generated for names is the file of each of them, and the index. -/
theorem codeFiles_eq (s : Schema) (targets : List String) (config : Config) :
    s.codeFiles targets config = targets.filterMap (s.codeOf? config) ++
      if config.emitIndex && !targets.isEmpty then [CodeFile.index config targets] else [] :=
  rfl

/-- Files of different names are found by them. -/
theorem ResolvesTo.codeOf?_eq {files : List FileDescriptor} {bound : List Message} {s : Schema}
    (h : ResolvesTo files bound s) (hdistinct : (files.map (·.name)).Nodup) {i : FileId}
    {f : FileDescriptor} (hf : files[i]? = some f) (config : Config) :
    s.codeOf? config f.name = some (CodeFile.ofFile s config i
      ⟨f, importIds files f, contentsOf files (.file i)⟩) := by
  have hfile := h.getElem?_files.2 ⟨f, hf, rfl⟩
  have hnames : (s.files.map (·.source.name)).Nodup := by
    rwa [← h.map_source_files, List.map_map] at hdistinct
  have hfound : s.fileNamed? f.name = some i :=
    (findIdx?_eq_some_iff_of_nodup hnames fun _ => eq_of_beq).2 ⟨_, hfile, beq_self_eq_true _⟩
  rw [codeOf?, hfound]
  exact congrArg (·.bind fun file => some (CodeFile.ofFile s config i file)) hfile

end Schema

/-- The files that `f` sees are shared by two lists that both have them. -/
theorem Schema.shares_of_sees {files others : List FileDescriptor} (hsorted : ImportSorted files)
    (hsorted' : ImportSorted others) {f : FileDescriptor}
    (hshared : ∀ g ∈ files, Sees files f g → g ∈ others) :
    Shares files others fun i => ∃ g, files[i]? = some g ∧ Sees files f g where
  sorted := hsorted
  sorted' := hsorted'
  exists_mem := fun i ⟨g, hg, hsees⟩ => ⟨g, hshared g (List.mem_of_getElem? hg) hsees, hg⟩
  closed := fun i j g g' ⟨g₀, hg₀, hsees⟩ hg hg' hsees' => by
    obtain rfl := Option.some.inj (hg.symm.trans hg₀)
    exact ⟨g', hg', hsees.trans hsees'⟩

/-- **Generated code depends only on the file and what it imports.**  Where all files that `f` leads
to by imports, itself included, are among other files as well, both generate the same file for
it. -/
theorem code_determined_by_imports {files others : List FileDescriptor} {s t : Schema}
    (hs : resolve files = .ok s) (ht : resolve others = .ok t) {f : FileDescriptor}
    (hf : f ∈ files) (hshared : ∀ g ∈ files, Sees files f g → g ∈ others) (config : Config) :
    ∃ code, s.codeOf? config f.name = some code ∧ t.codeOf? config f.name = some code := by
  obtain ⟨order, horder, hs⟩ := bind_eq_ok_iff.1 hs
  obtain ⟨order', horder', ht⟩ := bind_eq_ok_iff.1 ht
  obtain ⟨hperm, hsorted⟩ := importOrder_eq_ok horder
  obtain ⟨hperm', hsorted'⟩ := importOrder_eq_ok horder'
  obtain ⟨bound, hs⟩ := resolveOrdered_eq_ok_iff.1 hs
  obtain ⟨bound', ht⟩ := resolveOrdered_eq_ok_iff.1 ht
  have himports : Imports order = Imports files := imports_congr fun g => hperm.mem_iff
  have hshares := shares_of_sees hsorted hsorted' (f := f) fun g hg hsees => by
    rw [Sees, himports] at hsees
    exact hperm'.mem_iff.2 (hshared g (hperm.mem_iff.1 hg) hsees)
  obtain ⟨i, hi⟩ := List.mem_iff_getElem?.1 (hperm.mem_iff.2 hf)
  have hvisible : ∃ g, order[i]? = some g ∧ Sees order f g := ⟨f, hi, .refl⟩
  have hcode := hs.codeOf?_eq hsorted.distinct hi config
  have hcode' := ht.codeOf?_eq hsorted'.distinct (hshares.getElem?_fileIn hvisible hi) config
  refine ⟨_, hcode, hcode'.trans (congrArg some ?_)⟩
  exact CodeFile.ofFile_renumber (hshares.agrees hs ht) hvisible config rfl

/-! ## An example -/

/-- A file with a message of a coordinate. -/
def points : FileDescriptor where
  name := "points.proto"
  package := "geo"
  imports := []
  messages := [⟨"Point", [⟨"x", 1, 1, 18, "", none, none, "x", false⟩], [], [], none, []⟩]
  enums := []
  dialect := "proto3"

/-- A file with a message that holds a point, and itself. -/
def places : FileDescriptor where
  name := "places.proto"
  package := "geo.map"
  imports := ["points.proto"]
  messages := [⟨"Place",
    [⟨"at", 1, 1, 11, "Point", none, none, "at", false⟩,
      ⟨"inside", 2, 1, 11, "Place", none, none, "inside", false⟩], [], [], none, []⟩]
  enums := []
  dialect := "proto3"

/-- A file with another point, which would be nearer to the place. -/
def markers : FileDescriptor where
  name := "markers.proto"
  package := "geo.map"
  imports := []
  messages := [⟨"Point", [], [], [], none, []⟩]
  enums := []
  dialect := "proto3"

theorem code_determined_by_imports_places : ∃ s t, resolve [places, points] = .ok s ∧
    resolve [markers, points, places] = .ok t ∧ ∃ code,
      s.codeOf? Config.standard "places.proto" = some code ∧
        t.codeOf? Config.standard "places.proto" = some code := by
  have horder : importOrder [places, points] = .ok [points, places] := by cbv
  have hsorted : ImportSorted [markers, points, places] :=
    ((ImportSorted.nil.snoc (by decide) (by decide)).snoc (by decide) (by decide)).snoc
      (by decide) (by decide)
  obtain ⟨s, hs⟩ := exists_resolve_of_isOk horder (by decide +kernel)
  obtain ⟨t, ht⟩ := exists_resolve_of_isOk hsorted.importOrder_eq (by decide +kernel)
  have hshared : ∀ g ∈ [places, points], Sees [places, points] places g →
      g ∈ [markers, points, places] := fun g hg _ => by
    rcases List.mem_cons.1 hg with rfl | hg
    · exact .tail _ (.tail _ (.head _))
    · obtain rfl := List.mem_singleton.1 hg
      exact .tail _ (.head _)
  exact ⟨s, t, hs, ht, code_determined_by_imports hs ht List.mem_cons_self hshared Config.standard⟩

end Protowire
