import Protowire.Files.Output
import Protowire.Proofs.Files.FileTree

/-!
# Proofs/Files/Output — nothing is written outside a directory

The path of a file is that of the directory joined with the name of the file, for the names that
stay below a directory and no others (`outputPath_eq_ok_iff`), and the names of generated files are
among them (`exists_outputPath_outputFileName_eq`).  **An action keeps to a directory** when what it
changes in any file tree does (`FileTree.Keeps`), which passes from the operations on files to what
is made of them, up to the writing of all files (`FileTree.keeps_writeFiles`).
-/

namespace Protowire

/-! ## Paths of files -/

variable {dir : String}

/-- **The path of a file** is its name taken from the directory, for a name that stays below it. -/
theorem outputPath_eq_ok_iff {name path : String} :
    outputPath dir name = .ok path ↔ Path.staysBelow name = true ∧ path = Path.join dir name := by
  rw [outputPath]
  split
  · rename_i hname
    exact ⟨fun h => ⟨hname, (Except.ok.inj h).symm⟩, fun ⟨_, hpath⟩ => hpath ▸ rfl⟩
  · rename_i hname
    exact ⟨nofun, fun h => absurd h.1 hname⟩

/-- **The name of a generated file is taken:** its path is one name below the directory. -/
theorem exists_outputPath_outputFileName_eq (dir fileName : String) :
    ∃ path, outputPath dir (Naming.outputFileName fileName) = .ok path ∧
      Path.components path =
        Path.components dir ++ [.name (Naming.outputFileName fileName).toList] := by
  obtain ⟨hstart, hname⟩ := Path.components_outputFileName fileName
  have hne : Naming.outputFileName fileName ≠ "" := by
    intro hempty
    rw [hempty] at hname
    exact absurd hname (by decide)
  refine ⟨Path.join dir (Naming.outputFileName fileName), outputPath_eq_ok_iff.2 ⟨?_, rfl⟩, ?_⟩
  · rw [Path.staysBelow, hname, bne_iff_ne.2 hne]
    rfl
  · rw [Path.components_join dir hstart, hname]

/-! ## Actions that keep to a directory -/

namespace FileTree

variable {α β : Type}

/-- **What the action changes in a file tree keeps to the directory.** -/
def Keeps (dir : String) (action : StateM FileTree α) : Prop :=
  ∀ t, KeepsTo dir t (action.run t).2

theorem keeps_pure (a : α) : Keeps dir (pure a) :=
  KeepsTo.refl dir

theorem Keeps.bind {action : StateM FileTree α} {next : α → StateM FileTree β}
    (h : Keeps dir action) (hnext : ∀ a, Keeps dir (next a)) : Keeps dir (action >>= next) :=
  fun t => (h t).trans (hnext _ _)

/-- An operation keeps to the directory when it does where it works. -/
theorem keeps_change {operation : FileTree → Except DiskFault FileTree}
    (h : ∀ {t t'}, operation t = .ok t' → KeepsTo dir t t') : Keeps dir (change operation) := by
  intro t
  dsimp only [change, modifyGet, MonadStateOf.modifyGet, StateT.modifyGet, StateT.run]
  split
  · rename_i hchanged
    exact h hchanged
  · exact .refl dir t

theorem keeps_makeDirectory (path : String) : Keeps dir (disk.makeDirectory path) :=
  keeps_change keepsTo_of_makeDirectory

theorem keeps_isDirectory (path : String) : Keeps dir (disk.isDirectory path) :=
  KeepsTo.refl dir

theorem keeps_ensureDirectory (path : String) : Keeps dir (disk.ensureDirectory path) := by
  rw [Disk.ensureDirectory]
  refine (keeps_makeDirectory path).bind fun made => ?_
  cases made with
  | ok => exact keeps_pure _
  | error fault => exact (keeps_isDirectory path).bind fun _ => keeps_pure _

/-- Directories that are made keep to every directory. -/
theorem keeps_ensureDirectories (paths : List String) :
    Keeps dir (disk.ensureDirectories paths) := by
  induction paths with
  | nil => exact keeps_pure _
  | cons path around ih =>
    rw [Disk.ensureDirectories]
    split
    · exact keeps_pure _
    · refine (keeps_ensureDirectory path).bind fun made => ?_
      split
      · refine ih.bind fun around => ?_
        cases around with
        | ok => exact keeps_ensureDirectory path
        | error fault => exact keeps_pure _
      · exact keeps_pure _

/-- **A file that is written to a path below a directory keeps to it,** and so do the directories
that are made for the file. -/
theorem keeps_writeFile {name : String} (hname : Path.staysBelow name = true) (overwrite : Bool)
    (content : String) : Keeps dir (disk.writeFile overwrite (Path.join dir name) content) := by
  have hwrite : Keeps dir (do
      let write := if overwrite then disk.replace else disk.create
      return (← write (Path.join dir name) (Bytes.ofString content)).mapError
        (OutputError.noFile (Path.join dir name))) := by
    refine Keeps.bind ?_ fun _ => keeps_pure _
    split
    · exact keeps_change (keepsTo_of_replace hname)
    · exact keeps_change (keepsTo_of_create hname)
  rw [Disk.writeFile]
  split
  · exact hwrite
  · refine (keeps_ensureDirectories _).bind fun made => ?_
    cases made with
    | ok => exact hwrite
    | error fault => exact keeps_pure _

/-- **Writing files below a directory keeps to it,** whatever the files are called. -/
theorem keeps_writeFiles (dir : String) (overwrite : Bool) (files : List CodeFile) :
    Keeps dir (disk.writeFiles dir overwrite files) := by
  induction files with
  | nil => exact keeps_pure _
  | cons file files ih =>
    rw [Disk.writeFiles]
    split
    · exact keeps_pure _
    · rename_i path hpath
      obtain ⟨hname, rfl⟩ := outputPath_eq_ok_iff.1 hpath
      refine (keeps_writeFile hname overwrite file.content).bind fun written => ?_
      cases written with
      | error e => exact keeps_pure _
      | ok => exact ih.bind fun _ => keeps_pure _

end FileTree

/-! ## The output directory -/

/-- **Nothing is written outside the output directory.**  A name is taken exactly when it is not
empty, does not start with a slash and has no segment of two dots, and then as the directory joined
with it.  The name of a generated file is of small letters, digits and underscores with `.rs` at its
end, and leads to one name below the directory.  Whatever files are written, what changes in the
file tree keeps to the directory. -/
theorem output_stays_inside (dir : String) :
    (∀ name path, outputPath dir name = .ok path ↔
      (name ≠ "" ∧ name.toList.head? ≠ some '/' ∧ ['.', '.'] ∉ name.toList.splitOn '/') ∧
        path = Path.join dir name) ∧
    (∀ fileName,
      (∃ stem, Naming.outputFileName fileName = stem ++ ".rs" ∧ stem ≠ "" ∧
        ∀ c ∈ stem.toList, Naming.SmallChar c) ∧
      ∃ path, outputPath dir (Naming.outputFileName fileName) = .ok path ∧
        Path.components path =
          Path.components dir ++ [.name (Naming.outputFileName fileName).toList]) ∧
    ∀ overwrite files t,
      FileTree.KeepsTo dir t ((FileTree.disk.writeFiles dir overwrite files).run t).2 := by
  refine ⟨fun name path => ?_, fun fileName => ⟨Path.exists_outputFileName_eq fileName,
    exists_outputPath_outputFileName_eq dir fileName⟩, FileTree.keeps_writeFiles dir⟩
  rw [outputPath_eq_ok_iff, Path.staysBelow_iff]

end Protowire
