import Mathlib.Data.String.Basic
import Protowire.Generator.Generate
import Protowire.Proofs.Codegen.Independence
import Protowire.Proofs.Naming.Repeated

/-!
# Proofs/Generator/OutputSet — what is generated is what is asked for

One file comes out for each different name that is asked for, in the order in which the names first
come, and the index after them (`IsOutputSet`).  Names of generated files show less than the names
they come from, so that two of these can lead to one (`Collide`), and then nothing is generated.  No
file takes the name of the index: `mod` is a keyword, and keywords are escaped
(`Naming.outputFileName_ne_indexName`).
-/

namespace Protowire

open Schema

namespace Naming

/-- **No schema file takes the name of the index.** -/
theorem outputFileName_ne_indexName (fileName : String) :
    outputFileName fileName ≠ CodeFile.indexName := by
  intro h
  have hmodule : fileModule fileName = "mod" := (String.append_left_inj ".rs").1 h
  have hchars : withStart (moduleIdent (stem fileName)).toList = "mod".toList := by
    rw [← hmodule, fileModule, String.toList_ofList]
  rw [withStart] at hchars
  split at hchars
  · exact absurd (List.cons.inj hchars).1 (by decide)
  · have hident : moduleIdent (stem fileName) = "mod" := String.toList_inj.1 hchars
    simp only [moduleIdent] at hident
    split at hident
    · -- what ends in an underscore is not `mod`
      have hlast := congrArg (fun ident : String => ident.toList.getLast?) hident
      simp at hlast
    · rename_i hplain
      rw [hident] at hplain
      exact hplain (by decide)

end Naming

/-! ## The index -/

namespace CodeFile

/-- The text of an index of modules. -/
def indexText (modules : List String) : String :=
  String.join <| "// This file is @generated by protoc-gen-tagwire. Do not edit.\n" :: "\n" ::
    modules.map fun module => "pub mod " ++ module ++ ";\n"

theorem linesAll_map_line {α : Type} (text : α → String) (l : List α) :
    Code.linesAll 0 (l.map fun a => .line (text a)) = l.map fun a => ⟨0, text a⟩ := by
  induction l with
  | nil => rfl
  | cons a l ih => rw [List.map_cons, Code.linesAll, ih]; rfl

/-- What is not nested is not indented. -/
theorem render_zero (indent text : String) :
    Line.render indent ⟨0, text⟩ = text ++ "\n" := by
  rw [Line.render, List.replicate_zero, String.join_nil, String.empty_append]

/-- The lines of an index, one by one. -/
theorem render_index (indent : String) (modules : List String) :
    Code.render indent ([notice, .blank] ++ modules.map fun module =>
      .line s!"pub mod {module};") = indexText modules := by
  have hnotice : notice = .line "// This file is @generated by protoc-gen-tagwire. Do not edit." :=
    congrArg Code.line (by decide)
  rw [hnotice, Code.render, List.cons_append, List.singleton_append, Code.linesAll, Code.linesAll,
    linesAll_map_line, Code.lines, Code.lines, List.singleton_append, List.singleton_append,
    List.map_cons, List.map_cons, List.map_map, render_zero, render_zero, indexText]
  refine congrArg String.join (congrArg₂ List.cons (by decide) (congrArg₂ List.cons (by decide) ?_))
  refine List.map_congr_left fun module _ => (render_zero indent _).trans ?_
  simp only [toString, String.append_assoc]
  rfl

/-- **The index declares the module of each file once**, in ascending order. -/
theorem exists_index_eq (config : Config) {names : List String}
    (hmodules : (names.map Naming.fileModule).Nodup) :
    ∃ modules : List String, modules.Perm (names.map Naming.fileModule) ∧
      modules.Pairwise (· < ·) ∧ index config names = ⟨indexName, indexText modules⟩ := by
  have hsorted : ((names.map Naming.fileModule).mergeSort fun a b => decide (a ≤ b)).Pairwise
      fun a b => decide (a ≤ b) = true := by
    refine List.pairwise_mergeSort (fun a b c hab hbc => ?_) (fun a b => ?_) _
    · rw [decide_eq_true_iff] at hab hbc ⊢
      exact String.le_trans hab hbc
    · rw [Bool.or_eq_true, decide_eq_true_iff, decide_eq_true_iff]
      exact String.le_total a b
  refine ⟨_, ?_, ?_, congrArg (CodeFile.mk indexName) (render_index config.indent _)⟩
  · refine (List.perm_ext_iff_of_nodup (nodup_eraseDups _) hmodules).2 fun module => ?_
    rw [List.mem_eraseDups, List.mem_mergeSort]
  · refine .imp₂ (fun a b hle hne => ?_) (hsorted.sublist (eraseDups_sublist _)) (nodup_eraseDups _)
    exact lt_of_le_of_ne (of_decide_eq_true hle) hne

end CodeFile

/-! ## What is generated -/

/-- Where every entry has a result, the results of a row belong to its entries one by one. -/
theorem forall₂_filterMap {α β : Type} {f : α → Option β} {R : α → β → Prop} {l : List α}
    (h : ∀ a ∈ l, ∃ b, f a = some b ∧ R a b) :
    List.Forall₂ (fun a b => f a = some b ∧ R a b) l (l.filterMap f) := by
  induction l with
  | nil => exact .nil
  | cons a l ih =>
    obtain ⟨b, hb, hR⟩ := h a (.head _)
    rw [List.filterMap_cons_some hb]
    exact .cons ⟨hb, hR⟩ (ih fun a ha => h a (.tail _ ha))

/-- Two different names, of those asked for, lead to files of one name. -/
def Collide (targets : List String) (output : String) : Prop :=
  ∃ a ∈ targets, ∃ b ∈ targets, a ≠ b ∧
    Naming.outputFileName a = output ∧ Naming.outputFileName b = output

/-- What is generated for names: a file for each different one, in the order in which they first
come, and behind them the index, if it is wanted and there are any. -/
structure IsOutputSet (s : Schema) (config : Config) (targets names : List String)
    (files index : List CodeFile) : Prop where
  mem_names : ∀ name, name ∈ names ↔ name ∈ targets
  in_order : names.Pairwise fun a b => targets.idxOf a < targets.idxOf b
  generated : List.Forall₂ (fun name file => s.codeOf? config name = some file ∧
    file.name = Naming.outputFileName name) names files
  indexed : config.emitIndex = true ∧ targets ≠ [] → ∃ modules : List String,
    modules.Perm (names.map Naming.fileModule) ∧ modules.Pairwise (· < ·) ∧
      index = [⟨CodeFile.indexName, CodeFile.indexText modules⟩]
  unindexed : ¬ (config.emitIndex = true ∧ targets ≠ []) → index = []
  distinct : ((files ++ index).map (·.name)).Nodup

section Generate

variable {files : List FileDescriptor} {s : Schema} {targets : List String}

/-- A file that is supplied is found and generated. -/
theorem exists_codeOf?_eq (h : resolve files = .ok s) {name : String}
    (hname : name ∈ files.map (·.name)) (config : Config) :
    ∃ file, s.codeOf? config name = some file ∧ file.name = Naming.outputFileName name := by
  obtain ⟨order, bound, hperm, hsorted, hbound⟩ := exists_resolvesTo h
  obtain ⟨f, hf, rfl⟩ := List.mem_map.1 hname
  obtain ⟨i, hi⟩ := List.mem_iff_getElem?.1 (hperm.mem_iff.2 hf)
  exact ⟨_, hbound.codeOf?_eq hsorted.distinct hi config, rfl⟩

/-- The names of what is generated: those of the files, and that of the index. -/
theorem map_name_codeFiles (h : resolve files = .ok s)
    (hsupplied : ∀ name ∈ targets, name ∈ files.map (·.name)) (config : Config) :
    (s.codeFiles targets config).map (·.name) = targets.map Naming.outputFileName ++
      if config.emitIndex && !targets.isEmpty then [CodeFile.indexName] else [] := by
  have hfiles := forall₂_filterMap fun name hname =>
    exists_codeOf?_eq h (hsupplied name hname) config
  have hnames : (targets.filterMap (s.codeOf? config)).map (·.name) =
      targets.map Naming.outputFileName := by
    rw [← List.forall₂_eq_eq_eq, List.forall₂_map_left_iff, List.forall₂_map_right_iff]
    exact hfiles.flip.imp fun _ _ hfile => hfile.2
  rw [codeFiles_eq, List.map_append, hnames, apply_ite (List.map _)]
  rfl

/-- Generation goes wrong, if at all, in a name that two files would have. -/
theorem generateFiles_eq (h : resolve files = .ok s)
    (hsupplied : ∀ name ∈ targets, name ∈ files.map (·.name)) (config : Config) :
    generateFiles files targets config =
      (Naming.firstRepeated? [] ((s.codeFiles targets.eraseDups config).map (·.name))).elim
        (.ok (s.codeFiles targets.eraseDups config)) (.error <| .duplicateOutput ·) := by
  have hfind : targets.find? (fun name => (FileDescriptor.named? files name).isNone) = none :=
    List.find?_eq_none.2 fun name hname hnone => by
      rw [Option.isNone_iff_eq_none] at hnone
      have hsome := FileDescriptor.isSome_named?_iff.2 (hsupplied name hname)
      rw [hnone] at hsome
      exact absurd hsome nofun
  rw [generateFiles, hfind, h]
  simp only [Except.mapError, bind, Except.bind]
  cases Naming.firstRepeated? [] ((s.codeFiles targets.eraseDups config).map (·.name)) <;> rfl

/-- **A name that two generated files would have comes from two names asked for.** -/
theorem collide_of_firstRepeated?_eq_some (h : resolve files = .ok s)
    (hsupplied : ∀ name ∈ targets, name ∈ files.map (·.name)) {config : Config} {output : String}
    (hrepeated : Naming.firstRepeated? []
      ((s.codeFiles targets.eraseDups config).map (·.name)) = some output) :
    Collide targets output := by
  have hnew : CodeFile.indexName ∉ targets.eraseDups.map Naming.outputFileName := fun hmem => by
    obtain ⟨name, -, hname⟩ := List.mem_map.1 hmem
    exact Naming.outputFileName_ne_indexName name hname
  have hdup : List.Duplicate output (targets.eraseDups.map Naming.outputFileName) := by
    rw [map_name_codeFiles h fun name hname => hsupplied name (List.mem_eraseDups.1 hname)]
      at hrepeated
    obtain ⟨-, hseen | hdup⟩ := Naming.mem_of_firstRepeated?_eq_some hrepeated
    · exact absurd hseen List.not_mem_nil
    · split at hdup
      · exact duplicate_of_append_singleton hnew hdup
      · rwa [List.append_nil] at hdup
  obtain ⟨a, ha, b, hb, hother, hsame⟩ := exists_of_duplicate_map (nodup_eraseDups targets) hdup
  exact ⟨a, List.mem_eraseDups.1 ha, b, List.mem_eraseDups.1 hb, hother, hsame⟩

/-- Files of different names come from names that do not collide. -/
theorem not_collide_of_nodup (h : resolve files = .ok s)
    (hsupplied : ∀ name ∈ targets, name ∈ files.map (·.name)) {config : Config}
    (hdistinct : ((s.codeFiles targets.eraseDups config).map (·.name)).Nodup) :
    (targets.eraseDups.map Naming.outputFileName).Nodup ∧
      ∀ output, ¬ Collide targets output := by
  rw [map_name_codeFiles h fun name hname => hsupplied name (List.mem_eraseDups.1 hname)]
    at hdistinct
  have hnodup := (List.nodup_append.1 hdistinct).1
  refine ⟨hnodup, fun output ⟨a, ha, b, hb, hother, hsame, hsame'⟩ => hother ?_⟩
  exact List.inj_on_of_nodup_map hnodup (List.mem_eraseDups.2 ha) (List.mem_eraseDups.2 hb)
    (hsame.trans hsame'.symm)

/-- What is generated when no two names collide. -/
theorem isOutputSet_codeFiles (h : resolve files = .ok s)
    (hsupplied : ∀ name ∈ targets, name ∈ files.map (·.name)) {config : Config}
    (hdistinct : ((s.codeFiles targets.eraseDups config).map (·.name)).Nodup) :
    ∃ names generated index, s.codeFiles targets.eraseDups config = generated ++ index ∧
      IsOutputSet s config targets names generated index := by
  have hwanted : (config.emitIndex && !targets.eraseDups.isEmpty) = true ↔
      config.emitIndex = true ∧ targets ≠ [] := by
    rw [Bool.and_eq_true, Bool.not_eq_true', List.isEmpty_eq_false_iff, ne_eq, ne_eq,
      List.eq_nil_iff_forall_not_mem, List.eq_nil_iff_forall_not_mem]
    simp only [List.mem_eraseDups]
  have hmodules : (targets.eraseDups.map Naming.fileModule).Nodup :=
    List.Nodup.of_map (· ++ ".rs") (by
      rw [List.map_map]
      exact (not_collide_of_nodup h hsupplied hdistinct).1)
  refine ⟨targets.eraseDups, _, _, codeFiles_eq s _ config, ?_⟩
  exact {
    mem_names := fun name => List.mem_eraseDups
    in_order := pairwise_idxOf_eraseDups targets
    generated := forall₂_filterMap fun name hname =>
      exists_codeOf?_eq h (hsupplied name (List.mem_eraseDups.1 hname)) config
    indexed := fun hindex => by
      obtain ⟨modules, hperm, hascending, heq⟩ := CodeFile.exists_index_eq config hmodules
      rw [if_pos (hwanted.2 hindex), heq]
      exact ⟨modules, hperm, hascending, rfl⟩
    unindexed := fun hindex => if_neg fun h => hindex (hwanted.1 h)
    distinct := hdistinct }

/-- **What is generated is exactly what is asked for.**  Of files that resolve, those named are
generated, unless two different names lead to files of one name, which is then what is said to be
wrong; and no name leads to that of the index. -/
theorem generates_what_is_asked_for (h : resolve files = .ok s)
    (hsupplied : ∀ name ∈ targets, name ∈ files.map (·.name)) (config : Config) :
    ((∃ e, generateFiles files targets config = .error e) ↔ ∃ output, Collide targets output) ∧
    (∀ e, generateFiles files targets config = .error e →
      ∃ output, Collide targets output ∧ e = .duplicateOutput output) ∧
    ((∀ output, ¬ Collide targets output) → ∃ names generated index,
      generateFiles files targets config = .ok (generated ++ index) ∧
        IsOutputSet s config targets names generated index) ∧
    ∀ name, Naming.outputFileName name ≠ CodeFile.indexName := by
  rw [generateFiles_eq h hsupplied]
  cases hrepeated : Naming.firstRepeated? []
      ((s.codeFiles targets.eraseDups config).map (·.name)) with
  | some output =>
    have hcollide := collide_of_firstRepeated?_eq_some h hsupplied hrepeated
    refine ⟨⟨fun _ => ⟨output, hcollide⟩, fun _ => ⟨_, rfl⟩⟩, fun e he => ?_,
      fun hnone => absurd hcollide (hnone output), Naming.outputFileName_ne_indexName⟩
    exact ⟨output, hcollide, (Except.error.inj he).symm⟩
  | none =>
    have hdistinct := (Naming.firstRepeated?_eq_none_iff.1 hrepeated).1
    have hcollide := (not_collide_of_nodup h hsupplied hdistinct).2
    obtain ⟨names, generated, index, hsplit, hset⟩ := isOutputSet_codeFiles h hsupplied hdistinct
    refine ⟨⟨nofun, fun ⟨output, hsame⟩ => absurd hsame (hcollide output)⟩, nofun,
      fun _ => ⟨names, generated, index, congrArg _ hsplit, hset⟩,
      Naming.outputFileName_ne_indexName⟩

end Generate

/-- Three files without declarations; what is generated for the last two has one name. -/
def lookalikes : List FileDescriptor :=
  ["mod.proto", "a_b.proto", "a/b.proto"].map fun name =>
    { name := name, package := "", imports := [], messages := [], enums := [], dialect := "proto3" }

/-- Asked for both of the last two, nothing is generated; asked for the first two, one of them
twice, both are. -/
theorem generates_what_is_asked_for_lookalikes : ∃ s, resolve lookalikes = .ok s ∧
    (∃ e, generateFiles lookalikes ["a_b.proto", "mod.proto", "a/b.proto"] Config.standard
      = .error e) ∧
    ∃ names generated index,
      generateFiles lookalikes ["mod.proto", "a_b.proto", "mod.proto"] Config.standard
        = .ok (generated ++ index) ∧
      IsOutputSet s Config.standard ["mod.proto", "a_b.proto", "mod.proto"] names generated
        index := by
  have horder : importOrder lookalikes = .ok lookalikes := by cbv
  obtain ⟨s, hs⟩ := exists_resolve_of_isOk horder (by decide +kernel)
  have hdistinct : ∀ a ∈ ["mod.proto", "a_b.proto", "mod.proto"],
      ∀ b ∈ ["mod.proto", "a_b.proto", "mod.proto"],
      Naming.outputFileName a = Naming.outputFileName b → a = b := by decide +kernel
  refine ⟨s, hs, ?_, ?_⟩
  · refine (generates_what_is_asked_for hs (by decide) Config.standard).1.2 ⟨"a_b.rs", ?_⟩
    exact ⟨"a_b.proto", by decide, "a/b.proto", by decide, by decide, by decide +kernel,
      by decide +kernel⟩
  · refine (generates_what_is_asked_for hs (by decide) Config.standard).2.2.1 ?_
    rintro output ⟨a, ha, b, hb, hother, hsame, hsame'⟩
    exact hother (hdistinct a ha b hb (hsame.trans hsame'.symm))

end Protowire
