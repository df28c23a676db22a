import Protowire.Proofs.Codegen.NeatCode

/-!
# Proofs/Codegen/WellNested — generated text is well nested

The writer of a file goes down and up through braces, argument lists and modules, and **comes back
to where it began**; the text it leaves behind closes the brackets it opens, and every line of it is
indented by what is open around it (`written_well_nested`).  That takes plain names, and a
configuration that keeps lines whole: the path to the runtime and what a level is indented by are
put into the text as they are, so each of them can break it (`not_written_well_nested`).
-/

namespace Protowire

open Schema Text

/-- **What is written for a file is well nested.** -/
structure WellNested (s : Schema) (config : Config) (id : FileId) (file : Schema.File) : Prop where
  /-- The writer is never moved back too far, and ends at the left margin and outside modules. -/
  written : ∃ w, Write.file ⟨s, config, id, []⟩ file (.start config.indent) = some ((), w) ∧
    w.level = 0 ∧ w.scope = [] ∧ w.text = (CodeFile.ofFile s config id file).content
  /-- The brackets close one another. -/
  balanced : opened [] (CodeFile.ofFile s config id file).content.toList = some []
  /-- Each line stands as far in as brackets are open around it. -/
  indented : Indented config.indent (CodeFile.ofFile s config id file).content.toList

/-! ## A file to look at -/

/-- A file with a message that has a field, and with an enum. -/
def gauge : FileDescriptor where
  name := "gauge.proto"
  package := ""
  imports := []
  messages := [⟨"Gauge", [⟨"level", 1, 1, 5, "", none, none, "level", false⟩], [], [], none, []⟩]
  enums := [⟨"Unit", [⟨"UNIT_NONE", 0⟩]⟩]
  dialect := "proto3"

/-- The message of `gauge`. -/
def gaugeMessage : Schema.Message where
  name := "Gauge"
  fullName := "Gauge"
  file := 0
  parent := none
  fields := [⟨"level", 1, .scalar .int32, false, false, none, none⟩]
  oneofs := []
  contents := ⟨[], []⟩
  isMapEntry := false

/-- The enum of `gauge`. -/
def gaugeEnum : Schema.Enum := ⟨"Unit", "Unit", 0, none, [⟨"UNIT_NONE", 0⟩]⟩

/-- The schema of `gauge`, and its file. -/
structure IsGauge (s : Schema) (file : Schema.File) : Prop where
  files : s.files = [file]
  name : file.source.name = "gauge.proto"
  contents : file.contents = ⟨[0], [0]⟩
  messages : s.messages = [gaugeMessage]
  enums : s.enums = [gaugeEnum]

namespace IsGauge

theorem exists_resolve : ∃ s file, resolve [gauge] = .ok s ∧ IsGauge s file := by
  have horder : importOrder [gauge] = .ok [gauge] := by cbv
  obtain ⟨s, hresolve, hlook⟩ := exists_resolve_of_map_eq_ok
    (g := fun s => (s.files.map fun f => (f.source.name, f.contents), s.messages, s.enums))
    (a := ([("gauge.proto", ⟨[0], [0]⟩)], [gaugeMessage], [gaugeEnum])) horder (by decide +kernel)
  obtain ⟨hfiles, hlook⟩ := Prod.mk.inj hlook
  obtain ⟨hmessages, henums⟩ := Prod.mk.inj hlook
  obtain ⟨file, hfile, hsaid⟩ := List.map_eq_singleton_iff.1 hfiles
  obtain ⟨hname, hcontents⟩ := Prod.mk.inj hsaid
  exact ⟨s, file, hresolve, hfile, hname, hcontents, hmessages, henums⟩

variable {s : Schema} {file : Schema.File}

theorem getElem?_files (h : IsGauge s file) : s.files[0]? = some file := by
  rw [h.files]
  rfl

theorem mem_files (h : IsGauge s file) : file ∈ s.files :=
  List.mem_of_getElem? h.getElem?_files

/-- Its names are simple. -/
theorem simpleNames (h : IsGauge s file) : s.SimpleNames where
  files := by
    rw [h.files, List.forall_mem_singleton, h.name]
    decide
  fields := by
    rw [h.messages, List.forall_mem_singleton]
    decide
  values := by
    rw [h.enums, List.forall_mem_singleton]
    decide

end IsGauge

theorem Config.keepsLines_standard : Config.standard.KeepsLines where
  runtimePath := by decide
  runtimeHead c hc := by
    obtain rfl : ':' = c := Option.some.inj hc
    decide
  indent := by decide

/-! ## The theorem -/

/-- **Generated text is well nested**: whatever is in the schema, the writer keeps its place, the
brackets close and each line stands as far in as it is nested. -/
theorem written_well_nested {s : Schema} (hnames : s.SimpleNames) {config : Config}
    (hconfig : config.KeepsLines) {id : FileId} {file : Schema.File}
    (hfile : s.files[id]? = some file) : WellNested s config id file := by
  have hlaid : Laid [] (Code.linesAll 0 (CodeFile.fileCode s config id file)) [] :=
    CodeFile.neat_fileCode hnames hconfig id (List.mem_of_getElem? hfile) []
  obtain ⟨separates, hwritten⟩ := Write.exists_file_eq s config id file
  exact
    { written := ⟨_, hwritten, rfl, rfl, rfl⟩
      balanced := hlaid.opened_renderAll hconfig.indent
      indented := hlaid.indented hconfig.indent }

theorem written_well_nested_gauge : ∃ s file, resolve [gauge] = .ok s ∧ s.SimpleNames ∧
    Config.standard.KeepsLines ∧ s.files[0]? = some file ∧
    WellNested s Config.standard 0 file := by
  obtain ⟨s, file, hresolve, h⟩ := IsGauge.exists_resolve
  exact ⟨s, file, hresolve, h.simpleNames, Config.keepsLines_standard, h.getElem?_files,
    written_well_nested h.simpleNames Config.keepsLines_standard h.getElem?_files⟩

/-! ## What breaks it -/

section Gauge

variable {s : Schema} (config : Config) {file : Schema.File}

/-- The code of `gauge`: the header, the struct of its message, the methods and what comes after. -/
theorem IsGauge.exists_fileCode (h : IsGauge s file) : ∃ rest,
    CodeFile.fileCode s config 0 file = CodeFile.header config file ++
      (Site.structItem ⟨s, config, 0, []⟩ 0 gaugeMessage ++ ([.blank] ++
      Site.methodsItem ⟨s, config, 0, []⟩ 0 gaugeMessage ++ rest)) := by
  let site : Site := ⟨s, config, 0, []⟩
  have hm : s.messages[0]? = some gaugeMessage := by
    rw [h.messages]
    rfl
  have htop : s.contents (.file 0) = ⟨[0], [0]⟩ := by
    rw [Schema.contents, h.getElem?_files, Option.elim_some, h.contents]
  have hmessage : site.messageItems 0 = [site.structItem 0 gaugeMessage] ++
      (site.accessorItem? gaugeMessage).toList ++ [site.methodsItem 0 gaugeMessage] ++ _ :=
    Site.messageItems_eq hm rfl
  have hitems : CodeFile.fileItems site = site.messageItems 0 ++ [] ++ site.enumItems [0] := by
    rw [CodeFile.fileItems, topMessages, topEnums, htop]
    rfl
  rw [CodeFile.fileCode, hitems, hmessage, ← Code.spaced_false]
  exact ⟨_, rfl⟩

/-- Lines at the left margin are the same text whatever a level is indented by. -/
theorem renderAll_eq_of_depth_eq_zero {lines : List Line} (h : ∀ l ∈ lines, l.depth = 0)
    (margin margin' : String) : Line.renderAll margin lines = Line.renderAll margin' lines :=
  congrArg String.join <| List.map_congr_left fun l hl => by
    rw [Line.render, Line.render, h l hl, List.replicate_zero, List.replicate_zero]

theorem depth_eq_zero_of_mem_header (file : Schema.File) :
    ∀ l ∈ Code.linesAll 0 (CodeFile.header config file), l.depth = 0 := by
  rw [CodeFile.header]
  split <;> simp [CodeFile.notice, Code.linesAll, Code.lines]

/-- Behind the line that opens the struct of `gauge` comes its field, one level in. -/
theorem IsGauge.exists_content_field (h : IsGauge s file) : ∃ front rest,
    (CodeFile.ofFile s config 0 file).content.toList =
      front ++ (Line.renderAll config.indent ([⟨1, "pub level: i32,"⟩] ++ rest)).toList ∧
    opened [] front = some ['\x7b'] := by
  obtain ⟨rest, hcode⟩ := h.exists_fileCode config
  let derived : Line := ⟨0, "#[derive(Clone, PartialEq, Debug, Default)]"⟩
  let opening : Line := ⟨0, "pub struct " ++ Naming.typeIdent "Gauge" ++ " \x7b"⟩
  let front := Code.linesAll 0 (CodeFile.header config file) ++ ([derived] ++ [opening])
  have hlaid : Laid [] front ['\x7b'] := by
    have hderived : Laid [] [derived] [] :=
      Code.neat_line (.ofList _ _ rfl (by decide)) []
    have hopening : Laid [] [opening] ['\x7b'] :=
      Code.laid_opening (((Begins.ofList _ _ rfl).append
        (Naming.word_typeIdent "Gauge").hasMarks).whole (by decide)) (by decide) (by decide) []
    exact (CodeFile.neat_header h.simpleNames config h.mem_files []).append
      (hderived.append hopening)
  have hdepth : ∀ l ∈ front, l.depth = 0 :=
    List.forall_mem_append.2 ⟨depth_eq_zero_of_mem_header config file, by simp [derived, opening]⟩
  have hfield : "pub " ++ Naming.fieldIdent "level" ++ ": " ++ "i32" ++ "," =
      "pub level: i32," := by
    decide +kernel
  obtain ⟨rest', hstruct⟩ : ∃ rest', Code.linesAll 0
      (Site.structItem ⟨s, config, 0, []⟩ 0 gaugeMessage) =
        [derived] ++ [opening] ++ ([⟨1, "pub level: i32,"⟩] ++ rest') := by
    rw [← hfield]
    exact ⟨_, rfl⟩
  have hlines : ∃ rest, Code.linesAll 0 (CodeFile.fileCode s config 0 file) =
      front ++ ([⟨1, "pub level: i32,"⟩] ++ rest) := by
    rw [hcode, Code.linesAll_append, Code.linesAll_append, hstruct]
    simp only [front, List.append_assoc]
    exact ⟨_, rfl⟩
  obtain ⟨rest, hlines⟩ := hlines
  refine ⟨_, rest, ?_, hlaid.opened_renderAll (by decide : Closed "")⟩
  rw [CodeFile.ofFile, Code.render, hlines, renderAll_eq_of_depth_eq_zero hdepth "" config.indent,
    ← String.toList_append, ← Line.renderAll_append, Line.renderAll]

/-- The lines of the methods of `gauge`, down to the first call. -/
def callLines (runtimePath : String) : List Line :=
  [⟨0, "impl " ++ (runtimePath ++ "::" ++ "Message") ++ " for " ++ "Gauge" ++ " \x7b"⟩,
    ⟨1, "fn encode_raw<B: " ++ (runtimePath ++ "::" ++ "bytes::BufMut") ++
      ">(&self, " ++ "buf: &mut B)" ++ " \x7b"⟩,
    ⟨2, "if self.level != 0 \x7b"⟩,
    ⟨3, "" ++ (runtimePath ++ "::" ++ ("encoding::" ++ "int32")) ++ "::" ++ "encode" ++
      "" ++ "(" ++ "1, &self.level, buf" ++ ");"⟩]

theorem exists_linesAll_methods (s : Schema) : ∃ rest,
    Code.linesAll 0 (Site.methodsItem ⟨s, config, 0, []⟩ 0 gaugeMessage) =
      callLines config.runtimePath ++ rest := by
  have hplans : Site.plans ⟨s, config, 0, []⟩ 0 gaugeMessage =
      [Site.plan ⟨s, config, 0, []⟩ 0 gaugeMessage
        ⟨"level", 1, .scalar .int32, false, false, none, none⟩] := by
    rw [Site.plans, Message.byNumber, gaugeMessage, List.mergeSort_singleton]
    rfl
  rw [Site.methodsItem, hplans]
  exact ⟨_, rfl⟩

/-- In front of the methods of `gauge` no bracket is open. -/
theorem IsGauge.exists_content_methods (h : IsGauge s file) (hindent : Closed config.indent) :
    ∃ front rest,
    (CodeFile.ofFile s config 0 file).content.toList =
      front ++ (Line.renderAll config.indent (callLines config.runtimePath ++ rest)).toList ∧
    opened [] front = some [] := by
  obtain ⟨rest, hcode⟩ := h.exists_fileCode config
  obtain ⟨rest', hmethods⟩ := exists_linesAll_methods config s
  have hfront : Laid [] (Code.linesAll 0 (CodeFile.header config file ++
      (Site.structItem ⟨s, config, 0, []⟩ 0 gaugeMessage ++ [.blank]))) [] :=
    (CodeFile.neat_header h.simpleNames config h.mem_files).append
      ((Site.neat_structItem gaugeMessage 0).append Code.neat_blank) []
  refine ⟨_, rest' ++ Code.linesAll 0 rest, ?_, hfront.opened_renderAll hindent⟩
  rw [CodeFile.ofFile, Code.render, hcode, ← String.toList_append, ← Line.renderAll_append,
    Line.renderAll]
  simp only [Code.linesAll_append, List.append_assoc, hmethods]

/-- A path with a line break in it leaves a line at the left margin that is inside braces. -/
theorem not_indented_of_broken_path {front : List Char} (hfront : opened [] front = some [])
    (rest : List Line) : ¬ Indented "    "
      (front ++ (Line.renderAll "    " (callLines "crate\n::rt" ++ rest)).toList) := by
  let before := "impl crate\n::rt::Message for Gauge \x7b\n    fn encode_raw<B: crate".toList
  let line := "::rt::bytes::BufMut>(&self, buf: &mut B) \x7b".toList
  have hlines : (Line.renderAll "    " (callLines "crate\n::rt")).toList =
      before ++ '\n' :: (line ++ '\n' ::
        "        if self.level != 0 \x7b\n            crate\n".toList ++
        "::rt::encoding::int32::encode(1, &self.level, buf);\n".toList) := by
    simp only [callLines, Line.toList_renderAll_cons, Line.chars, String.toList_append, before,
      line]
    repeat rw [String.toList_ofList]
    rfl
  have hopened : opened [] before = some ['\x7b'] := by
    simp only [before]
    rw [String.toList_ofList]
    decide
  have honeLine : '\n' ∉ line := by
    simp only [line]
    rw [String.toList_ofList]
    decide
  have hfits : ¬ Fits "    " ['\x7b'] line := by
    simp only [line]
    rw [String.toList_ofList]
    decide
  exact not_indented_of_not_fits hfront hlines hopened honeLine (by decide) hfits

/-- A path with a blank in front moves the line that starts with it. -/
theorem not_indented_of_blank_path {front : List Char} (hfront : opened [] front = some [])
    (rest : List Line) : ¬ Indented "    "
      (front ++ (Line.renderAll "    " (callLines " rt" ++ rest)).toList) := by
  let before := "impl  rt::Message for Gauge \x7b\n".toList ++
    "    fn encode_raw<B:  rt::bytes::BufMut>(&self, buf: &mut B) \x7b\n".toList ++
    "        if self.level != 0 \x7b".toList
  let line := "             rt::encoding::int32::encode(1, &self.level, buf);".toList
  have hlines : (Line.renderAll "    " (callLines " rt")).toList =
      before ++ '\n' :: (line ++ '\n' :: []) := by
    simp only [callLines, Line.toList_renderAll_cons, Line.chars, String.toList_append, before,
      line]
    repeat rw [String.toList_ofList]
    rfl
  have hopened : opened [] before = some ['\x7b', '\x7b', '\x7b'] := by
    simp only [before]
    repeat rw [String.toList_ofList]
    decide
  have honeLine : '\n' ∉ line := by
    simp only [line]
    rw [String.toList_ofList]
    decide
  have hfits : ¬ Fits "    " ['\x7b', '\x7b', '\x7b'] line := by
    simp only [line]
    rw [String.toList_ofList]
    decide
  exact not_indented_of_not_fits hfront hlines hopened honeLine (by decide) hfits

/-- A bracket to indent by closes what it did not open. -/
theorem opened_eq_none_of_bracket {front : List Char} (hfront : opened [] front = some ['\x7b'])
    (rest : List Line) : opened []
      (front ++ (Line.renderAll ")" ([⟨1, "pub level: i32,"⟩] ++ rest)).toList) = none := by
  rw [Text.opened_append, hfront, List.singleton_append, Line.toList_renderAll_cons]
  rfl

/-- A line break to indent by leaves the line at the left margin. -/
theorem not_indented_of_break {front : List Char} (hfront : opened [] front = some ['\x7b'])
    (rest : List Line) : ¬ Indented "\n"
      (front ++ (Line.renderAll "\n" ([⟨1, "pub level: i32,"⟩] ++ rest)).toList) := by
  have hlines : (Line.renderAll "\n" [⟨1, "pub level: i32,"⟩]).toList =
      [] ++ '\n' :: ("pub level: i32,".toList ++ '\n' :: []) := by decide +kernel
  exact not_indented_of_not_fits hfront hlines rfl (by decide) (by decide) (by decide)

end Gauge

/-- Brackets are not all that breaks a file when the path to the runtime has it, and what a level is
indented by can break it, too. -/
theorem not_written_well_nested : ∃ s file, resolve [gauge] = .ok s ∧ s.SimpleNames ∧
    s.files[0]? = some file ∧
    (∀ path ∈ ["crate\n::rt", " rt"], path.toList.any Text.isBracket = false ∧
      ¬ WellNested s { Config.standard with runtimePath := path } 0 file) ∧
    Config.standard.runtimePath.toList.any Text.isBracket = false ∧
    ∀ indent ∈ [")", "\n"], ¬ WellNested s { Config.standard with indent := indent } 0 file := by
  obtain ⟨s, file, hresolve, h⟩ := IsGauge.exists_resolve
  have hbrackets : ∀ path ∈ ["crate\n::rt", " rt"],
      path.toList.any Text.isBracket = false := by decide
  refine ⟨s, file, hresolve, h.simpleNames, h.getElem?_files,
    fun path hpath => ⟨hbrackets path hpath, fun hnested => ?_⟩, by decide,
    fun indent hindent hnested => ?_⟩
  · obtain ⟨front, rest, hcontent, hfront⟩ := h.exists_content_methods
      { Config.standard with runtimePath := path } Config.keepsLines_standard.indent
    have hindented := hnested.indented
    rw [hcontent] at hindented
    rcases List.mem_pair.1 hpath with rfl | rfl
    · exact not_indented_of_broken_path hfront rest hindented
    · exact not_indented_of_blank_path hfront rest hindented
  · obtain ⟨front, rest, hcontent, hfront⟩ := h.exists_content_field
      { Config.standard with indent := indent }
    rcases List.mem_pair.1 hindent with rfl | rfl
    · have hbalanced := hnested.balanced
      rw [hcontent, opened_eq_none_of_bracket hfront] at hbalanced
      cases hbalanced
    · have hindented := hnested.indented
      rw [hcontent] at hindented
      exact not_indented_of_break hfront rest hindented

end Protowire
