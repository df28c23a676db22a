import Protowire.Proofs.Schema.Binding

/-!
# Proofs/Schema/Faults — which step refuses files for what, and that imports are refused truly

Files are put in order, what they declare is checked, fields are bound and maps are attached: four
phases, and each reports faults of its own (`Phase.reports`), but for a name that comes twice, which
may be that of files or of what they declare.  So a fault of the imports comes from the walk along
them, and what the walk keeps (`followed_importOrder`) makes it true (`import_faults_truthful`).
-/

namespace Protowire

namespace Schema

/-- The phases that may refuse a set of files. -/
inductive Phase where
  | order
  | declare
  | bind
  | attach
  deriving DecidableEq, Repr

/-- The faults a phase reports. -/
def Phase.reports : Phase → SchemaError → Bool
  | order, .duplicateName .. | order, .missingImport .. | order, .importCycle .. => true
  | declare, .duplicateName .. | declare, .emptyEnum .. | declare, .unsupportedDialect .. => true
  | bind, .invalidNumber .. | bind, .unsupportedLabel .. | bind, .unresolvedType ..
  | bind, .unsupportedType .. | bind, .notPackable .. | bind, .duplicateNumber ..
  | bind, .missingOneof .. => true
  | attach, .badMapEntry .. => true
  | _, _ => false

/-! ## Steps of a phase -/

/-- What the step is refused for is a fault of the phase. -/
def Reports {α : Type} (phase : Phase) (x : Except SchemaError α) : Prop :=
  ∀ fault, x = .error fault → phase.reports fault = true

namespace Reports

variable {α β : Type} {phase : Phase} {x : Except SchemaError α}

theorem ok (a : α) : Reports phase (.ok a : Except SchemaError α) := nofun

theorem error {fault : SchemaError} (h : phase.reports fault = true) :
    Reports phase (.error fault : Except SchemaError α) := by
  rintro _ ⟨⟩
  exact h

theorem bind {f : α → Except SchemaError β} (hx : Reports phase x)
    (hf : ∀ a, Reports phase (f a)) : Reports phase (x >>= f) := fun fault h => by
  rcases bind_eq_error_iff.1 h with h | ⟨a, -, h⟩
  · exact hx fault h
  · exact hf a fault h

/-- A step behind a check. -/
theorem refuse {c : Prop} [Decidable c] {fault : SchemaError} (h : phase.reports fault = true)
    (hx : Reports phase x) :
    Reports phase (if c then (throw fault : Except SchemaError PUnit) >>= fun _ => x else x) :=
  fun fault' h' => by
    rcases refuse_eq_error_iff.1 h' with ⟨-, rfl⟩ | ⟨-, h'⟩
    · exact h
    · exact hx fault' h'

/-- A step for each member. -/
theorem mapM {f : α → Except SchemaError β} {l : List α} (h : ∀ a, Reports phase (f a)) :
    Reports phase (l.mapM f) := fun fault hfault => by
  obtain ⟨a, -, ha⟩ := exists_of_mapM_eq_error hfault
  exact h a fault ha

/-- What is there, or else a fault. -/
theorem elim {o : Option α} {fault : SchemaError} (h : phase.reports fault = true)
    {f : α → Except SchemaError β} (hf : ∀ a, Reports phase (f a)) :
    Reports phase (o.elim (.error fault) f) := by
  cases o with
  | none => exact .error h
  | some a => exact hf a

end Reports

/-! ## Declarations -/

theorem fault?_phases {d : Declaration} {fault : SchemaError} (h : d.fault? = some fault) :
    Phase.declare.reports fault = true := by
  cases d with
  | file f =>
    rw [Declaration.fault?] at h
    split at h <;> cases h
    rfl
  | message d => cases h
  | enumeration d =>
    rw [Declaration.fault?] at h
    split at h <;> cases h
    rfl

theorem checkFrom_reports (seen : List String) (ds : List Declaration) :
    Reports .declare (checkFrom seen ds) := by
  induction ds generalizing seen with
  | nil => exact .ok ()
  | cons d ds ih =>
    rw [checkFrom]
    split
    · rename_i hfault
      exact .error (fault?_phases hfault)
    · exact ih seen
    · split
      · exact .error rfl
      · exact ih _

/-! ## Fields -/

section Fields

variable (t : Symbols) (file : FileId) (field scope : String) (f : FieldDescriptor)

theorem bindNumber_reports (number : Int32) : Reports .bind (bindNumber field number) := by
  rw [bindNumber]
  split
  · exact .ok _
  · exact .error rfl

theorem bindLabel_reports (label : Int32) : Reports .bind (bindLabel field label) := by
  rw [bindLabel]
  split
  · exact .ok _
  · split
    · exact .ok _
    · exact .ok _
    · exact .error rfl

theorem bindType_reports : Reports .bind (bindType t file scope f) := by
  have hunresolved : Reports .bind
      (.error (.unresolvedType (qualify scope f.name) f.typeName) : Except SchemaError FieldType) :=
    .error rfl
  have hunsupported : Reports .bind
      (.error (.unsupportedType (qualify scope f.name) f.typeCode) : Except SchemaError FieldType) :=
    .error rfl
  rw [bindType]
  split
  · split
    · exact .ok _
    · exact hunresolved
  · split
    · exact .ok _
    · exact hunresolved
  · exact .elim rfl fun s => .ok (FieldType.scalar s)
  · split
    · split
      · exact .ok _
      · exact .ok _
      · exact hunresolved
    · exact hunsupported

theorem bindField_reports : Reports .bind (bindField t file scope f) :=
  (bindNumber_reports _ f.number).bind fun _ => (bindLabel_reports _ f.label).bind fun _ =>
    (bindType_reports t file scope f).bind fun _ => .refuse rfl (.ok _)

theorem bindOneof_reports (m : MessageDescriptor) : Reports .bind (bindOneof m scope f) := by
  rw [bindOneof]
  split
  · exact .elim rfl fun slot => .ok (some slot)
  · exact .ok none

end Fields

variable (t : Symbols) (d : Declared MessageDescriptor)

theorem bindFields_reports (seen : List Nat) (fds : List FieldDescriptor) :
    Reports .bind (bindFields t d seen fds) := by
  induction fds generalizing seen with
  | nil => exact .ok []
  | cons fd fds ih =>
    exact (bindField_reports t d.file d.fullName fd).bind fun _ => .refuse rfl
      ((bindOneof_reports d.fullName fd d.body).bind fun _ => (ih _).bind fun _ => .ok _)

theorem bindMessage_reports (contents : Contents) : Reports .bind (bindMessage t d contents) :=
  (bindFields_reports t d [] d.body.fields).bind fun _ => .ok _

/-! ## Maps -/

theorem attachMap_reports (messages : List Message) (owner : String) (f : Field) :
    Reports .attach (attachMap messages owner f) := by
  rw [attachMap]
  split
  · split
    · split
      · exact .ok f
      · split
        · exact .error rfl
        · rename_i target _ _ entry _ _ _
          cases entry.mapEntry target with
          | error fault => exact .error rfl
          | ok map => exact .ok _
    · exact .ok f
  · exact .ok f

theorem attachMaps_reports (messages : List Message) (m : Message) :
    Reports .attach (attachMaps messages m) :=
  (Reports.mapM fun f => attachMap_reports messages m.fullName f).bind fun _ => .ok _

/-! ## Imports -/

variable {files : List FileDescriptor}

/-- Files that cannot be put in order have a fault of their imports, or two of them one name. -/
theorem importOrder_eq_error {fault : SchemaError} (h : importOrder files = .error fault) :
    ImportFault files fault ∨ ∃ name, fault = .duplicateName name := by
  by_cases hdistinct : (files.map (·.name)).Nodup
  · have hfollowed := (followed_importOrder hdistinct).2
    rw [h] at hfollowed
    exact .inl hfollowed
  · rw [importOrder] at h
    split at h
    · rename_i name _
      exact .inr ⟨name, (Except.error.inj h).symm⟩
    · rename_i hnone
      exact absurd (Naming.firstRepeated?_eq_none_iff.1 hnone).1 hdistinct

theorem importOrder_reports (files : List FileDescriptor) : Reports .order (importOrder files) :=
  fun fault h => by
    rcases importOrder_eq_error h with hfault | ⟨name, rfl⟩
    · cases hfault <;> rfl
    · rfl

/-- Behind the order, files are refused for a fault of another phase. -/
theorem exists_phase_of_resolveOrdered {fault : SchemaError}
    (h : resolveOrdered files = .error fault) :
    ∃ phase : Phase, phase.reports fault = true ∧ phase ≠ .order := by
  rcases bind_eq_error_iff.1 h with h | ⟨_, -, h⟩
  · exact ⟨.declare, checkFrom_reports [] _ fault h, nofun⟩
  rcases bind_eq_error_iff.1 h with h | ⟨bound, -, h⟩
  · have hreports : ∀ d : Declared MessageDescriptor × Contents,
        Reports .bind (bindMessage (Symbols.ofFiles files) d.1 d.2) :=
      fun d => bindMessage_reports _ d.1 d.2
    exact ⟨.bind, Reports.mapM hreports fault h, nofun⟩
  rcases bind_eq_error_iff.1 h with h | ⟨messages, -, h⟩
  · exact ⟨.attach, Reports.mapM (attachMaps_reports bound) fault h, nofun⟩
  · cases h

/-- **A fault that only the order reports is true of the imports.** -/
theorem importFault_of_resolve {fault : SchemaError} (h : resolve files = .error fault)
    (honly : ∀ phase : Phase, phase.reports fault = decide (phase = .order)) :
    ImportFault files fault := by
  have horder : importOrder files = .error fault := by
    rcases bind_eq_error_iff.1 h with h | ⟨order, -, h⟩
    · exact h
    · obtain ⟨phase, hphase, hne⟩ := exists_phase_of_resolveOrdered h
      rw [honly] at hphase
      exact absurd (of_decide_eq_true hphase) hne
  rcases importOrder_eq_error horder with hfault | ⟨name, rfl⟩
  · exact hfault
  · -- A name that comes twice is a fault of declarations, too.
    exact absurd (honly .declare) nofun

/-- A cycle of imports begins and ends with one name, and has no other name twice. -/
theorem ImportCycle.ends {cycle : List String} (h : ImportCycle files cycle) :
    2 ≤ cycle.length ∧ cycle.head? = cycle.getLast? ∧ cycle.dropLast.Nodup := by
  obtain ⟨name, rest, rfl, hnodup⟩ := h.closed
  refine ⟨by simp, ?_, ?_⟩
  · rw [List.getLast?_concat]
    rfl
  · rwa [List.dropLast_concat]

/-- **Files are refused for imports that they have.**  A cycle that is reported has at least two
names, begins and ends with the same one and has no other name twice, and each of its names but the
last is that of a file that imports the next.  An import that is reported as missing is that of a
file of the reported name, and no file has the name that is missing. -/
theorem import_faults_truthful (files : List FileDescriptor) :
    (∀ cycle, resolve files = .error (.importCycle cycle) →
      2 ≤ cycle.length ∧ cycle.head? = cycle.getLast? ∧ cycle.dropLast.Nodup ∧
        cycle.IsChain fun name dependency =>
          ∃ f ∈ files, f.name = name ∧ dependency ∈ f.imports) ∧
    ∀ file dependency, resolve files = .error (.missingImport file dependency) →
      (∃ f ∈ files, f.name = file ∧ dependency ∈ f.imports) ∧
        ∀ f ∈ files, f.name ≠ dependency := by
  refine ⟨fun cycle h => ?_, fun file dependency h => ?_⟩
  · cases importFault_of_resolve h (fun phase => by cases phase <;> rfl) with
    | cycle hcycle =>
      obtain ⟨hlength, hends, hnodup⟩ := hcycle.ends
      exact ⟨hlength, hends, hnodup, hcycle.chain⟩
  · cases importFault_of_resolve h (fun phase => by cases phase <;> rfl) with
    | missing himports habsent =>
      exact ⟨himports, fun f hf hname => habsent (List.mem_map.2 ⟨f, hf, hname⟩)⟩

/-- Three files of which the last two import each other, and two of which one is missing. -/
theorem import_faults_truthful_ring_and_gap :
    (resolve [⟨"a", "", ["b"], [], [], "proto3"⟩, ⟨"b", "", ["c"], [], [], "proto3"⟩,
        ⟨"c", "", ["b"], [], [], "proto3"⟩] = .error (.importCycle ["b", "c", "b"]) ∧
      ["b", "c", "b"].IsChain fun name dependency => ∃ f ∈ ([⟨"a", "", ["b"], [], [], "proto3"⟩,
        ⟨"b", "", ["c"], [], [], "proto3"⟩, ⟨"c", "", ["b"], [], [], "proto3"⟩] :
          List FileDescriptor), f.name = name ∧ dependency ∈ f.imports) ∧
    resolve [⟨"a", "", ["b"], [], [], "proto3"⟩, ⟨"b", "", ["gone"], [], [], "proto3"⟩]
      = .error (.missingImport "b" "gone") ∧
    ∀ f ∈ ([⟨"a", "", ["b"], [], [], "proto3"⟩, ⟨"b", "", ["gone"], [], [], "proto3"⟩] :
      List FileDescriptor), f.name ≠ "gone" := by
  have hring : resolve [⟨"a", "", ["b"], [], [], "proto3"⟩, ⟨"b", "", ["c"], [], [], "proto3"⟩,
      ⟨"c", "", ["b"], [], [], "proto3"⟩] = .error (.importCycle ["b", "c", "b"]) := by cbv
  have hgap : resolve [⟨"a", "", ["b"], [], [], "proto3"⟩, ⟨"b", "", ["gone"], [], [], "proto3"⟩]
      = .error (.missingImport "b" "gone") := by cbv
  exact ⟨⟨hring, ((import_faults_truthful _).1 _ hring).2.2.2⟩, hgap,
    ((import_faults_truthful _).2 _ _ hgap).2⟩

end Schema

end Protowire
