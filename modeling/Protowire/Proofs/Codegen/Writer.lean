import Protowire.Codegen.Writer
import Protowire.Proofs.Codegen.Renumber

/-!
# Proofs/Codegen/Writer — writing line after line gives the code as a tree

Where a writer stands is all that decides what it writes next, so each way of writing has its
effect: **from one place it writes lines and ends at a place** (`Write.Runs`), and what is written
one after the other has its effects one after the other (`Write.Runs.seq`).  What belongs to a field
ends at the margin it began at (`Write.Prints`), and so do items, each with a blank line before it
where one is needed (`Write.Items`).  By that the writer gives every piece of a file the lines that
the tree of its code has, and **it is back at the left margin and outside every module when the file
ends** (`Write.file_eq`).
-/

namespace Protowire

open Schema

/-! ## Lines -/

namespace Code

/-- Items with a blank line before each, or before each but the first. -/
def spaced : Bool → List (List Code) → List Code
  | _, [] => []
  | separates, item :: rest => (if separates then [blank] else []) ++ item ++ spaced true rest

theorem spaced_append (separates : Bool) (items items' : List (List Code)) :
    spaced separates (items ++ items') =
      spaced separates items ++ spaced (separates || !items.isEmpty) items' := by
  induction items generalizing separates with
  | nil => rw [List.isEmpty_nil, Bool.not_true, Bool.or_false]; rfl
  | cons item rest ih =>
    have hrest : spaced true (rest ++ items') = spaced true rest ++ spaced true items' := ih true
    rw [List.cons_append, spaced, spaced, hrest, List.isEmpty_cons, Bool.not_false, Bool.or_true]
    exact (List.append_assoc _ _ _).symm

theorem spaced_false (parts : List (List Code)) : spaced false parts = items parts := by
  have htrue (part : List Code) (rest : List (List Code)) :
      part ++ spaced true rest = items (part :: rest) := by
    induction rest generalizing part with
    | nil => rw [items, List.intercalate_singleton]; exact List.append_nil part
    | cons next rest ih =>
      rw [spaced, if_pos rfl, List.append_assoc, ih, items, items, List.intercalate_cons_cons,
        List.append_assoc]
  cases parts with
  | nil => rfl
  | cons part rest => exact htrue part rest

theorem linesAll_append (level : Nat) (code code' : List Code) :
    linesAll level (code ++ code') = linesAll level code ++ linesAll level code' := by
  induction code with
  | nil => rfl
  | cons c code ih => rw [List.cons_append, linesAll, linesAll, ih, List.append_assoc]

end Code

/-- Lines as text, with what one level is indented by. -/
def Line.renderAll (margin : String) (lines : List Line) : String :=
  String.join (lines.map (Line.render margin))

theorem Line.renderAll_append (margin : String) (lines lines' : List Line) :
    renderAll margin (lines ++ lines') = renderAll margin lines ++ renderAll margin lines' := by
  rw [renderAll, List.map_append, String.join_append]
  rfl

theorem Line.renderAll_singleton (margin : String) (l : Line) :
    renderAll margin [l] = l.render margin := by
  rw [renderAll, List.map_singleton, String.join_cons, String.join_nil, String.append_empty]

namespace Write

/-! ## From one place to another -/

/-- From a place, `x` writes lines and ends at a place. -/
def Runs (p : Writer.Place) (x : Write Unit) (lines : List Line) (q : Writer.Place) : Prop :=
  ∀ margin text, x ⟨p, margin, text⟩ = some ((), ⟨q, margin, text ++ Line.renderAll margin lines⟩)

namespace Runs

section Rules

variable {p q r : Writer.Place} {x y : Write Unit} {lines lines' : List Line}

theorem of_eq (h : Runs p x lines q) (hlines : lines = lines') : Runs p x lines' q :=
  hlines ▸ h

theorem done (p : Writer.Place) : Runs p (pure ()) [] p := fun _ _ => by
  rw [Line.renderAll, List.map_nil, String.join_nil, String.append_empty]
  rfl

theorem seq (hx : Runs p x lines q) (hy : Runs q y lines' r) :
    Runs p (do x; y) (lines ++ lines') r := by
  intro margin text
  change (x _).bind _ = _
  rw [hx, Option.bind_some, Line.renderAll_append, ← String.append_assoc]
  exact hy margin _

/-- The site the writer stands at is known from its place. -/
theorem here {root : Site} {f : Site → Write Unit}
    (h : Runs p (f { root with modules := p.scope }) lines q) :
    Runs p (do let site ← here root; f site) lines q :=
  h

theorem line (p : Writer.Place) (text : String) : Runs p (line text) [⟨p.level, text⟩] p :=
  fun _ _ => by rw [Line.renderAll_singleton]; rfl

theorem blank (p : Writer.Place) : Runs p blank [⟨0, ""⟩] p :=
  fun _ _ => by rw [Line.renderAll_singleton]; rfl

end Rules

variable (scope : List String) (n : Nat) (b : Bool)

/-- What moves the place and nothing else writes nothing. -/
theorem move {x : Write Unit} {p q : Writer.Place}
    (h : ∀ margin text, x ⟨p, margin, text⟩ = some ((), ⟨q, margin, text⟩)) : Runs p x [] q :=
  fun margin text => by
    rw [h, Line.renderAll, List.map_nil, String.join_nil, String.append_empty]

theorem indent : Runs ⟨scope, n, b⟩ indent [] ⟨scope, n + 1, b⟩ :=
  move fun _ _ => rfl

theorem dedent : Runs ⟨scope, n + 1, b⟩ dedent [] ⟨scope, n, b⟩ :=
  move fun _ _ => rfl

theorem separate (b' : Bool) : Runs ⟨scope, n, b⟩ (separate b') [] ⟨scope, n, b'⟩ :=
  move fun _ _ => rfl

theorem enter (module : String) :
    Runs ⟨scope, n, b⟩ (enter module) [] ⟨scope ++ [module], n, b⟩ :=
  move fun _ _ => rfl

theorem leave (module : String) :
    Runs ⟨scope ++ [module], n, b⟩ leave [] ⟨scope, n, b⟩ :=
  move fun margin text => by
    have hne : (scope ++ [module]).isEmpty = false := by simp
    change (if (scope ++ [module]).isEmpty then failure else _ : Write Unit) _ = _
    rw [hne, if_neg Bool.false_ne_true]
    change some ((), Writer.mk ⟨(scope ++ [module]).dropLast, n, b⟩ margin text) = _
    rw [List.dropLast_concat]

theorem opening (text : String) :
    Runs ⟨scope, n, b⟩ (opening text) [⟨n, text⟩] ⟨scope, n + 1, false⟩ :=
  (line _ text).seq ((indent scope n b).seq (separate scope (n + 1) b false))

theorem closing (text : String) :
    Runs ⟨scope, n + 1, b⟩ (closing text) [⟨n, text⟩] ⟨scope, n, true⟩ :=
  (dedent scope n b).seq ((separate scope n b true).seq (line _ text))

theorem beginItem :
    Runs ⟨scope, n, b⟩ beginItem (if b then [⟨0, ""⟩] else []) ⟨scope, n, true⟩ := by
  cases b with
  | true => exact (blank _).seq (separate scope n true true)
  | false => exact separate scope n false true

/-- What ends where it began, again and again. -/
theorem forM {α : Type} {p : Writer.Place} {f : α → Write Unit} {code : α → List Code} (l : List α)
    (h : ∀ a, Runs p (f a) (Code.linesAll p.level (code a)) p) :
    Runs p (l.forM f) (Code.linesAll p.level (l.flatMap code)) p := by
  induction l with
  | nil => exact done p
  | cons a l ih => exact ((h a).seq ih).of_eq (Code.linesAll_append _ _ _).symm

/-- Lines one after the other. -/
theorem lines {α : Type} (p : Writer.Place) (text : α → String) (l : List α) :
    Runs p (l.forM fun a => Write.line (text a))
      (Code.linesAll p.level (l.map fun a => .line (text a))) p := by
  rw [← List.flatMap_pure_eq_map]
  exact forM l fun a => line p (text a)

end Runs

/-! ## Back at the same margin -/

/-- In a scope, `x` writes code and ends at the margin it began at. -/
def Prints (scope : List String) (x : Write Unit) (code : List Code) : Prop :=
  ∀ n b, ∃ b', Runs ⟨scope, n, b⟩ x (Code.linesAll n code) ⟨scope, n, b'⟩

/-- In a scope, `x` writes items. -/
def Items (scope : List String) (x : Write Unit) (items : List (List Code)) : Prop :=
  ∀ n b, Runs ⟨scope, n, b⟩ x (Code.linesAll n (Code.spaced b items))
    ⟨scope, n, b || !items.isEmpty⟩

section Rules

variable {scope : List String} {x y : Write Unit}

theorem Prints.forM {α : Type} {l : List α} {f : α → Write Unit} {code : α → List Code}
    (h : ∀ a, Prints scope (f a) (code a)) : Prints scope (l.forM f) (l.flatMap code) := by
  induction l with
  | nil => exact fun n b => ⟨b, .done _⟩
  | cons a l ih =>
    intro n b
    obtain ⟨b', ha⟩ := h a n b
    obtain ⟨b'', hl⟩ := ih n b'
    exact ⟨b'', (ha.seq hl).of_eq (Code.linesAll_append n _ _).symm⟩

namespace Items

variable {items items' : List (List Code)}

theorem nil : Items scope (pure ()) [] := fun n b => by
  rw [List.isEmpty_nil, Bool.not_true, Bool.or_false]
  exact .done _

theorem append (hx : Items scope x items) (hy : Items scope y items') :
    Items scope (do x; y) (items ++ items') := by
  intro n b
  have hflag : (b || !(items ++ items').isEmpty) = ((b || !items.isEmpty) || !items'.isEmpty) := by
    cases items <;> simp
  rw [Code.spaced_append, Code.linesAll_append, hflag]
  exact (hx n b).seq (hy n _)

theorem forM {α : Type} {l : List α} {f : α → Write Unit} {items : α → List (List Code)}
    (h : ∀ a ∈ l, Items scope (f a) (items a)) : Items scope (l.forM f) (l.flatMap items) := by
  induction l with
  | nil => exact nil
  | cons a l ih =>
    exact append (h a List.mem_cons_self) (ih fun a ha => h a (List.mem_cons_of_mem _ ha))

/-- What ends with a blank line to come is an item. -/
theorem single {item : List Code}
    (h : ∀ n, Runs ⟨scope, n, true⟩ x (Code.linesAll n item) ⟨scope, n, true⟩) :
    Items scope (do beginItem; x) [item] := by
  intro n b
  have hlines : Code.linesAll n (Code.spaced b [item]) =
      (if b then [⟨0, ""⟩] else []) ++ Code.linesAll n item := by
    rw [Code.spaced, Code.spaced, List.append_nil, Code.linesAll_append]
    cases b <;> rfl
  rw [hlines, List.isEmpty_cons, Bool.not_false, Bool.or_true]
  exact (Runs.beginItem scope n b).seq (h n)

end Items

end Rules

/-! ## Enums -/

section Enums

variable (scope : List String) (e : Schema.Enum)

theorem items_enumType : Items scope (enumType e) [e.typeItem] :=
  .single fun n => by
    refine ((Runs.line _ _).seq <| (Runs.line _ _).seq <| (Runs.opening scope n true _).seq <|
      (Runs.lines _ _ _).seq <| Runs.closing scope n false _).of_eq ?_
    simp [Schema.Enum.typeItem, Code.braces, Code.linesAll, Code.lines]

theorem runs_enumAliases (p : Writer.Place) :
    Runs p (enumAliases e) (Code.linesAll p.level e.aliasCode) p := by
  let code (v : Variant) : List Code :=
    [.line "#[allow(non_upper_case_globals)]",
      .line s!"pub const {v.ident}: Self = Self::{v.target};"]
  have hlines (aliases : List Variant) := @Runs.forM _ p _ code aliases fun v =>
    (Runs.line p _).seq (.line p _)
  rw [enumAliases, Schema.Enum.aliasCode]
  cases e.variants.filter fun v => !v.isPrimary with
  | nil => exact .seq (.done p) (.done p)
  | cons v aliases =>
    refine ((hlines (v :: aliases)).seq (.blank p)).of_eq ?_
    exact (Code.linesAll_append p.level ((v :: aliases).flatMap code) [.blank]).symm

theorem items_enumNames : Items scope (enumNames e) [e.namesItem] :=
  .single fun n => by
    refine ((Runs.opening scope n true _).seq <| (runs_enumAliases e _).seq <|
      (Runs.line _ _).seq <| (Runs.opening scope _ _ _).seq <| (Runs.opening scope _ _ _).seq <|
      (Runs.lines _ _ _).seq <| (Runs.closing scope _ _ _).seq <|
      (Runs.closing scope _ _ _).seq <| (Runs.blank _).seq <| (Runs.line _ _).seq <|
      (Runs.opening scope _ _ _).seq <| (Runs.opening scope _ _ _).seq <|
      (Runs.lines _ _ _).seq <| (Runs.line _ _).seq <| (Runs.closing scope _ _ _).seq <|
      (Runs.closing scope _ _ _).seq <| Runs.closing scope _ _ _).of_eq ?_
    simp [Schema.Enum.namesItem, Code.braces, Code.linesAll, Code.lines, Code.linesAll_append]

/-- An item with one method of one line. -/
theorem items_method (head signature text : String) :
    Items scope (do
        beginItem
        opening (head ++ " \x7b")
        opening (signature ++ " \x7b")
        line text
        closing "\x7d"
        closing "\x7d")
      [Code.braces head (Code.braces signature [.line text])] :=
  .single fun n => by
    refine ((Runs.opening scope n true _).seq <| (Runs.opening scope _ _ _).seq <|
      (Runs.line _ _).seq <| (Runs.closing scope _ _ _).seq <|
      Runs.closing scope _ _ _).of_eq ?_
    simp [Code.braces, Code.linesAll, Code.lines]

theorem items_enumDefault :
    Items scope (enumDefault e) (e.defaultVariant?.toList.map e.defaultItem) := by
  rw [enumDefault]
  cases e.defaultVariant? with
  | none => exact .nil
  | some v => exact items_method scope _ _ _

theorem items_enumOfNumber : Items scope (enumOfNumber e) [e.ofNumberItem] :=
  .single fun n => by
    refine ((Runs.opening scope n true _).seq <| (Runs.line _ _).seq <| (Runs.blank _).seq <|
      (Runs.opening scope _ _ _).seq <| (Runs.opening scope _ _ _).seq <|
      (Runs.lines _ _ _).seq <| (Runs.line _ _).seq <| (Runs.closing scope _ _ _).seq <|
      (Runs.closing scope _ _ _).seq <| Runs.closing scope _ _ _).of_eq ?_
    simp [Schema.Enum.ofNumberItem, Code.braces, Code.linesAll, Code.lines, Code.linesAll_append]

theorem items_enumToNumber : Items scope (enumToNumber e) [e.toNumberItem] :=
  items_method scope _ _ _

/-- **An enum is written as its items.** -/
theorem items_enum : Items scope (enum e) e.code := by
  have htail := (items_enumOfNumber scope e).append (items_enumToNumber scope e)
  have hrest := (items_enumNames scope e).append ((items_enumDefault scope e).append htail)
  have hcode : e.code = [e.typeItem] ++ ([e.namesItem] ++
      (e.defaultVariant?.toList.map e.defaultItem ++ ([e.ofNumberItem] ++ [e.toNumberItem]))) := by
    simp [Schema.Enum.code]
  rw [hcode]
  exact (items_enumType scope e).append hrest

theorem items_enums (root : Site) (ids : List EnumId) :
    Items scope (enums root ids) (root.enumItems ids) := by
  refine .forM fun id _ => ?_
  cases root.schema.enums[id]? with
  | none => exact .nil
  | some e => exact items_enum scope e

end Enums

/-! ## Fields -/

section Fields

variable (scope : List String) (site : Site)

theorem runs_arguments (p : Writer.Place) (text : String) (args : List String) (after : String) :
    Runs p (arguments text args after) (Code.linesAll p.level (Code.arguments text args after))
      p := by
  obtain ⟨scope, n, b⟩ := p
  refine ((Runs.line _ _).seq <| (Runs.indent scope n b).seq <| (Runs.lines _ _ _).seq <|
    (Runs.dedent scope n b).seq <| Runs.line _ _).of_eq ?_
  simp [Code.arguments, Code.linesAll, Code.lines]

/-- **A field's part in writing or measuring is written as its code.** -/
theorem prints_fieldPass (pass : Pass) (plan : FieldPlan) :
    Prints scope (fieldPass site pass plan) (plan.write site pass) := by
  intro n b
  cases plan with
  | map number key value place => exact ⟨b, runs_arguments _ _ _ _⟩
  | list number module isPacked place => exact ⟨b, .line _ _⟩
  | single number module guard source store =>
    refine ⟨true, ((Runs.opening scope n b _).seq <| (Runs.line _ _).seq <|
      Runs.closing scope _ _ _).of_eq ?_⟩
    simp [FieldPlan.write, Pass.call, Code.braces, Code.linesAll, Code.lines]

/-- **A field's arm in reading is written as its code.** -/
theorem prints_fieldArm (plan : FieldPlan) :
    Prints scope (fieldArm site plan) (plan.arm site) := by
  intro n b
  cases plan with
  | map number key value place => exact ⟨b, runs_arguments _ _ _ _⟩
  | list number module isPacked place => exact ⟨b, .line _ _⟩
  | single number module guard source store =>
    cases store with
    | direct place => exact ⟨b, .line _ _⟩
    | inserted place => exact ⟨b, runs_arguments _ _ _ _⟩
    | wrapped type reference oneof variant =>
      -- the margin is moved back with no word on blank lines, so none comes before what follows
      refine ⟨false, ((Runs.opening scope n b _).seq <| (Runs.line _ _).seq <|
        (Runs.line _ _).seq <| (Runs.line _ _).seq <| (Runs.line _ _).seq <|
        (Runs.dedent scope _ _).seq <| Runs.line _ _).of_eq ?_⟩
      simp [FieldPlan.arm, Code.braces, Code.linesAll, Code.lines]

end Fields

/-! ## Messages -/

section Messages

variable (scope : List String) (root : Site)

/-- The site in a scope of the file. -/
abbrev siteIn : Site := { root with modules := scope }

theorem items_struct (id : MessageId) (m : Schema.Message) :
    Items scope (struct root id m) [(siteIn scope root).structItem id m] := by
  refine fun n b => .here (Items.single (fun n => ?_) n b)
  refine ((Runs.line _ _).seq <| (Runs.opening scope n true _).seq <| (Runs.lines _ _ _).seq <|
    (Runs.lines _ _ _).seq <| Runs.closing scope _ _ _).of_eq ?_
  simp [Site.structItem, Code.braces, Code.linesAll, Code.lines, Code.linesAll_append]

theorem items_accessor (site : Site) (f : Schema.Field) (id : EnumId) :
    Items scope (accessor site f id) [site.accessor f id] :=
  .single fun n => by
    refine ((Runs.line _ _).seq <| (Runs.opening scope n true _).seq <| (Runs.line _ _).seq <|
      Runs.closing scope _ _ _).of_eq ?_
    simp [Site.accessor, Code.braces, Code.linesAll, Code.lines]

/-- The accessors are those of the fields that have one. -/
theorem accessors_eq (site : Site) (m : Schema.Message) :
    site.accessors m = (enumFields m).map fun f => site.accessor f.1 f.2 := by
  rw [Site.accessors, enumFields, List.map_filterMap]
  refine List.filterMap_congr fun f _ => ?_
  cases f.type <;> cases f.isRepeated <;> cases f.oneof <;> rfl

theorem items_accessors (m : Schema.Message) :
    Items scope (accessors root m) ((siteIn scope root).accessorItem? m).toList := by
  refine fun n b => .here ?_
  have hall : Items scope ((enumFields m).forM fun f => accessor (siteIn scope root) f.1 f.2)
      ((siteIn scope root).accessors m) := by
    rw [accessors_eq, ← List.flatMap_pure_eq_map]
    exact .forM fun f _ => items_accessor scope _ f.1 f.2
  have hempty : ((siteIn scope root).accessors m).isEmpty = (enumFields m).isEmpty := by
    rw [accessors_eq, List.isEmpty_map]
  rw [Site.accessorItem?, hempty]
  split
  · exact Items.nil n b
  · refine Items.single (fun n => ?_) n b
    refine ((Runs.opening scope n true _).seq <| (hall _ _).seq <|
      Runs.closing scope _ _ _).of_eq ?_
    simp [Code.braces, Code.linesAll, Code.lines, Code.spaced_false]

theorem items_writeMethod (site : Site) (plans : List FieldPlan) :
    Items scope (writeMethod site plans) [site.writeMethod plans] :=
  .single fun n => by
    rw [Site.writeMethod]
    split
    · exact .line _ _
    · obtain ⟨b, hplans⟩ :=
        Prints.forM (l := plans) (prints_fieldPass scope site .write) (n + 1) false
      refine ((Runs.opening scope n true _).seq <| hplans.seq <| Runs.closing scope _ _ _).of_eq ?_
      simp [Code.braces, Code.linesAll, Code.lines]

theorem items_readMethod (site : Site) (plans : List FieldPlan) :
    Items scope (readMethod site plans) [site.readMethod plans] :=
  .single fun n => by
    obtain ⟨b, hplans⟩ := Prints.forM (l := plans) (prints_fieldArm scope site) (n + 2) false
    refine ((Runs.opening scope n true _).seq <| (Runs.line _ _).seq <| (Runs.line _ _).seq <|
      (Runs.line _ _).seq <| (Runs.line _ _).seq <| (Runs.line _ _).seq <|
      (Runs.dedent scope _ _).seq <| (Runs.line _ _).seq <| (Runs.indent scope _ _).seq <|
      (Runs.line _ _).seq <| (Runs.indent scope _ _).seq <| hplans.seq <| (Runs.line _ _).seq <|
      (Runs.closing scope _ _ _).seq <| Runs.closing scope _ _ _).of_eq ?_
    simp [Site.readMethod, Code.braces, Code.linesAll, Code.lines, Code.linesAll_append]

theorem items_measureMethod (site : Site) (plans : List FieldPlan) :
    Items scope (measureMethod site plans) [site.measureMethod plans] :=
  .single fun n => by
    rw [Site.measureMethod]
    cases plans with
    | nil =>
      refine ((Runs.opening scope n true _).seq <| (Runs.line _ _).seq <|
        Runs.closing scope _ _ _).of_eq ?_
      simp [Code.braces, Code.linesAll, Code.lines]
    | cons plan plans =>
      obtain ⟨b, hplans⟩ :=
        Prints.forM (l := plan :: plans) (prints_fieldPass scope site .measure) (n + 1) false
      refine ((Runs.opening scope n true _).seq <| (Runs.line _ _).seq <| hplans.seq <|
        (Runs.line _ _).seq <| Runs.closing scope _ _ _).of_eq ?_
      simp [Code.braces, Code.linesAll, Code.lines, Code.linesAll_append]

theorem items_methods (id : MessageId) (m : Schema.Message) :
    Items scope (methods root id m) [(siteIn scope root).methodsItem id m] := by
  refine fun n b => .here (Items.single (fun n => ?_) n b)
  let site := siteIn scope root
  let plans := site.plans id m
  have hspaced : Code.items [site.writeMethod plans, site.readMethod plans,
      site.measureMethod plans] = Code.spaced false [site.writeMethod plans] ++
        (Code.spaced true [site.readMethod plans] ++ Code.spaced true [site.measureMethod plans]) :=
    (Code.spaced_false _).symm.trans (by simp [Code.spaced])
  rw [Site.methodsItem, hspaced]
  refine ((Runs.opening scope n true _).seq <| (items_writeMethod scope site plans _ _).seq <|
    (items_readMethod scope site plans _ _).seq <| (items_measureMethod scope site plans _ _).seq <|
    Runs.closing scope _ _ _).of_eq ?_
  simp [Code.braces, Code.linesAll, Code.lines, Code.linesAll_append]

theorem items_oneof (owner : MessageId) (m : Schema.Message) (decl : String × Nat) :
    Items scope (oneof root owner m decl) [(siteIn scope root).oneofItem owner m decl] := by
  refine fun n b => .here (Items.single (fun n => ?_) n b)
  refine ((Runs.line _ _).seq <| (Runs.opening scope n true _).seq <| (Runs.lines _ _ _).seq <|
    Runs.closing scope _ _ _).of_eq ?_
  simp [Site.oneofItem, Code.braces, Code.linesAll, Code.lines]

/-- The items of a message are those of the messages in it that are no entries. -/
theorem flatMap_modulesIn (site : Site) (id : MessageId) :
    (modulesIn site.schema id).flatMap site.messageItems =
      (site.schema.messagesInside id).flatMap site.messageItems := by
  rw [modulesIn]
  induction site.schema.messagesInside id with
  | nil => rfl
  | cons child ids ih =>
    rw [List.flatMap_cons, ← ih, List.filter_cons]
    split
    · rw [List.flatMap_cons]
    · rename_i hentry
      simp only [Bool.not_eq_true, Bool.not_eq_false', Option.any_eq_true] at hentry
      obtain ⟨m, hm, hentry⟩ := hentry
      rw [Site.messageItems_of_isMapEntry hm hentry, List.nil_append]

/-- There is a module exactly when something stands in it. -/
theorem isEmpty_innerItems (site : Site) (id : MessageId) (m : Schema.Message) :
    (site.innerItems id m).isEmpty =
      ((modulesIn site.schema id).isEmpty && (site.schema.enumsInside id).isEmpty &&
        m.usedOneofs.isEmpty) := by
  let inner := site.enter (Naming.moduleIdent m.name)
  have hnested : (site.schema.messagesInside id).flatMap inner.messageItems = [] ↔
      modulesIn site.schema id = [] := by
    have hinner : (site.schema.messagesInside id).flatMap inner.messageItems =
        (modulesIn site.schema id).flatMap inner.messageItems := (flatMap_modulesIn inner id).symm
    rw [hinner, List.flatMap_eq_nil_iff]
    refine ⟨fun h => List.eq_nil_iff_forall_not_mem.2 fun child hchild => ?_, fun h => ?_⟩
    · obtain ⟨hmem, hentry⟩ := List.mem_filter.1 hchild
      have hm : inner.schema.messages[child]? = some _ :=
        List.getElem?_eq_getElem (lt_of_mem_messagesInside hmem).2
      rw [show site.schema.messages[child]? = some _ from hm] at hentry
      have hstruct := Site.structItem_mem_messageItems hm (Bool.not_eq_true' _ ▸ hentry)
      rw [h child hchild] at hstruct
      exact absurd hstruct List.not_mem_nil
    · intro child hchild
      rw [h] at hchild
      exact absurd hchild List.not_mem_nil
  have henums : inner.enumItems (site.schema.enumsInside id) = [] ↔
      site.schema.enumsInside id = [] := by
    rw [Site.enumItems, List.flatMap_eq_nil_iff]
    refine ⟨fun h => List.eq_nil_iff_forall_not_mem.2 fun eid heid => ?_, fun h => ?_⟩
    · have he : inner.schema.enums[eid]? = some _ :=
        List.getElem?_eq_getElem (lt_of_mem_enumsInside heid)
      have hcode := h eid heid
      rw [he] at hcode
      exact absurd hcode (List.cons_ne_nil _ _)
    · intro eid heid
      rw [h] at heid
      exact absurd heid List.not_mem_nil
  rw [Bool.eq_iff_iff]
  simp only [Bool.and_eq_true, List.isEmpty_iff, Site.innerItems, List.append_eq_nil_iff,
    List.map_eq_nil_iff]
  exact and_congr (and_congr hnested henums) Iff.rfl

/-- **What is nested in a message is written in its module**, when the messages in it are. -/
theorem items_nestedModule (id : MessageId) (m : Schema.Message) {inner : Write Unit}
    (h : Items (scope ++ [Naming.moduleIdent m.name]) inner ((root.schema.messagesInside id).flatMap
      (siteIn (scope ++ [Naming.moduleIdent m.name]) root).messageItems)) :
    Items scope (nestedModule root id m inner)
      (Site.moduleItem? m ((siteIn scope root).innerItems id m)).toList := by
  let modules := scope ++ [Naming.moduleIdent m.name]
  rw [nestedModule, Site.moduleItem?, isEmpty_innerItems]
  split
  · exact .nil
  · refine .single fun n => ?_
    have honeofs : Items modules (m.usedOneofs.forM (oneof root id m))
        (m.usedOneofs.map ((siteIn modules root).oneofItem id m)) := by
      rw [← List.flatMap_pure_eq_map]
      exact .forM fun o _ => items_oneof modules root id m o
    refine ((Runs.line _ _).seq <| (Runs.opening scope n true _).seq <|
      (Runs.enter scope _ _ _).seq <| (h _ _).seq <| (items_enums modules root _ _ _).seq <|
      (honeofs _ _).seq <| (Runs.leave scope _ _ _).seq <| Runs.closing scope _ _ _).of_eq ?_
    have hitems : Code.items ((siteIn scope root).innerItems id m) = _ :=
      (Code.spaced_false _).symm.trans <|
        (congrArg (Code.spaced false) (List.append_assoc _ _ _)).trans <|
        (Code.spaced_append false _ _).trans <| congrArg _ <| Code.spaced_append _ _ _
    rw [hitems]
    simp [Code.braces, Code.linesAll, Code.lines, Code.linesAll_append]
    rfl

/-- **A message is written as its items**, with what is nested in it in its module. -/
theorem items_message (id : MessageId) :
    Items scope (message root id) ((siteIn scope root).messageItems id) := by
  induction hrest : root.schema.messages.length - id using Nat.strongRecOn
    generalizing id scope with
  | ind rest ih =>
    subst hrest
    let site := siteIn scope root
    rw [message]
    split
    · rename_i hm
      have hnone : site.messageItems id = [] := Site.messageItems_of_eq_none hm
      exact hnone ▸ .nil
    · rename_i m hm
      split
      · rename_i hentry
        have hnone : site.messageItems id = [] := Site.messageItems_of_isMapEntry hm hentry
        exact hnone ▸ .nil
      · rename_i hentry
        have hitems : site.messageItems id = _ :=
          Site.messageItems_eq hm (Bool.eq_false_iff.2 hentry)
        rw [hitems, List.append_assoc, List.append_assoc]
        refine (items_struct scope root id m).append <| (items_accessors scope root m).append <|
          (items_methods scope root id m).append <| items_nestedModule scope root id m ?_
        let inner := site.enter (Naming.moduleIdent m.name)
        have hattach := Site.flatMap_attach (modulesIn root.schema id) inner.messageItems
        refine hattach.trans (flatMap_modulesIn inner id) ▸ .forM fun child _ =>
          ih _ ?_ _ child.1 rfl
        have := lt_of_mem_messagesInside (List.mem_filter.1 child.2).1
        omega

end Messages

/-! ## Files -/

section Files

variable (s : Schema) (config : Config) (id : FileId) (file : Schema.File)

theorem runs_header (p : Writer.Place) :
    Runs p (header config file) (Code.linesAll p.level (CodeFile.header config file)) p := by
  rw [header, CodeFile.header]
  cases config.emitDigest with
  | true => exact (Runs.line p _).seq <| (Runs.line p _).seq <| (Runs.line p _).seq (.blank p)
  | false => exact (Runs.line p _).seq <| (Runs.line p _).seq (.blank p)

theorem items_file : Items [] (do
    (s.topMessages id).forM (message ⟨s, config, id, []⟩)
    enums ⟨s, config, id, []⟩ (s.topEnums id)) (CodeFile.fileItems ⟨s, config, id, []⟩) :=
  .append (.forM fun child _ => items_message [] _ child) (items_enums [] _ _)

/-- **A file is written line after line as its code**: the writer is never moved back too far, and
in the end it is at the left margin and outside every module. -/
theorem exists_file_eq : ∃ separates,
    Write.file ⟨s, config, id, []⟩ file (.start config.indent) = some ((),
      ⟨⟨[], 0, separates⟩, config.indent, (CodeFile.ofFile s config id file).content⟩) := by
  have hruns := (runs_header config file ⟨[], 0, false⟩).seq (items_file s config id 0 false)
  have hrun := hruns config.indent ""
  rw [String.empty_append, ← Code.linesAll_append, Code.spaced_false] at hrun
  exact ⟨_, hrun⟩

end Files

end Write

end Protowire
