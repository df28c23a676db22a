import Protowire.Proofs.Codegen.Layout
import Protowire.Proofs.Codegen.PlainTexts

/-!
# Proofs/Codegen/NeatCode — all generated code is laid out well

Every piece of generated code closes what it opens and stands as far in as brackets are open around
it (`Code.Neat`), piece by piece as the code is put together: the items of an enum, a field's part
in each method, the items of a message, those of its module, and a file
(`CodeFile.neat_fileCode`).  Names of the schema that are shown as they are written, in comments and
as the names of enum values, must be plain for that; identifiers always are.
-/

namespace Protowire

open Schema Text Code

/-! ## Enums -/

namespace Schema.Enum

variable (e : Schema.Enum)

theorem word_ident : Word e.ident := Naming.word_typeIdent e.name

theorem neat_typeItem : Neat e.typeItem := by
  have hopening : Whole ("pub enum " ++ e.ident) :=
    ((Begins.ofList _ _ rfl).append e.word_ident.hasMarks).whole (by decide)
  refine .cons (.ofList _ _ rfl (by decide)) <| .cons (.ofList _ _ rfl (by decide)) <|
    neat_braces hopening <| neat_map fun v hv => ?_
  have hident := (word_variant e v (List.mem_filter.1 hv).1).1
  have hnumber := Naming.word_repr_int v.number.toInt
  exact (((hident.append (.ofList _)).append hnumber.hasMarks).append (.ofList _)).whole (by decide)

theorem neat_aliasCode : Neat e.aliasCode := by
  rw [aliasCode]
  split
  · exact neat_nil
  · refine .append (neat_flatMap fun v hv => ?_) neat_blank
    obtain ⟨hident, htarget⟩ := word_variant e v (List.mem_filter.1 hv).1
    refine .cons (.ofList _ _ rfl (by decide)) <| neat_line ?_
    exact (((((Begins.ofList _ _ rfl).append hident.hasMarks).append (.ofList _)).append
      htarget.hasMarks).append (.ofList _)).whole (by decide)

theorem neat_namesItem (hnames : ∀ v ∈ e.values, Plain v.name) : Neat e.namesItem := by
  have hname := plain_variant_name hnames
  have hopening : Whole ("impl " ++ e.ident) :=
    ((Begins.ofList _ _ rfl).append e.word_ident.hasMarks).whole (by decide)
  have htoName : Neat (e.primaries.map fun v => .line s!"Self::{v.ident} => \"{v.name}\",") :=
    neat_map fun v hv => by
      have hmem := (List.mem_filter.1 hv).1
      have hident := (word_variant e v hmem).1
      exact (((((Begins.ofList _ _ rfl).append hident.hasMarks).append (.ofList _)).append
        (hname v hmem)).append (.ofList _)).whole (by decide)
  have hofName : Neat (e.variants.map fun v =>
      .line s!"\"{v.name}\" => ::core::option::Option::Some(Self::{v.target}),") :=
    neat_map fun v hv =>
      (((((Begins.ofList _ _ rfl).append (hname v hv)).append (.ofList _)).append
        (word_variant e v hv).2.hasMarks).append (.ofList _)).whole (by decide)
  refine neat_braces hopening ?_
  refine .append (.append (.append (.append e.neat_aliasCode ?_) ?_) ?_) ?_
  · exact neat_line (.ofList _ _ rfl (by decide))
  · exact neat_braces (.ofList _ _ rfl (by decide)) <|
      neat_braces (.ofList _ _ rfl (by decide)) htoName
  · exact neat_blank.append <| neat_line (.ofList _ _ rfl (by decide))
  · exact neat_braces (.ofList _ _ rfl (by decide)) <|
      neat_braces (.ofList _ _ rfl (by decide)) <|
      hofName.append <| neat_line (.ofList _ _ rfl (by decide))

theorem neat_defaultItem {v : Variant} (hv : Word v.ident) : Neat (e.defaultItem v) := by
  have hopening : Whole ("impl ::core::default::Default for " ++ e.ident) :=
    ((Begins.ofList _ _ rfl).append e.word_ident.hasMarks).whole (by decide)
  have hvalue : Whole ("Self::" ++ v.ident) :=
    ((Begins.ofList _ _ rfl).append hv.hasMarks).whole (by decide)
  exact neat_braces hopening <| neat_braces (.ofList _ _ rfl (by decide)) <| neat_line hvalue

theorem neat_ofNumberItem : Neat e.ofNumberItem := by
  have hopening : Whole ("impl ::core::convert::TryFrom<i32> for " ++ e.ident) :=
    ((Begins.ofList _ _ rfl).append e.word_ident.hasMarks).whole (by decide)
  have harms : Neat (e.primaries.map fun v =>
      .line s!"{v.number.toInt} => ::core::result::Result::Ok(Self::{v.ident}),") :=
    neat_map fun v hv => by
      have hident := (word_variant e v (List.mem_filter.1 hv).1).1
      have hnumber := Naming.word_repr_int v.number.toInt
      exact (((hnumber.append (.ofList _)).append hident.hasMarks).append (.ofList _)).whole
        (by decide)
  refine neat_braces hopening <| .cons (.ofList _ _ rfl (by decide)) <| neat_blank.append ?_
  exact neat_braces (.ofList _ _ rfl (by decide)) <|
    neat_braces (.ofList _ _ rfl (by decide)) <|
    harms.append <| neat_line (.ofList _ _ rfl (by decide))

theorem neat_toNumberItem : Neat e.toNumberItem := by
  have hident := e.word_ident.hasMarks
  have hopening : Whole s!"impl ::core::convert::From<{e.ident}> for i32" :=
    (((Begins.ofList _ _ rfl).append hident).append (.ofList _)).whole (by decide)
  have hmethod : Whole s!"fn from(value: {e.ident}) -> i32" :=
    (((Begins.ofList _ _ rfl).append hident).append (.ofList _)).whole (by decide)
  exact neat_braces hopening <| neat_braces hmethod <| neat_line (.ofList _ _ rfl (by decide))

theorem mem_variants_of_default {v : Variant} (hv : e.defaultVariant? = some v) :
    v ∈ e.variants := by
  rw [defaultVariant?, Option.or_eq_some_iff] at hv
  have hprimary : v ∈ e.primaries := by
    rcases hv with hv | ⟨-, hv⟩
    · obtain ⟨_, -, hfound⟩ := Option.bind_eq_some_iff.1 hv
      exact List.mem_of_find?_eq_some hfound
    · exact List.mem_of_mem_head? hv
  exact (List.mem_filter.1 hprimary).1

/-- **The items of an enum are laid out well** when the names of its values are plain. -/
theorem neat_code (hnames : ∀ v ∈ e.values, Plain v.name) : ∀ item ∈ e.code, Neat item := by
  intro item hitem
  rw [code, List.mem_append, List.mem_append] at hitem
  rcases hitem with (hitem | hitem) | hitem
  · rcases List.mem_pair.1 hitem with rfl | rfl
    · exact e.neat_typeItem
    · exact e.neat_namesItem hnames
  · obtain ⟨v, hv, rfl⟩ := List.mem_map.1 hitem
    have hmem := e.mem_variants_of_default (Option.mem_toList.1 hv)
    exact e.neat_defaultItem (word_variant e v hmem).1
  · rcases List.mem_pair.1 hitem with rfl | rfl
    · exact e.neat_ofNumberItem
    · exact e.neat_toNumberItem

end Schema.Enum

/-! ## Fields -/

/-- The texts in which a value that was read is stored keep lines whole. -/
inductive Store.Fits : Store → Prop where
  | direct {place : String} (hplace : Plain place) : Fits (.direct place)
  | inserted {place : String} (hplace : Whole place) : Fits (.inserted place)
  | wrapped {type reference oneof variant : String} (htype : Plain type)
      (hreference : Plain reference) (honeof : Word oneof) (hvariant : Plain variant) :
      Fits (.wrapped type reference oneof variant)

namespace FieldPlan

/-- The texts of a plan keep lines whole. -/
inductive Fits : FieldPlan → Prop where
  | map {number : Nat} {key value place : String} (hkey : Word key) (hvalue : Word value)
      (hplace : Plain place) : Fits (.map number key value place)
  | list {number : Nat} {module : String} {isPacked : Bool} {place : String}
      (hmodule : Word module) (hplace : Plain place) : Fits (.list number module isPacked place)
  | single {number : Nat} {module guard source : String} {store : Store} (hmodule : Word module)
      (hguard : Closed guard) (hsource : Plain source) (hstore : store.Fits) :
      Fits (.single number module guard source store)

theorem word_opening (pass : Pass) {text : String} (h : Word text) :
    Word (pass.opening ++ text) := by
  cases pass with
  | write => exact (String.empty_append (s := text)).symm ▸ h
  | measure => exact (Begins.ofList _ _ rfl).append h.hasMarks

theorem neat_call (pass : Pass) {module form value : String} (hmodule : Word module)
    (hform : Plain form) (number : Nat) (hvalue : Plain value) :
    Neat [pass.call module form number value] := by
  have hargs : Plain (", ".intercalate (toString number :: value :: pass.buffer)) := by
    refine plain_intercalate (by decide) ?_
    refine List.forall_mem_cons.2 ⟨(Naming.word_repr_nat number).hasMarks, ?_⟩
    refine List.forall_mem_cons.2 ⟨hvalue, ?_⟩
    cases pass <;> decide
  have hfunction : Plain pass.function := by
    cases pass <;> decide
  refine neat_line ?_
  exact (((((((word_opening pass hmodule).append (.ofList _)).append hfunction).append
    hform).append (.ofList _)).append hargs).append (.ofList _)).whole (by decide)

variable {site : Site}

theorem whole_mapFunctions (pass : Pass) {module : String} (h : Word module) :
    ∀ text ∈ mapFunctions pass module, Whole text := by
  have hencode : Whole (module ++ "::encode") := (h.append (.ofList _)).whole (by decide)
  have hlength : Whole (module ++ "::encoded_len") := (h.append (.ofList _)).whole (by decide)
  cases pass with
  | write => exact List.forall_mem_cons.2 ⟨hencode, List.forall_mem_singleton.2 hlength⟩
  | measure => exact List.forall_mem_singleton.2 hlength

/-- **A field's part in writing or measuring is laid out well.** -/
theorem Fits.neat_write (h : site.config.KeepsLines) (pass : Pass) {plan : FieldPlan}
    (hplan : plan.Fits) : Neat (plan.write site pass) := by
  cases hplan with
  | @map number key value place hkey hvalue hplace =>
    have hfunction : Plain ("encoding::map::" ++ pass.function) := by
      cases pass <;> decide
    refine neat_arguments ((word_opening pass (Site.word_runtime h hfunction)).whole (by decide))
      ?_ (by decide)
    refine List.forall_mem_append.2 ⟨List.forall_mem_append.2
      ⟨whole_mapFunctions pass hkey, whole_mapFunctions pass hvalue⟩, ?_⟩
    refine List.forall_mem_cons.2 ⟨(Naming.word_repr_nat number).whole (by decide), ?_⟩
    refine List.forall_mem_cons.2 ⟨((Begins.ofList _ _ rfl).append hplace).whole (by decide), ?_⟩
    cases pass with
    | write => exact List.forall_mem_singleton.2 (.ofList _ _ rfl (by decide))
    | measure => exact nofun
  | list hmodule hplace =>
    refine neat_call pass hmodule ?_ _ (HasMarks.append (.ofList _) hplace)
    split <;> decide
  | single hmodule hguard hsource =>
    exact neat_braces (Whole.append (.ofList _ _ rfl (by decide)) hguard) <|
      neat_call pass hmodule (by decide) _ hsource

/-- **A field's arm in reading is laid out well.** -/
theorem Fits.neat_arm (h : site.config.KeepsLines) {plan : FieldPlan} (hplan : plan.Fits) :
    Neat (plan.arm site) := by
  have hcontext : ∀ text ∈ ["reader", "ctx"], Whole text := by
    refine List.forall_mem_cons.2 ⟨.ofList _ _ rfl (by decide), List.forall_mem_singleton.2 ?_⟩
    exact .ofList _ _ rfl (by decide)
  have hwireType : Whole "wire_type" := .ofList _ _ rfl (by decide)
  cases hplan with
  | @map number key value place hkey hvalue hplace =>
    have hruntime : Plain (site.runtime "encoding::map::merge") :=
      (Site.word_runtime h (by decide)).hasMarks
    have hplaceArg : Whole ("&mut " ++ place) :=
      ((Begins.ofList _ _ rfl).append hplace).whole (by decide)
    refine neat_arguments ?_ ?_ (by decide)
    · exact (((Naming.word_repr_nat number).append (.ofList _)).append hruntime).whole (by decide)
    · exact List.forall_mem_cons.2 ⟨(hkey.append (.ofList _)).whole (by decide),
        List.forall_mem_cons.2 ⟨(hvalue.append (.ofList _)).whole (by decide),
        List.forall_mem_cons.2 ⟨hwireType, List.forall_mem_cons.2 ⟨hplaceArg, hcontext⟩⟩⟩⟩
  | @list number module _ place hmodule hplace =>
    exact neat_line <| ((((((Naming.word_repr_nat number).append (.ofList _)).append
      hmodule.hasMarks).append (.ofList _)).append hplace).append (.ofList _)).whole (by decide)
  | @single number module guard source store hmodule hguard hsource hstore =>
    have hnumber := Naming.word_repr_nat number
    cases hstore with
    | direct hplace =>
      exact neat_line <| (((((hnumber.append (.ofList _)).append hmodule.hasMarks).append
        (.ofList _)).append hplace).append (.ofList _)).whole (by decide)
    | inserted hplace =>
      refine neat_arguments ?_ ?_ (by decide)
      · exact (((hnumber.append (.ofList _)).append hmodule.hasMarks).append (.ofList _)).whole
          (by decide)
      · exact List.forall_mem_cons.2 ⟨hwireType, List.forall_mem_cons.2 ⟨hplace, hcontext⟩⟩
    | wrapped htype hreference honeof hvariant =>
      refine neat_braces ((hnumber.append (.ofList _)).whole (by decide)) ?_
      refine .cons ?_ <| .cons ?_ <| .cons ?_ <| neat_line (.ofList _ _ rfl (by decide))
      · exact (((Begins.ofList _ _ rfl).append htype).append (.ofList _)).whole (by decide)
      · exact (((hmodule.append (.ofList _)).append hreference).append (.ofList _)).whole
          (by decide)
      · exact (((honeof.append (.ofList _)).append hvariant).append (.ofList _)).whole (by decide)

end FieldPlan

namespace Site

section Plans

variable {site : Site}

theorem word_place (name : String) : Word (place name) :=
  (Begins.ofList _ _ rfl).append (Naming.word_fieldIdent name).hasMarks

theorem hasMarks_isSome {pattern place : String} {m : List Char} (hpattern : HasMarks pattern m)
    (hplace : Plain place) : HasMarks (isSome pattern place) (['('] ++ m ++ [')']) := by
  have h : HasMarks (isSome pattern place) _ :=
    (((HasMarks.ofList _).append hpattern).append (.ofList _)).append hplace
  rw [List.append_nil] at h
  exact h

theorem closed_isNonzero (type : FieldType) {place : String} (hplace : Plain place) :
    Closed (isNonzero type place) := by
  unfold isNonzero
  split
  · exact (HasMarks.append hplace (.ofList _)).closed (by decide)
  · exact (HasMarks.append hplace (.ofList _)).closed (by decide)
  · exact (((HasMarks.ofList _).append hplace).append (.ofList _)).closed (by decide)
  · exact (((HasMarks.ofList _).append hplace).append (.ofList _)).closed (by decide)
  · exact hplace.closed
  · exact (HasMarks.append hplace (.ofList _)).closed (by decide)

theorem fits_planMember (h : site.config.KeepsLines) (owner : MessageId) (m : Schema.Message)
    (oneof : Nat) (f : Schema.Field) : (site.planMember owner m oneof f).Fits := by
  have hvariant (name : String) : Plain (oneofPath m name ++ "::" ++ m.variantName oneof f) :=
    ((plain_oneofPath m name).append (by decide)).append (word_variantName m oneof f).hasMarks
  refine .single (word_encodingModule h _) ?_ ?_ ?_
  · exact (hasMarks_isSome (HasMarks.append (hvariant _) (.ofList _))
      (word_place _).hasMarks).closed (by decide)
  · split <;> decide
  · refine .wrapped (site.plain_boxedType owner f) ?_ (word_place _) (hvariant _)
    split <;> decide

theorem fits_planSingle (h : site.config.KeepsLines) (owner : MessageId) (f : Schema.Field) :
    (site.planSingle owner f).Fits := by
  have hplace := word_place f.name
  have hscalar (type : FieldType) : FieldPlan.Fits (.single f.number (site.encodingModule type)
      (isNonzero type (place f.name)) ("&" ++ place f.name) (.direct (place f.name))) :=
    .single (word_encodingModule h _) (closed_isNonzero _ hplace.hasMarks)
      (HasMarks.append (.ofList _) hplace.hasMarks) (.direct hplace.hasMarks)
  rw [planSingle]
  split
  · have hinserted : Whole (place f.name ++
        ".get_or_insert_with(::core::default::Default::default)") :=
      (hplace.append (.ofList _)).whole (by decide)
    refine .single (word_encodingModule h _) ?_ ?_ (.inserted ?_)
    · exact (hasMarks_isSome (.ofList _) hplace.hasMarks).closed (by decide)
    · split <;> decide
    · split
      · exact Whole.append (.ofList _ _ rfl (by decide)) hinserted.toClosed
      · exact hinserted
  · exact hscalar _

/-- **How a field is treated is put into texts that keep lines whole.** -/
theorem fits_plan (h : site.config.KeepsLines) (owner : MessageId) (m : Schema.Message)
    (f : Schema.Field) : (site.plan owner m f).Fits := by
  have hplace := (word_place f.name).hasMarks
  rw [plan]
  split
  · exact .map (word_encodingModule h _) (word_encodingModule h _) hplace
  · exact .list (word_encodingModule h _) hplace
  · exact fits_planMember h _ _ _ _
  · exact fits_planSingle h _ _

end Plans

end Site

/-! ## Names that are shown -/

/-- A letter, a digit, an underscore, a dot or a slash. -/
def Naming.NameChar (c : Char) : Prop := IdentChar c ∨ c = '.' ∨ c = '/'

instance (c : Char) : Decidable (Naming.NameChar c) :=
  inferInstanceAs (Decidable (_ ∨ _))

instance (text : List Char) : Decidable (∀ c ∈ text, Naming.NameChar c) :=
  List.decidableBAll Naming.NameChar text

theorem Naming.plain_of_nameChar {name : String} (h : ∀ c ∈ name.toList, NameChar c) :
    Plain name :=
  plain_iff.2 fun c hc => by
    rcases h c hc with h | rfl | rfl
    · exact h.isMark_eq
    · decide
    · decide

/-- The names that generated code shows as they are written are of letters, digits, underscores,
dots and slashes: those of files, fields and enum values.  All others are shown as identifiers. -/
structure Schema.SimpleNames (s : Schema) : Prop where
  files : ∀ f ∈ s.files, ∀ c ∈ f.source.name.toList, Naming.NameChar c
  fields : ∀ m ∈ s.messages, ∀ f ∈ m.fields, ∀ c ∈ f.name.toList, Naming.NameChar c
  values : ∀ e ∈ s.enums, ∀ v ∈ e.values, ∀ c ∈ v.name.toList, Naming.NameChar c

/-! ## Messages -/

namespace Site

section Messages

variable {site : Site} (m : Schema.Message)

theorem neat_structItem (id : MessageId) : Neat (site.structItem id m) := by
  have hfields : Neat ((m.fields.filter (·.oneof.isNone)).map fun f =>
      .line s!"pub {Naming.fieldIdent f.name}: {site.fieldType id f},") :=
    neat_map fun f _ => (((((Begins.ofList _ _ rfl).append
      (Naming.word_fieldIdent _).hasMarks).append (.ofList _)).append
      (site.plain_fieldType id f)).append (.ofList _)).whole (by decide)
  have honeofs : Neat (m.usedOneofs.map fun o =>
      .line s!"pub {Naming.fieldIdent o.1}: ::core::option::Option<{oneofPath m o.1}>,") :=
    neat_map fun o _ => (((((Begins.ofList _ _ rfl).append
      (Naming.word_fieldIdent _).hasMarks).append (.ofList _)).append
      (plain_oneofPath m o.1)).append (.ofList _)).whole (by decide)
  refine .cons (.ofList _ _ rfl (by decide)) <| neat_braces ?_ (hfields.append honeofs)
  exact ((Begins.ofList _ _ rfl).append (Naming.word_typeIdent _).hasMarks).whole (by decide)

theorem neat_accessor {f : Schema.Field} (hf : Plain f.name) (id : EnumId) :
    Neat (site.accessor f id) := by
  have hident := (Naming.word_fieldIdent f.name).hasMarks
  have hpath := site.plain_enumPath id
  have htype : Plain ((site.schema.enums[id]?).elim "" (·.ident)) := by
    cases site.schema.enums[id]? with
    | none => exact (by decide : Plain "")
    | some e => exact e.word_ident.hasMarks
  have hvalue : Begins (site.enumPath id ++ "::try_from(self.") _ :=
    ⟨HasMarks.append hpath (.ofList _), site.starts_enumPath_append id (by decide)⟩
  refine .cons ?_ <| neat_braces ?_ <| neat_line ?_
  · exact ((((((Begins.ofList _ _ rfl).append hf).append (.ofList _)).append htype).append
      (.ofList _)).append (.ofList _)).whole (by decide)
  · exact ((((Begins.ofList _ _ rfl).append hident).append (.ofList _)).append hpath).whole
      (by decide)
  · exact ((hvalue.append hident).append (.ofList _)).whole (by decide)

theorem neat_accessorItem {item : List Code} (hnames : ∀ f ∈ m.fields, Plain f.name)
    (hitem : item ∈ (site.accessorItem? m).toList) : Neat item := by
  rw [accessorItem?] at hitem
  split at hitem
  · exact absurd hitem List.not_mem_nil
  · obtain rfl := List.mem_singleton.1 hitem
    refine neat_braces ?_ <| neat_items fun part hpart => ?_
    · exact ((Begins.ofList _ _ rfl).append (Naming.word_typeIdent _).hasMarks).whole (by decide)
    · obtain ⟨f, hf, hpart⟩ := List.mem_filterMap.1 hpart
      split at hpart
      · exact Option.some.inj hpart ▸ neat_accessor (hnames f hf) _
      · cases hpart

theorem neat_writeMethod (h : site.config.KeepsLines) {plans : List FieldPlan}
    (hplans : ∀ plan ∈ plans, plan.Fits) : Neat (site.writeMethod plans) := by
  have hruntime : Plain (site.runtime "bytes::BufMut") := (word_runtime h (by decide)).hasMarks
  have hfront : Begins ("fn encode_raw<B: " ++ site.runtime "bytes::BufMut" ++ ">(&self, ") _ :=
    ((Begins.ofList _ _ rfl).append hruntime).append (.ofList _)
  rw [writeMethod]
  split
  · exact neat_line ((hfront.append (.ofList _)).whole (by decide))
  · exact neat_braces ((hfront.append (.ofList _)).whole (by decide)) <|
      neat_flatMap fun plan hplan => (hplans plan hplan).neat_write h .write

theorem neat_readMethod (h : site.config.KeepsLines) {plans : List FieldPlan}
    (hplans : ∀ plan ∈ plans, plan.Fits) : Neat (site.readMethod plans) := by
  have hruntime {path : String} (hpath : Plain path) : Plain (site.runtime path) :=
    (word_runtime h hpath).hasMarks
  have hcontext : Word (if plans.isEmpty then "_ctx" else "ctx") := by
    split
    · exact .ofList _ _ rfl
    · exact .ofList _ _ rfl
  have hafter : Closed (" -> " ++ site.runtime "Result" ++ "<()>") :=
    (((HasMarks.ofList _).append (hruntime (by decide))).append (.ofList _)).closed (by decide)
  let skips := "_ => " ++ site.runtime "wire::skip_field" ++ "(number, wire_type, reader),"
  have hskips : Whole skips :=
    (((Begins.ofList _ _ rfl).append (hruntime (by decide))).append (.ofList _)).whole (by decide)
  have harms : Neat (plans.flatMap (·.arm site) ++ [.line skips]) :=
    (neat_flatMap fun plan hplan => (hplans plan hplan).neat_arm h).append (neat_line hskips)
  have hclosing : ") -> " ++ site.runtime "Result" ++ "<()>" =
      ")" ++ (" -> " ++ site.runtime "Result" ++ "<()>") := by
    simp [← String.toList_inj]
  rw [readMethod, hclosing]
  have hname : Whole "fn merge_field" := .ofList _ _ rfl (by decide)
  refine neat_signature hname ?_ hafter <|
    neat_braces (.ofList _ _ rfl (by decide)) harms
  refine .cons (.ofList _ _ rfl (by decide)) <| .cons (.ofList _ _ rfl (by decide)) <|
    .cons ?_ <| .cons ?_ <| neat_line ?_
  · exact (((Begins.ofList _ _ rfl).append (hruntime (by decide))).append (.ofList _)).whole
      (by decide)
  · exact (((Begins.ofList _ _ rfl).append (hruntime (by decide))).append (.ofList _)).whole
      (by decide)
  · exact (((hcontext.append (.ofList _)).append (hruntime (by decide))).append (.ofList _)).whole
      (by decide)

theorem neat_measureMethod (h : site.config.KeepsLines) {plans : List FieldPlan}
    (hplans : ∀ plan ∈ plans, plan.Fits) : Neat (site.measureMethod plans) := by
  rw [measureMethod]
  refine neat_braces (.ofList _ _ rfl (by decide)) ?_
  split
  · exact neat_line (.ofList _ _ rfl (by decide))
  · refine .cons (.ofList _ _ rfl (by decide)) <| .append (neat_flatMap fun plan hplan => ?_)
      (neat_line (.ofList _ _ rfl (by decide)))
    exact (hplans plan hplan).neat_write h .measure

theorem neat_methodsItem (h : site.config.KeepsLines) (id : MessageId) :
    Neat (site.methodsItem id m) := by
  have hplans : ∀ plan ∈ site.plans id m, plan.Fits := fun plan hplan => by
    obtain ⟨f, -, rfl⟩ := List.mem_map.1 hplan
    exact fits_plan h id m f
  have hruntime : Plain (site.runtime "Message") := (word_runtime h (by decide)).hasMarks
  refine neat_braces ?_ <| neat_items ?_
  · exact ((((Begins.ofList _ _ rfl).append hruntime).append (.ofList _)).append
      (Naming.word_typeIdent _).hasMarks).whole (by decide)
  · exact List.forall_mem_cons.2 ⟨neat_writeMethod h hplans, List.forall_mem_cons.2
      ⟨neat_readMethod h hplans, List.forall_mem_singleton.2 (neat_measureMethod h hplans)⟩⟩

theorem neat_oneofItem (owner : MessageId) (oneof : String × Nat) :
    Neat (site.oneofItem owner m oneof) := by
  refine .cons (.ofList _ _ rfl (by decide)) <| neat_braces ?_ <| neat_map fun v hv => ?_
  · exact ((Begins.ofList _ _ rfl).append (Naming.word_typeIdent _).hasMarks).whole (by decide)
  · exact ((((word_oneofVariant hv).append (.ofList _)).append
      (site.plain_boxedType owner v.1)).append (.ofList _)).whole (by decide)

theorem neat_moduleItem {items : List (List Code)} (hitems : ∀ item ∈ items, Neat item)
    {item : List Code} (hitem : item ∈ (moduleItem? m items).toList) : Neat item := by
  rw [moduleItem?] at hitem
  split at hitem
  · exact absurd hitem List.not_mem_nil
  · obtain rfl := List.mem_singleton.1 hitem
    refine .cons ?_ <| neat_braces ?_ <| neat_items hitems
    · exact (((Begins.ofList _ _ rfl).append (Naming.word_typeIdent _).hasMarks).append
        (.ofList _)).whole (by decide)
    · exact ((Begins.ofList _ _ rfl).append (Naming.plain_moduleIdent _)).whole (by decide)

theorem neat_enumItems (hnames : site.schema.SimpleNames) (ids : List EnumId) :
    ∀ item ∈ site.enumItems ids, Neat item := by
  intro item hitem
  obtain ⟨id, -, hitem⟩ := List.mem_flatMap.1 hitem
  cases he : site.schema.enums[id]? with
  | none =>
    rw [he] at hitem
    exact absurd hitem List.not_mem_nil
  | some e =>
    rw [he] at hitem
    have hvalues := hnames.values e (List.mem_of_getElem? he)
    exact e.neat_code (fun v hv => Naming.plain_of_nameChar (hvalues v hv)) item hitem

/-- **The items of a message are laid out well**, and so is what is nested in it. -/
theorem neat_messageItems {site : Site} (h : site.config.KeepsLines)
    (hnames : site.schema.SimpleNames) (id : MessageId) :
    ∀ item ∈ site.messageItems id, Neat item := by
  induction hrest : site.schema.messages.length - id using Nat.strongRecOn
    generalizing id site with
  | ind rest ih =>
    subst hrest
    intro item hitem
    cases hm : site.schema.messages[id]? with
    | none =>
      rw [messageItems_of_eq_none hm] at hitem
      exact absurd hitem List.not_mem_nil
    | some m =>
      cases hentry : m.isMapEntry with
      | true =>
        rw [messageItems_of_isMapEntry hm hentry] at hitem
        exact absurd hitem List.not_mem_nil
      | false =>
        have hfields := hnames.fields m (List.mem_of_getElem? hm)
        let inner := site.enter (Naming.moduleIdent m.name)
        have hinner : ∀ item ∈ site.innerItems id m, Neat item := by
          refine List.forall_mem_append.2 ⟨List.forall_mem_append.2 ⟨fun item hitem => ?_, ?_⟩, ?_⟩
          · obtain ⟨child, hchild, hitem⟩ := List.mem_flatMap.1 hitem
            have := lt_of_mem_messagesInside hchild
            refine @ih (inner.schema.messages.length - child) ?_ inner h hnames child rfl item hitem
            rw [schema_enter]
            omega
          · exact @neat_enumItems inner hnames _
          · exact List.forall_mem_map.2 fun o _ => neat_oneofItem m id o
        rw [messageItems_eq hm hentry, List.mem_append, List.mem_append, List.mem_append,
          List.mem_singleton, List.mem_singleton] at hitem
        rcases hitem with ((rfl | hitem) | rfl) | hitem
        · exact neat_structItem m id
        · exact neat_accessorItem m (fun f hf => Naming.plain_of_nameChar (hfields f hf)) hitem
        · exact neat_methodsItem m h id
        · exact neat_moduleItem m hinner hitem

end Messages

end Site

/-! ## Files -/

namespace CodeFile

theorem plain_toHex (bytes : Bytes) : Plain bytes.toHex := by
  have hdigit : ∀ n < 16, isMark (Text.hexDigit n) = false := by decide
  refine plain_iff.2 fun c hc => ?_
  rw [Bytes.toHex, String.toList_ofList] at hc
  obtain ⟨b, -, hc⟩ := List.mem_flatMap.1 hc
  have hb := b.toNat_lt
  rcases List.mem_pair.1 hc with rfl | rfl
  · exact hdigit _ (by omega)
  · exact hdigit _ (by omega)

theorem neat_header {s : Schema} (hnames : s.SimpleNames) (config : Config) {file : Schema.File}
    (hfile : file ∈ s.files) : Neat (header config file) := by
  have hname := Naming.plain_of_nameChar (hnames.files file hfile)
  have hnotice : Neat [notice] := neat_line <| (((Begins.ofList _ _ rfl).append
    (by decide : Plain generatorName)).append (.ofList _)).whole (by decide)
  refine .append (.append (hnotice.append <| neat_line ?_) ?_) neat_blank
  · exact ((Begins.ofList _ _ rfl).append hname).whole (by decide)
  · split
    · exact neat_line (((Begins.ofList _ _ rfl).append (plain_toHex _)).whole (by decide))
    · exact neat_nil

/-- **A file is laid out well.** -/
theorem neat_fileCode {s : Schema} (hnames : s.SimpleNames) {config : Config}
    (h : config.KeepsLines) (id : FileId) {file : Schema.File} (hfile : file ∈ s.files) :
    Neat (fileCode s config id file) := by
  refine (neat_header hnames config hfile).append <| neat_items ?_
  refine List.forall_mem_append.2 ⟨fun item hitem => ?_, Site.neat_enumItems hnames _⟩
  obtain ⟨child, -, hitem⟩ := List.mem_flatMap.1 hitem
  exact Site.neat_messageItems h hnames child item hitem

end CodeFile

end Protowire
