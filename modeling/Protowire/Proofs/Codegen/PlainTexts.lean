import Protowire.Proofs.Codegen.EnumIdents
import Protowire.Proofs.Codegen.MemberNames
import Protowire.Proofs.Codegen.Paths
import Protowire.Proofs.Text.Brackets

/-!
# Proofs/Codegen/PlainTexts — what generated lines are put together from

Identifiers, numbers, paths and types have no brackets and no line breaks in them, however the names
in the schema are written (`Text.Plain`), and most of them start with a character that is not blank,
so that a line may start with them (`Text.Word`).  The path to the runtime comes from outside: what
leads into the runtime is as plain as that path is.
-/

namespace Protowire

open Schema Text

namespace Text

theorem isMark_iff {c : Char} :
    isMark c = true ↔ c ∈ ['(', '\x7b', ')', '\x7d', '\n'] := by
  have hpartner : (partner? c).isSome = true ↔ c = ')' ∨ c = '\x7d' := by
    unfold partner?
    split <;> simp_all
  simp only [isMark, isBracket, isOpening, Bool.or_eq_true, hpartner, beq_iff_eq, List.mem_cons,
    List.not_mem_nil, or_false, or_assoc]

end Text

/-! ## Identifiers and numbers -/

namespace Naming

theorem IdentChar.isMark_eq {c : Char} (h : IdentChar c) : isMark c = false := by
  refine Bool.eq_false_iff.2 fun hmark => ?_
  have hmem := isMark_iff.1 hmark
  have hnone : ∀ c ∈ ['(', '\x7b', ')', '\x7d', '\n'], ¬ IdentChar c :=
    List.forall_iff_forall_mem.1 (by decide)
  exact hnone c hmem h

theorem IdentChar.isBlank_eq {c : Char} (h : IdentChar c) : isBlank c = false := by
  rcases h with h | rfl
  · have hrange : 48 ≤ c.toNat ∧ c.toNat ≤ 122 := by
      rw [isAlphanum_iff] at h
      simp only [UInt32.le_iff_toNat_le] at h
      change 48 ≤ c.val.toNat ∧ c.val.toNat ≤ 122
      grind
    refine Bool.eq_false_iff.2 fun hblank => ?_
    simp only [isBlank, Bool.or_eq_true, Bool.and_eq_true, decide_eq_true_eq, beq_iff_eq] at hblank
    omega
  · decide

theorem plain_of_identChar {text : String} (h : ∀ c ∈ text.toList, IdentChar c) : Plain text :=
  plain_iff.2 fun c hc => (h c hc).isMark_eq

/-- Paths are of the characters of identifiers and of colons. -/
theorem plain_of_identChar_or_colon {text : String}
    (h : ∀ c ∈ text.toList, IdentChar c ∨ c = ':') : Plain text :=
  plain_iff.2 fun c hc => by
    rcases h c hc with h | rfl
    · exact h.isMark_eq
    · decide

theorem word_of_identChar {text : String} (h : ∀ c ∈ text.toList, IdentChar c)
    {c : Char} (hc : text.toList.head? = some c) : Word text :=
  ⟨plain_of_identChar h, ⟨c, hc, (h c (List.mem_of_mem_head? hc)).isBlank_eq⟩⟩

theorem word_typeIdent (name : String) : Word (typeIdent name) := by
  obtain ⟨c, hc, -⟩ := exists_head?_typeIdent name
  exact word_of_identChar (fun _ => identChar_of_mem_typeIdent) hc

theorem word_enumVariant (enumName valueName : String) : Word (enumVariant enumName valueName) := by
  obtain ⟨name, hname, -⟩ := exists_enumVariant_eq enumName valueName
  exact hname ▸ word_typeIdent name

theorem plain_moduleIdent (name : String) : Plain (moduleIdent name) :=
  plain_of_identChar fun _ => identChar_of_mem_moduleIdent

theorem word_withStart {ident : List Char} (h : ∀ c ∈ ident, IdentChar c) :
    Word (String.ofList (withStart ident)) := by
  obtain ⟨c, hc, -⟩ := exists_head?_withStart ident
  refine word_of_identChar (c := c) (fun d hd => ?_) (by rw [String.toList_ofList, hc])
  rw [String.toList_ofList] at hd
  exact (mem_withStart hd).elim .inr (h d)

theorem word_fieldIdent (name : String) : Word (fieldIdent name) := by
  have hchars : ∀ c ∈ snake name.toList, IdentChar c := fun _ hc =>
    (smallChar_of_mem_snake hc).identChar
  have hplain : Plain (String.ofList (snake name.toList)) :=
    plain_of_identChar (by rwa [String.toList_ofList])
  dsimp only [fieldIdent]
  split
  · rename_i hunrawable
    have hkeyword := unrawableKeywords_subset (List.contains_iff_mem.1 hunrawable)
    obtain ⟨c, hc, -⟩ := exists_head?_keyword hkeyword
    exact (word_of_identChar (by rwa [String.toList_ofList]) hc).append (by decide)
  · split
    · exact Begins.append (.ofList _ _ rfl) hplain
    · rw [String.toList_ofList]
      exact word_withStart hchars

theorem word_repr_nat (n : Nat) : Word n.repr := by
  have hchars : ∀ c ∈ n.repr.toList, IdentChar c := fun c hc => by
    rw [Nat.repr_eq_ofList_toDigits, String.toList_ofList] at hc
    exact .inl (isAlphanum_of_isDigit (isDigit_of_mem_toDigits c hc))
  have hne : n.repr.toList ≠ [] := by
    rw [Nat.repr_eq_ofList_toDigits, String.toList_ofList]
    exact Nat.toDigits_ne_nil
  obtain ⟨c, rest, hcons⟩ := List.exists_cons_of_ne_nil hne
  exact word_of_identChar hchars (c := c) (by rw [hcons]; rfl)

theorem word_repr_int (n : Int) : Word n.repr := by
  rw [Int.repr_eq_if]
  split
  · exact word_repr_nat _
  · exact Begins.append (.ofList _ _ rfl) (word_repr_nat _).hasMarks

end Naming

theorem plain_intercalate {sep : String} (hsep : Plain sep) {texts : List String}
    (h : ∀ text ∈ texts, Plain text) : Plain (sep.intercalate texts) := by
  refine plain_iff.2 fun c hc => ?_
  rw [String.toList_intercalate] at hc
  rcases Naming.mem_of_mem_intercalate hc with hc | ⟨piece, hpiece, hc⟩
  · exact plain_iff.1 hsep c hc
  · obtain ⟨text, htext, rfl⟩ := List.mem_map.1 hpiece
    exact plain_iff.1 (h text htext) c hc

/-! ## Variants -/

section Variants

open Naming

theorem plain_numberEnding (n : Int) : Plain s!"_{n}" :=
  Plain.append (by decide) (word_repr_int n).hasMarks

theorem word_freshIdent {ending ident : String} (hending : Plain ending) (h : Word ident)
    (used : List String) : Word (freshIdent ending used ident) := by
  obtain ⟨tail, htail, hsub⟩ := exists_freshIdent_eq ending used ident
  rw [htail]
  exact h.append (plain_iff.2 fun c hc => plain_iff.1 hending c (hsub hc))

/-- **The identifiers of variants are plain**, and so are the names they have in the schema if those
of the values are. -/
theorem word_variant (e : Schema.Enum) :
    ∀ v ∈ e.variants, Word v.ident ∧ Word v.target := by
  refine Schema.Enum.variants_induction (e := e)
    (P := fun _ vs => ∀ v ∈ vs, Word v.ident ∧ Word v.target) nofun fun _ before v ih => ?_
  refine List.forall_mem_append.2 ⟨ih, List.forall_mem_singleton.2 ?_⟩
  have hident : Word (Variant.next e.name before v).ident :=
    word_freshIdent (plain_numberEnding _) (word_enumVariant _ _) _
  refine ⟨hident, ?_⟩
  rcases Variant.next_cases e.name before v with ⟨w, hw, -, -, halias⟩ | ⟨halias, -⟩
  · rw [Variant.target, halias]
    exact (ih w hw).1
  · rw [Variant.target, halias]
    exact hident

theorem plain_variant_name {e : Schema.Enum} (h : ∀ v ∈ e.values, Plain v.name) :
    ∀ v ∈ e.variants, Plain v.name := by
  intro v hv
  have hvalue : EnumValueDescriptor.mk v.name v.number ∈ e.values := by
    rw [← e.map_variants]
    exact List.mem_map_of_mem hv
  exact h _ hvalue

theorem word_oneofVariant {m : Schema.Message} {oneof : Nat} {v : Schema.Field × String}
    (hv : v ∈ m.oneofVariants oneof) : Word v.2 := by
  obtain ⟨f, -, hname | hname⟩ := exists_of_mem_nameMembers (List.mem_map_of_mem hv)
  · exact hname ▸ word_typeIdent _
  · exact hname ▸ (word_typeIdent _).append (word_repr_nat _).hasMarks

theorem word_variantName (m : Schema.Message) (oneof : Nat) (f : Schema.Field) :
    Word (m.variantName oneof f) := by
  rw [Message.variantName]
  cases hfound : (m.oneofVariants oneof).find? fun v => v.1.number == f.number with
  | none => exact word_typeIdent _
  | some v => exact word_oneofVariant (List.mem_of_find?_eq_some hfound)

end Variants

/-! ## Paths and types -/

/-- What the configuration puts into generated lines keeps them lines: the path to the runtime has
no brackets and no line breaks in it and does not start with a blank, and what a level is indented
by closes the brackets it opens. -/
structure Config.KeepsLines (config : Config) : Prop where
  runtimePath : Plain config.runtimePath
  runtimeHead : ∀ c, config.runtimePath.toList.head? = some c → isBlank c = false
  indent : Closed config.indent

namespace Site

variable (site : Site)

theorem identChar_or_colon_typePath {file : FileId} {parent : Option MessageId} {name : String}
    {c : Char} (hc : c ∈ ("::".intercalate (site.typePath file parent name)).toList) :
    Naming.IdentChar c ∨ c = ':' := by
  rw [String.toList_intercalate] at hc
  rcases Naming.mem_of_mem_intercalate hc with hc | ⟨piece, hpiece, hc⟩
  · exact .inr (by simpa using hc)
  · obtain ⟨segment, hsegment, rfl⟩ := List.mem_map.1 hpiece
    exact .inl (identChar_of_mem_typePath hsegment c hc)

theorem plain_messagePath (id : MessageId) : Plain (site.messagePath id) := by
  rw [messagePath]
  cases site.schema.messages[id]? with
  | none => exact (by decide : Plain "")
  | some m =>
    exact Naming.plain_of_identChar_or_colon fun _ hc => identChar_or_colon_typePath site hc

theorem identChar_or_colon_enumPath {id : EnumId} {c : Char} (hc : c ∈ (site.enumPath id).toList) :
    Naming.IdentChar c ∨ c = ':' := by
  rw [enumPath] at hc
  cases he : site.schema.enums[id]? with
  | none =>
    rw [he] at hc
    exact absurd hc List.not_mem_nil
  | some e =>
    rw [he] at hc
    exact identChar_or_colon_typePath site hc

theorem plain_enumPath (id : EnumId) : Plain (site.enumPath id) :=
  Naming.plain_of_identChar_or_colon fun _ hc => identChar_or_colon_enumPath site hc

theorem starts_enumPath_append (id : EnumId) {text : String} (h : Starts text) :
    Starts (site.enumPath id ++ text) :=
  h.append_left fun c hc => by
    rcases identChar_or_colon_enumPath site (List.mem_of_mem_head? hc) with h | rfl
    · exact h.isBlank_eq
    · decide

theorem plain_scalarType (kind : Scalar) : Plain (scalarType kind) := by
  cases kind <;> decide

theorem plain_valueType (type : FieldType) : Plain (site.valueType type) := by
  cases type with
  | scalar kind => exact plain_scalarType kind
  | enumeration id => exact (by decide : Plain "i32")
  | message id => exact site.plain_messagePath id

theorem plain_boxedType (owner : MessageId) (f : Schema.Field) :
    Plain (site.boxedType owner f) := by
  dsimp only [boxedType]
  split
  · exact (Plain.append (by decide) (site.plain_valueType f.type)).append (by decide)
  · exact site.plain_valueType f.type

theorem plain_fieldType (owner : MessageId) (f : Schema.Field) :
    Plain (site.fieldType owner f) := by
  have hvalue := site.plain_valueType
  rw [fieldType]
  cases f.map with
  | some entry =>
    have hkey := plain_scalarType entry.key
    have hmap : Plain (if site.config.btreeMap then "BTreeMap" else "HashMap") := by
      split <;> decide
    exact ((((Plain.append (by decide) hmap).append (by decide)).append hkey).append
      (by decide)).append (hvalue entry.value) |>.append (by decide)
  | none =>
    dsimp only
    split
    · exact (Plain.append (by decide) (hvalue _)).append (by decide)
    · split
      · exact (Plain.append (by decide) (site.plain_boxedType owner f)).append (by decide)
      · exact hvalue _

theorem plain_oneofPath (m : Schema.Message) (oneof : String) : Plain (oneofPath m oneof) :=
  ((Naming.plain_moduleIdent _).append (by decide)).append (Naming.word_typeIdent _).hasMarks

variable {site}

theorem word_runtime (h : site.config.KeepsLines) {path : String} (hpath : Plain path) :
    Word (site.runtime path) where
  hasMarks := (h.runtimePath.append (by decide)).append hpath
  starts := ((Starts.append_left h.runtimeHead (by decide)).append path)

theorem word_encodingModule (h : site.config.KeepsLines) (type : FieldType) :
    Word (site.encodingModule type) := by
  refine word_runtime h (Plain.append (by decide) ?_)
  cases type with
  | scalar kind => cases kind <;> decide
  | enumeration id => exact (by decide : Plain "enumeration")
  | message id => exact (by decide : Plain "message")

end Site

end Protowire
