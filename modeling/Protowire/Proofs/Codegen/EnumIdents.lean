import Protowire.Proofs.Codegen.EnumVariants
import Protowire.Proofs.Naming.Legal

/-!
# Proofs/Codegen/EnumIdents — which identifiers of an enum are legal

A value of an enum keeps the identifier of its name where that is free, and has its number behind
the identifier where it is taken, as often as it takes (`exists_freshIdent_eq`).  A name with a
letter or a digit has a legal identifier, and **an identifier with a number behind it is legal when
the number is not negative**: a negative one has a minus sign in it.
-/

namespace Protowire

/-! ## Endings -/

section FreshIdent

variable {ending ident : String} {used : List String}

/-- What comes behind an identifier until it is free is made of the ending. -/
theorem exists_freshIdent_eq (ending : String) (used : List String) (ident : String) :
    ∃ tail, freshIdent ending used ident = ident ++ tail ∧ tail.toList ⊆ ending.toList := by
  fun_induction freshIdent ending used ident with
  | case1 used ident h _ ih =>
    obtain ⟨tail, htail, hsub⟩ := ih
    refine ⟨ending ++ tail, by rw [htail, String.append_assoc], ?_⟩
    rw [String.toList_append]
    exact List.append_subset.2 ⟨List.Subset.refl _, hsub⟩
  | case2 used ident h =>
    refine ⟨"", String.append_empty.symm, ?_⟩
    exact List.nil_subset _

/-- Where the identifier is free, nothing comes behind it. -/
theorem freshIdent_of_notMem (h : ident ∉ used) : freshIdent ending used ident = ident := by
  rw [freshIdent, dif_neg h]

/-- Where the identifier is taken, all of the ending comes behind it. -/
theorem exists_freshIdent_of_mem (h : ident ∈ used) :
    ∃ tail, freshIdent ending used ident = ident ++ tail ∧
      ∀ c, c ∈ tail.toList ↔ c ∈ ending.toList := by
  rw [freshIdent, dif_pos h]
  obtain ⟨tail, htail, hsub⟩ := exists_freshIdent_eq ending (used.erase ident) (ident ++ ending)
  refine ⟨ending ++ tail, by rw [htail, String.append_assoc], fun c => ?_⟩
  rw [String.toList_append, List.mem_append]
  exact or_iff_left_of_imp (@hsub c)

end FreshIdent

/-! ## Numbers behind identifiers -/

section Numbers

open Naming

theorem toList_numberEnding (n : Int) : (s!"_{n}").toList = '_' :: n.repr.toList := by
  simp [toString]

/-- A number may stand in an identifier unless it is negative. -/
theorem forall_identChar_numberEnding_iff {n : Int} :
    (∀ c ∈ (s!"_{n}").toList, IdentChar c) ↔ 0 ≤ n := by
  rw [toList_numberEnding, List.forall_mem_cons, and_iff_right (.inr rfl), Int.repr_eq_if]
  split
  · rename_i hn
    refine iff_of_true (fun c hc => ?_) hn
    rw [Nat.repr_eq_ofList_toDigits, String.toList_ofList] at hc
    exact .inl (isAlphanum_of_isDigit (isDigit_of_mem_toDigits c hc))
  · rename_i hn
    refine iff_of_false (fun h => ?_) hn
    have hminus : '-' ∈ ("-" ++ (-n).toNat.repr).toList := by
      rw [String.toList_append]
      exact List.mem_append_left _ List.mem_cons_self
    exact absurd (h _ hminus) (by decide)

/-- **A free identifier is legal** when it was free at once and the name has a letter or a digit, or
when the number that was put behind it is not negative. -/
theorem legalIdent_freshIdent_iff (enumName valueName : String) (n : Int) (used : List String) :
    LegalIdent (freshIdent s!"_{n}" used (enumVariant enumName valueName)) ↔
      if enumVariant enumName valueName ∈ used then 0 ≤ n else HasLetterOrDigit valueName := by
  split
  · rename_i htaken
    obtain ⟨tail, htail, hmem⟩ := @exists_freshIdent_of_mem s!"_{n}" _ _ htaken
    obtain ⟨name, hident, -⟩ := exists_enumVariant_eq enumName valueName
    rw [htail, hident, ← forall_identChar_numberEnding_iff]
    simp only [← hmem]
    constructor
    · intro h c hc
      exact h.chars c (by rw [String.toList_append]; exact List.mem_append_right _ hc)
    · intro h
      refine legalIdent_append (fun _ => identChar_of_mem_typeIdent) ?_ h ?_
      · exact exists_head?_typeIdent name
      · exact (hmem _).2 (by rw [toList_numberEnding]; exact List.mem_cons_self)
  · rename_i hfree
    rw [freshIdent_of_notMem hfree, legalIdent_enumVariant_iff]

end Numbers

/-! ## The variants of an enum -/

namespace Schema.Enum

variable {e : Schema.Enum}

/-- A variant has the first identifier that those before it left free. -/
theorem ident_eq {before after : List Variant} {v : Variant}
    (h : e.variants = before ++ v :: after) :
    v.ident = freshIdent s!"_{v.number.toInt}" (before.map (·.ident))
      (Naming.enumVariant e.name v.name) := by
  have hall : ∀ before v after, e.variants = before ++ v :: after →
      v.ident = freshIdent s!"_{v.number.toInt}" (before.map (·.ident))
        (Naming.enumVariant e.name v.name) :=
    variants_induction (P := fun _ vs => ∀ before v after, vs = before ++ v :: after →
        v.ident = freshIdent s!"_{v.number.toInt}" (before.map (·.ident))
          (Naming.enumVariant e.name v.name))
      (fun _ _ _ h => absurd h.symm (List.append_ne_nil_of_right_ne_nil _ (List.cons_ne_nil _ _)))
      fun values before v ih => forall_split_concat.2 ⟨ih, rfl⟩
  exact hall before v after h

/-- **Which identifiers of an enum are legal.**  Where the identifier of a value is free, it is
legal when the name of the value has a letter or a digit; where it is taken by a value before, it is
legal when the number behind it is not negative. -/
theorem variant_legal_iff {before after : List Variant} {v : Variant}
    (h : e.variants = before ++ v :: after) :
    Naming.LegalIdent v.ident ↔
      if Naming.enumVariant e.name v.name ∈ before.map (·.ident) then 0 ≤ v.number.toInt
      else Naming.HasLetterOrDigit v.name := by
  rw [ident_eq h]
  exact legalIdent_freshIdent_iff _ _ _ _

/-- An enum whose values have one identifier two by two: one pair has a negative number. -/
def sign : Schema.Enum where
  name := "Sign"
  fullName := "Sign"
  file := 0
  parent := none
  values := [⟨"ZERO", 0⟩, ⟨"SIGN_PLUS", 1⟩, ⟨"PLUS", 1⟩, ⟨"SIGN_MINUS", -1⟩, ⟨"MINUS", -1⟩]

/-- A value whose identifier is taken has a legal one by its number. -/
theorem variant_legal_iff_sign :
    sign.variants.map (·.ident) = ["Zero", "Plus", "Plus_1", "Minus", "Minus_-1"] ∧
    ∃ before v after, sign.variants = before ++ v :: after ∧ v.ident = "Plus_1" ∧
      Naming.enumVariant sign.name v.name ∈ before.map (·.ident) ∧ Naming.LegalIdent v.ident := by
  have hsplit : sign.variants = sign.variants.take 2 ++
      ⟨"PLUS", "Plus_1", 1, some "Plus"⟩ :: sign.variants.drop 3 := by decide +kernel
  have htaken : Naming.enumVariant sign.name "PLUS" ∈ (sign.variants.take 2).map (·.ident) := by
    decide +kernel
  refine ⟨by decide +kernel, _, _, _, hsplit, rfl, htaken, (variant_legal_iff hsplit).2 ?_⟩
  rw [if_pos htaken]
  decide

/-- **A negative number makes an identifier that is not legal**, though all names are of letters and
underscores. -/
theorem variant_not_legal :
    (Naming.HasLetterOrDigit sign.name ∧ ∀ c ∈ sign.name.toList, Naming.IdentChar c) ∧
    (∀ value ∈ sign.values,
      Naming.HasLetterOrDigit value.name ∧ ∀ c ∈ value.name.toList, Naming.IdentChar c) ∧
    ∃ v ∈ sign.variants, v.ident = "Minus_-1" ∧ ¬ Naming.LegalIdent v.ident := by
  refine ⟨by decide, by decide, ⟨"MINUS", "Minus_-1", -1, some "Minus"⟩, by decide +kernel, rfl, ?_⟩
  exact fun h => absurd (h.chars '-' (by decide)) (by decide)

end Schema.Enum

end Protowire
