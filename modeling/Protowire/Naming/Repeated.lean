/-!
# Naming/Repeated — names that come twice

`firstRepeated?` finds the first name in a row that an earlier one repeats; there is none exactly
when all names are different.
-/

namespace Protowire.Naming

/-- The first name, in order, that is in `seen` or comes before it in the row. -/
def firstRepeated? : (seen names : List String) → Option String
  | _, [] => none
  | seen, name :: names =>
    if seen.contains name then some name else firstRepeated? (name :: seen) names

/-- **No name is repeated when all are different**, from one another and from those in `seen`. -/
theorem firstRepeated?_eq_none_iff {seen names : List String} :
    firstRepeated? seen names = none ↔ names.Nodup ∧ ∀ name ∈ names, name ∉ seen := by
  induction names generalizing seen with
  | nil => simp [firstRepeated?]
  | cons name names ih =>
    by_cases h : name ∈ seen
    · simp [firstRepeated?, h]
    · simp only [firstRepeated?, List.contains_eq_mem, h, decide_false, Bool.false_eq_true,
        if_false, ih, List.nodup_cons, List.mem_cons, not_or]
      constructor
      · rintro ⟨distinct, away⟩
        refine ⟨⟨fun mem => (away name mem).1 rfl, distinct⟩, ?_⟩
        rintro other (rfl | mem)
        · exact h
        · exact (away other mem).2
      · rintro ⟨⟨fresh, distinct⟩, away⟩
        exact ⟨distinct, fun other mem => ⟨fun same => fresh (same ▸ mem), away other (.inr mem)⟩⟩

end Protowire.Naming
