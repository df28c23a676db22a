import Protowire.Codegen.Variant
import Protowire.Proofs.Schema.Coherent

/-!
# Proofs/Codegen/Members — the members of a oneof are the fields in it

The generator goes from a oneof to its members by the positions it lists; the fields name their
oneof.  Where a message lists its members (`Message.ListsMembers`) both ways lead to the same:
the members are **the fields that name the oneof**, in the order of the message
(`ListsMembers.memberFields_eq`), and a oneof is used when a field names it
(`ListsMembers.mem_usedOneofs`).
-/

namespace Protowire.Schema.Message

variable {m : Message} {k : Nat}

namespace ListsMembers

theorem memberFields_eq (h : m.ListsMembers) :
    m.memberFields k = m.fields.filter (·.oneof == some k) := by
  rw [memberFields, h k, filterMap_findIdxs]

theorem mem_memberFields (h : m.ListsMembers) {f : Field} :
    f ∈ m.memberFields k ↔ f ∈ m.fields ∧ f.oneof = some k := by
  rw [h.memberFields_eq, List.mem_filter, beq_iff_eq]

/-- Members have different numbers when the fields of the message do. -/
theorem nodup_memberFields (h : m.ListsMembers) (hnumbers : (m.fields.map (·.number)).Nodup) :
    ((m.memberFields k).map (·.number)).Nodup := by
  rw [h.memberFields_eq]
  exact hnumbers.sublist (List.filter_sublist.map _)

/-- A oneof is used when a field is in it. -/
theorem mem_usedOneofs (h : m.ListsMembers) {name : String} : (name, k) ∈ m.usedOneofs ↔
    ∃ oneof, m.oneofs[k]? = some oneof ∧ oneof.name = name ∧ ∃ f ∈ m.fields, f.oneof = some k := by
  have hlisted {oneof : Oneof} (ho : m.oneofs[k]? = some oneof) :
      oneof.fields ≠ [] ↔ ∃ f ∈ m.fields, f.oneof = some k := by
    have hfields : oneof.fields = m.fields.findIdxs (·.oneof == some k) := by
      rw [← h k, members, ho, Option.elim_some]
    rw [hfields, ne_eq, List.findIdxs_eq_nil_iff]
    simp
  simp only [usedOneofs, List.mem_map, List.mem_filter, List.mem_zipIdx_iff_getElem?,
    Bool.not_eq_true', List.isEmpty_eq_false_iff, Prod.mk.injEq, Prod.exists]
  constructor
  · rintro ⟨oneof, k, ⟨ho, hne⟩, rfl, rfl⟩
    exact ⟨oneof, ho, rfl, (hlisted ho).1 hne⟩
  · rintro ⟨oneof, ho, rfl, hf⟩
    exact ⟨oneof, k, ⟨ho, (hlisted ho).2 hf⟩, rfl, rfl⟩

end ListsMembers

end Protowire.Schema.Message
