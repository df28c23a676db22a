import Protowire.Message.Merge

/-!
# Proofs/Message/Layout — what holds of the slots of every message type

A layout is **well-formed** (`Layout.WellFormed`) when no two fields of it share a number, a tag can
carry each number, and only lists of numbers are packed.  The layouts of all message types are
(`MessageType.layout_wellFormed`), and nothing else is asked of the table.
-/

namespace Protowire

/-- May a list of such values be packed? -/
def Element.isPackable : Element → Bool
  | scalar s => s.isPackable
  | message _ => false

/-- Is the slot packed only if its values may be? -/
def Slot.packsNumbers : Slot → Bool
  | field _ _ (.repeated e true) => e.isPackable
  | _ => true

theorem Slot.has_eq_false_iff {slot : Slot} {number : Nat} :
    slot.has number = false ↔ number ∉ slot.numbers := by
  rw [has, List.contains_eq_mem, decide_eq_false_iff_not]

/-- The field numbers of a layout, in order. -/
def Layout.numbers (l : Layout) : List Nat := l.flatMap Slot.numbers

/-- A number that is not of a layout is neither of its first slot nor of the others. -/
theorem Layout.of_not_mem_numbers_cons {slot : Slot} {l : Layout} {number : Nat}
    (h : number ∉ Layout.numbers (slot :: l)) : slot.has number = false ∧ number ∉ l.numbers :=
  ⟨Slot.has_eq_false_iff.2 fun hmem => h (List.mem_append_left l.numbers hmem),
    fun hmem => h (List.mem_append_right slot.numbers hmem)⟩

/-- No two fields share a number, a tag can carry each number, and only numbers are packed. -/
structure Layout.WellFormed (l : Layout) : Prop where
  distinct : l.numbers.Nodup
  valid : ∀ n ∈ l.numbers, 1 ≤ n ∧ n ≤ FieldNumber.max
  packs : ∀ slot ∈ l, slot.packsNumbers = true

namespace Layout.WellFormed

variable {slot : Slot} {l : Layout}

/-- The numbers of one slot are distinct. -/
theorem nodup_head (h : WellFormed (slot :: l)) : slot.numbers.Nodup :=
  (List.nodup_append.1 h.distinct).1

theorem tail (h : WellFormed (slot :: l)) : WellFormed l where
  distinct := (List.nodup_append.1 h.distinct).2.1
  valid n hn := h.valid n (List.mem_append_right slot.numbers hn)
  packs slot' hslot' := h.packs slot' (List.mem_cons_of_mem slot hslot')

/-- **The first slot has no field of a later one.** -/
theorem has_eq_false (h : WellFormed (slot :: l)) {number : Nat} (hmem : number ∈ l.numbers) :
    slot.has number = false :=
  Slot.has_eq_false_iff.2 fun hfirst =>
    (List.nodup_append.1 h.distinct).2.2 number hfirst number hmem rfl

end Layout.WellFormed

/-- **The layout of every message type is well-formed.** -/
theorem MessageType.layout_wellFormed (t : MessageType) : Layout.WellFormed t.layout := by
  cases t <;> exact ⟨by decide, by decide, by decide⟩

/-- Members with distinct numbers are told apart by them. -/
theorem Member.eq_of_number_eq {members : List Member} (h : (members.map (·.number)).Nodup)
    {m m' : Member} (hm : m ∈ members) (hm' : m' ∈ members) (heq : m.number = m'.number) :
    m = m' := by
  have hne : members.Pairwise fun a b => a.number ≠ b.number := List.pairwise_map.1 h
  exact List.Pairwise.forall_of_forall_of_flip (R := fun a b => a.number = b.number → a = b)
    (fun _ _ _ => rfl) (hne.imp fun hab h => absurd h hab)
    (hne.imp fun hab h => absurd h.symm hab) hm hm' heq

/-- **A member of a oneof is found by its number.** -/
theorem Member.find?_number {members : List Member} (h : (members.map (·.number)).Nodup)
    {m : Member} (hm : m ∈ members) : find? m.number members = some ⟨m, hm⟩ := by
  have hsome : (find? m.number members).isSome :=
    List.find?_isSome.2 ⟨⟨m, hm⟩, List.mem_attach members ⟨m, hm⟩, beq_self_eq_true m.number⟩
  obtain ⟨⟨m', hm'⟩, hfound⟩ := Option.isSome_iff_exists.1 hsome
  have hnumber : (m'.number == m.number) = true :=
    List.find?_some (p := fun a : { m : Member // m ∈ members } => a.1.number == m.number) hfound
  obtain rfl : m' = m := eq_of_number_eq h hm' hm (eq_of_beq hnumber)
  exact hfound

end Protowire
