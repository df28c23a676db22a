import Mathlib.Data.List.Duplicate
import Protowire.Naming.Repeated

/-!
# Proofs/Naming/Repeated — rows with and without repetitions

A row without its repetitions keeps of each entry the place where it first comes
(`pairwise_idxOf_eraseDups`), and what `firstRepeated?` finds stands at two places of the row
(`mem_of_firstRepeated?_eq_some`).
-/

namespace Protowire

variable {α β : Type}

/-! ## Without repetitions -/

section EraseDups

variable [BEq α]

/-- What holds of the empty row, and of a row when it holds of what is left without the repetitions
of its first entry, holds of all rows. -/
@[elab_as_elim]
theorem filterInduction {P : List α → Prop} (nil : P [])
    (cons : ∀ a l, P (l.filter fun b => !b == a) → P (a :: l)) : (l : List α) → P l
  | [] => nil
  | a :: l => cons a l (filterInduction nil cons (l.filter fun b => !b == a))
termination_by l => l.length
decreasing_by exact Nat.lt_succ_of_le (List.length_filter_le _ _)

theorem eraseDups_sublist (l : List α) : l.eraseDups.Sublist l := by
  induction l using filterInduction with
  | nil => exact .slnil
  | cons a l ih =>
    rw [List.eraseDups_cons]
    exact .cons_cons a (ih.trans List.filter_sublist)

variable [LawfulBEq α]

/-- Entries that are kept come in the order they had. -/
theorem idxOf_lt_of_filter {p : α → Bool} {l : List α} {a b : α} (ha : p a = true)
    (hb : p b = true) (h : (l.filter p).idxOf a < (l.filter p).idxOf b) :
    l.idxOf a < l.idxOf b := by
  induction l with
  | nil => exact h
  | cons c l ih =>
    by_cases hc : p c = true
    · rw [List.filter_cons_of_pos hc, List.idxOf_cons, List.idxOf_cons] at h
      rw [List.idxOf_cons, List.idxOf_cons]
      grind
    · have hca : c ≠ a := fun hca => hc (hca ▸ ha)
      have hcb : c ≠ b := fun hcb => hc (hcb ▸ hb)
      rw [List.filter_cons_of_neg hc] at h
      rw [List.idxOf_cons_ne _ hca, List.idxOf_cons_ne _ hcb]
      exact Nat.succ_lt_succ (ih h)

/-- **Without repetitions, entries stand in the order in which they first came.** -/
theorem pairwise_idxOf_eraseDups (l : List α) :
    l.eraseDups.Pairwise fun a b => l.idxOf a < l.idxOf b := by
  induction l using filterInduction with
  | nil => exact .nil
  | cons a l ih =>
    have hkept : ∀ {b}, b ∈ (l.filter fun b => !b == a).eraseDups → (!b == a) = true :=
      fun hb => (List.mem_filter.1 (List.mem_eraseDups.1 hb)).2
    have hother : ∀ {b}, b ∈ (l.filter fun b => !b == a).eraseDups → a ≠ b := fun hb hsame => by
      have hne := hkept hb
      rw [hsame, beq_self_eq_true] at hne
      cases hne
    rw [List.eraseDups_cons]
    refine .cons (fun b hb => ?_) (ih.imp_of_mem fun hb hc h => ?_)
    · rw [List.idxOf_cons_self, List.idxOf_cons_ne _ (hother hb)]
      exact Nat.succ_pos _
    · rw [List.idxOf_cons_ne _ (hother hb), List.idxOf_cons_ne _ (hother hc)]
      exact Nat.succ_lt_succ (idxOf_lt_of_filter (hkept hb) (hkept hc) h)

theorem nodup_eraseDups (l : List α) : l.eraseDups.Nodup := by
  refine (pairwise_idxOf_eraseDups l).imp ?_
  rintro a _ h rfl
  exact Nat.lt_irrefl _ h

end EraseDups

/-! ## With repetitions -/

/-- What a map repeats comes from two entries. -/
theorem exists_of_duplicate_map {f : α → β} {l : List α} (hl : l.Nodup) {y : β}
    (h : List.Duplicate y (l.map f)) : ∃ a ∈ l, ∃ b ∈ l, a ≠ b ∧ f a = y ∧ f b = y := by
  induction l with
  | nil => exact absurd h (List.not_duplicate_nil y)
  | cons a l ih =>
    rw [List.nodup_cons] at hl
    rcases List.duplicate_cons_iff.1 h with ⟨rfl, hmem⟩ | h
    · obtain ⟨b, hb, hsame⟩ := List.mem_map.1 hmem
      exact ⟨a, .head _, b, .tail _ hb, fun hab => hl.1 (hab ▸ hb), rfl, hsame⟩
    · obtain ⟨b, hb, c, hc, hrest⟩ := ih hl.2 h
      exact ⟨b, .tail _ hb, c, .tail _ hc, hrest⟩

/-- What is repeated where an entry is new at the end is repeated before it. -/
theorem duplicate_of_append_singleton {l : List α} {x y : α} (hx : x ∉ l)
    (h : List.Duplicate y (l ++ [x])) : List.Duplicate y l := by
  induction l with
  | nil => exact absurd h (List.not_duplicate_singleton y x)
  | cons a l ih =>
    rw [List.mem_cons, not_or] at hx
    rcases List.duplicate_cons_iff.1 h with ⟨rfl, hmem⟩ | h
    · rcases List.mem_append.1 hmem with hmem | hmem
      · exact .cons_mem hmem
      · exact absurd (List.mem_singleton.1 hmem).symm hx.1
    · exact (ih hx.2 h).duplicate_cons a

namespace Naming

/-- A name found repeated comes twice, or once and among those seen. -/
theorem mem_of_firstRepeated?_eq_some {seen names : List String} {name : String}
    (h : firstRepeated? seen names = some name) :
    name ∈ names ∧ (name ∈ seen ∨ List.Duplicate name names) := by
  induction names generalizing seen with
  | nil => exact absurd h nofun
  | cons first names ih =>
    rw [firstRepeated?] at h
    split at h
    · rename_i hseen
      obtain rfl := Option.some.inj h
      exact ⟨.head _, .inl (List.contains_iff_mem.1 hseen)⟩
    · obtain ⟨hmem, hseen | hdup⟩ := ih h
      · refine ⟨.tail _ hmem, ?_⟩
        rcases List.mem_cons.1 hseen with rfl | hseen
        · exact .inr (.cons_mem hmem)
        · exact .inl hseen
      · exact ⟨.tail _ hmem, .inr (hdup.duplicate_cons _)⟩

end Naming

end Protowire
