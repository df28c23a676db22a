import Protowire.Message.KeyMap
import Protowire.Proofs.Wire.Scalar

/-!
# Proofs/Message/KeyMap — a map is given by the value it has under each key

Inserting a pair changes what stands under its key and nothing else (`find?_insert`), so under each
key the last of the pairs that were inserted counts (`find?_insertAll`).  Two maps with the same
value under every key are equal (`eq_of_find?`).  Hence pairs with distinct keys may be inserted in
any order (`insertAll_of_perm`), and a map whose pairs are put into an empty one is that map
(`empty_update`).
-/

namespace Protowire.KeyMap

variable {k : Scalar} {β : Type}

/-- Pairs with different keys. -/
abbrev Apart (p q : k.Value × β) : Prop := p.1 ≠ q.1

/-- A map is given by its pairs. -/
@[ext] theorem ext {m m' : KeyMap k β} (h : m.entries = m'.entries) : m = m' := by
  obtain ⟨l, hl⟩ := m
  obtain ⟨l', hl'⟩ := m'
  obtain rfl : l = l' := h
  rfl

/-- The keys of a map are distinct. -/
theorem pairwise_apart (m : KeyMap k β) : m.entries.Pairwise Apart := m.sorted.imp Scalar.ne_of_lt

/-- The value under a key. -/
def find? (m : KeyMap k β) (key : k.Value) : Option β := m.entries.lookup key

/-- The map with pairs put into it one after the other. -/
def insertAll (m : KeyMap k β) (pairs : List (k.Value × β)) : KeyMap k β :=
  pairs.foldl (fun m p => m.insert p.1 p.2) m

/-- The map with the pairs of another one put into it. -/
def update (m m' : KeyMap k β) : KeyMap k β := m.insertAll m'.entries

/-! ## What stands under a key -/

theorem lookup_cons_eq_ite (key key' : k.Value) (value : β) (l : List (k.Value × β)) :
    ((key', value) :: l).lookup key = if key = key' then some value else l.lookup key := by
  rw [List.lookup_cons]
  by_cases h : key = key'
  · rw [h, beq_self_eq_true, if_pos rfl]
  · rw [beq_false_of_ne h, if_neg h]

/-- A pair that is put among others stands under its key, and the others under theirs. -/
theorem lookup_insertEntry (key : k.Value) (value : β) (l : List (k.Value × β)) (key' : k.Value) :
    (insertEntry key value l).lookup key' = if key' = key then some value else l.lookup key' := by
  induction l with
  | nil => exact lookup_cons_eq_ite key' key value []
  | cons q rest ih =>
    obtain ⟨key₁, value₁⟩ := q
    rw [insertEntry]
    split
    · exact lookup_cons_eq_ite key' key value _
    · rename_i hlower
      split
      · rename_i hhigher
        have hne : key₁ ≠ key := Scalar.ne_of_lt hhigher
        rw [lookup_cons_eq_ite, lookup_cons_eq_ite, ih]
        by_cases heq : key' = key₁
        · rw [if_pos heq, if_pos heq, if_neg (heq ▸ hne)]
        · rw [if_neg heq, if_neg heq]
      -- The key is there already.
      · rename_i hhigher
        obtain rfl : key = key₁ := Scalar.eq_of_not_lt (Bool.eq_false_iff.2 hlower)
          (Bool.eq_false_iff.2 hhigher)
        rw [lookup_cons_eq_ite, lookup_cons_eq_ite]
        by_cases heq : key' = key
        · rw [if_pos heq, if_pos heq]
        · rw [if_neg heq, if_neg heq, if_neg heq]

/-- **A pair that is inserted stands under its key, and nothing else changes.** -/
theorem find?_insert (m : KeyMap k β) (key : k.Value) (value : β) (key' : k.Value) :
    (m.insert key value).find? key' = if key' = key then some value else m.find? key' :=
  lookup_insertEntry key value m.entries key'

/-- **The last of the pairs with a key counts**, and where there is none, what was there before. -/
theorem find?_insertAll (m : KeyMap k β) (pairs : List (k.Value × β)) (key : k.Value) :
    (m.insertAll pairs).find? key = (pairs.reverse.lookup key).or (m.find? key) := by
  induction pairs generalizing m with
  | nil => rfl
  | cons p pairs ih =>
    have hinsert : (m.insert p.1 p.2).find? key = ([p].lookup key).or (m.find? key) := by
      rw [find?_insert, lookup_cons_eq_ite]
      split <;> rfl
    have hrest : (m.insertAll (p :: pairs)).find? key
        = (pairs.reverse.lookup key).or ((m.insert p.1 p.2).find? key) := ih (m.insert p.1 p.2)
    rw [hrest, hinsert, List.reverse_cons, List.lookup_append, Option.or_assoc]

/-! ## Pairs with distinct keys -/

/-- A pair is found by its key when no other pair has that key. -/
theorem lookup_eq_some_iff_mem {l : List (k.Value × β)} (h : l.Pairwise Apart) {key : k.Value}
    {value : β} : l.lookup key = some value ↔ (key, value) ∈ l := by
  induction l with
  | nil => simp
  | cons p l ih =>
    obtain ⟨key', value'⟩ := p
    obtain ⟨hfirst, hrest⟩ := List.pairwise_cons.1 h
    rw [lookup_cons_eq_ite, List.mem_cons, ← ih hrest]
    by_cases heq : key = key'
    · have hnone : l.lookup key ≠ some value := fun hmem =>
        hfirst _ ((ih hrest).1 hmem) heq.symm
      simp [heq ▸ hnone, heq, eq_comm]
    · simp [heq]

/-- **Of pairs with distinct keys the order does not matter.** -/
theorem lookup_eq_of_perm {l l' : List (k.Value × β)} (h : l.Perm l') (hl : l.Pairwise Apart)
    (key : k.Value) : l.lookup key = l'.lookup key := by
  refine Option.ext fun value => ?_
  rw [lookup_eq_some_iff_mem hl, lookup_eq_some_iff_mem (h.pairwise hl Ne.symm), h.mem_iff]

/-- **Maps with the same value under every key are equal.** -/
theorem eq_of_find? {m m' : KeyMap k β} (h : ∀ key, m.find? key = m'.find? key) : m = m' := by
  have hmem : ∀ p, p ∈ m.entries ↔ p ∈ m'.entries := fun p => by
    rw [← lookup_eq_some_iff_mem m.pairwise_apart, ← lookup_eq_some_iff_mem m'.pairwise_apart]
    exact Eq.congr_left (h p.1)
  have hnodup : ∀ m : KeyMap k β, m.entries.Nodup := fun m =>
    m.pairwise_apart.imp fun hne heq => hne (congrArg Prod.fst heq)
  refine ext (((List.perm_ext_iff_of_nodup (hnodup m) (hnodup m')).2 hmem).eq_of_pairwise
    (fun p q _ _ hpq hqp => ?_) m.sorted m'.sorted)
  -- Two keys that come before each other do not exist.
  exact absurd rfl (Scalar.ne_of_lt (Scalar.lt_trans hpq hqp))

/-- **The pairs of a map may be inserted in any order.** -/
theorem insertAll_of_perm (m : KeyMap k β) {m' : KeyMap k β} {pairs : List (k.Value × β)}
    (h : pairs.Perm m'.entries) : m.insertAll pairs = m.update m' := by
  refine eq_of_find? fun key => ?_
  have hreverse : pairs.reverse.Perm m'.entries.reverse :=
    (List.reverse_perm pairs).trans (h.trans (List.reverse_perm m'.entries).symm)
  have happart : pairs.reverse.Pairwise Apart :=
    ((List.reverse_perm pairs).trans h).symm.pairwise m'.pairwise_apart Ne.symm
  rw [update, find?_insertAll, find?_insertAll, lookup_eq_of_perm hreverse happart]

/-- **A map that is updated has the new value under a key, or else the old one.** -/
theorem find?_update (m m' : KeyMap k β) (key : k.Value) :
    (m.update m').find? key = (m'.find? key).or (m.find? key) := by
  have hreverse : m'.find? key = m'.entries.reverse.lookup key :=
    lookup_eq_of_perm (List.reverse_perm m'.entries).symm m'.pairwise_apart key
  rw [update, find?_insertAll, hreverse]

/-- A map is put together from its pairs. -/
theorem empty_update (m : KeyMap k β) : empty.update m = m :=
  eq_of_find? fun key => by
    rw [find?_update]
    exact Option.or_none

end Protowire.KeyMap
