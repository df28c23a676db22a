import Protowire.Wire.Scalar

/-!
# Message/KeyMap — values under scalar keys, in key order

A `KeyMap` lists its pairs by strictly rising key, so that two maps with the same pairs are equal
whatever order the pairs arrived in.  `insert` replaces the value of a key that is already there.
-/

namespace Protowire

/-- Values of type `β` under keys of a scalar kind. -/
structure KeyMap (k : Scalar) (β : Type) where
  /-- The pairs, by rising key. -/
  entries : List (k.Value × β)
  /-- No key occurs twice and none is out of order. -/
  sorted : entries.Pairwise fun a b => k.lt a.1 b.1 = true

namespace KeyMap

variable {k : Scalar} {β : Type}

/-- The map without pairs. -/
def empty : KeyMap k β := ⟨[], .nil⟩

/-- A list of pairs with one pair put in its place, or its value put in the place of an old one. -/
def insertEntry (key : k.Value) (value : β) : List (k.Value × β) → List (k.Value × β)
  | [] => [(key, value)]
  | (key', value') :: rest =>
    if k.lt key key' then (key, value) :: (key', value') :: rest
    else if k.lt key' key then (key', value') :: insertEntry key value rest
    else (key', value) :: rest

/-- A key of the new list is the inserted one or a key of the old list. -/
theorem mem_insertEntry {key : k.Value} {value : β} {l : List (k.Value × β)} {p : k.Value × β}
    (h : p ∈ insertEntry key value l) : p.1 = key ∨ ∃ q ∈ l, q.1 = p.1 := by
  induction l with
  | nil => simp_all [insertEntry]
  | cons q rest ih =>
    obtain ⟨key', value'⟩ := q
    unfold insertEntry at h
    split at h
    · rcases List.mem_cons.1 h with rfl | h
      · exact .inl rfl
      · exact .inr ⟨p, h, rfl⟩
    · split at h
      · rcases List.mem_cons.1 h with rfl | h
        · exact .inr ⟨_, List.mem_cons_self, rfl⟩
        · exact (ih h).imp id fun ⟨q, hq, e⟩ => ⟨q, List.mem_cons_of_mem _ hq, e⟩
      · rcases List.mem_cons.1 h with rfl | h
        · exact .inr ⟨_, List.mem_cons_self, rfl⟩
        · exact .inr ⟨p, List.mem_cons_of_mem _ h, rfl⟩

/-- Insertion keeps the order of the keys. -/
theorem sorted_insertEntry (key : k.Value) (value : β) {l : List (k.Value × β)}
    (h : l.Pairwise fun a b => k.lt a.1 b.1 = true) :
    (insertEntry key value l).Pairwise fun a b => k.lt a.1 b.1 = true := by
  induction l with
  | nil => simp [insertEntry]
  | cons q rest ih =>
    obtain ⟨key', value'⟩ := q
    obtain ⟨first, tail⟩ := List.pairwise_cons.1 h
    unfold insertEntry
    split
    · rename_i lower
      refine List.pairwise_cons.2 ⟨fun p hp => ?_, h⟩
      rcases List.mem_cons.1 hp with rfl | hp
      · exact lower
      · exact Scalar.lt_trans lower (first p hp)
    · split
      · rename_i higher
        refine List.pairwise_cons.2 ⟨fun p hp => ?_, ih tail⟩
        rcases mem_insertEntry hp with e | ⟨q, hq, e⟩
        · exact e ▸ higher
        · exact e ▸ first q hq
      · exact List.pairwise_cons.2 ⟨first, tail⟩

/-- The map with a value put under a key, in place of the one that was there. -/
def insert (m : KeyMap k β) (key : k.Value) (value : β) : KeyMap k β :=
  ⟨insertEntry key value m.entries, sorted_insertEntry key value m.sorted⟩

/-- The map of a list of pairs; of two pairs with one key the later one counts. -/
def ofList (pairs : List (k.Value × β)) : KeyMap k β :=
  pairs.foldl (fun m p => m.insert p.1 p.2) empty

end KeyMap

end Protowire
