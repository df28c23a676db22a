import Protowire.Schema.Basic

/-!
# Schema/Embedding — which messages lie inside which

A value of a message holds a value of each of its singular message fields, directly or behind an
option; repeated and map fields keep their values elsewhere.  `Schema.search` follows the former from
message to message, the one found last first, and looks into no message twice.

A message may be found many times before it is looked into, so more can be pending than there are
messages.  The search ends because what it adds to what is pending are fields of a message that was
not looked into before: pending messages and fields not followed (`Schema.unfollowed`) are one less
after each step.
-/

namespace Protowire.Schema

/-- The messages a value of a message holds directly. -/
def embeds (s : Schema) (id : MessageId) : List MessageId :=
  (s.messages[id]?).elim [] Message.embeds

/-- What is not a message holds nothing. -/
theorem embeds_eq_nil {s : Schema} {id : MessageId} (h : s.messages.length ≤ id) :
    s.embeds id = [] := by
  rw [embeds, List.getElem?_eq_none h, Option.elim_none]

/-- How many fields the messages below a number have that were not looked into. -/
def unfollowedBelow (s : Schema) (seen : List MessageId) : (bound : MessageId) → Nat
  | 0 => 0
  | id + 1 =>
    s.unfollowedBelow seen id + if seen.contains id then 0 else (s.embeds id).length

/-- How many fields the messages have that were not looked into. -/
def unfollowed (s : Schema) (seen : List MessageId) : Nat :=
  s.unfollowedBelow seen s.messages.length

/-- **To look into a message takes its fields away** from those that were not followed. -/
theorem unfollowed_cons (s : Schema) {seen : List MessageId} {id : MessageId}
    (h : ¬ seen.contains id = true) :
    s.unfollowed (id :: seen) + (s.embeds id).length = s.unfollowed seen := by
  have hbelow : ∀ bound, s.unfollowedBelow (id :: seen) bound +
      (if id < bound then (s.embeds id).length else 0) = s.unfollowedBelow seen bound := by
    intro bound
    induction bound with
    | zero => rfl
    | succ other ih =>
      simp only [unfollowedBelow, List.contains_cons]
      by_cases heq : other = id
      · subst heq
        simp_all
      · have hne : (other == id) = false := beq_false_of_ne heq
        rw [hne, Bool.false_or]
        grind
  have hall := hbelow s.messages.length
  split at hall
  · exact hall
  · rename_i hout
    rw [embeds_eq_nil (Nat.le_of_not_lt hout)]
    exact hall

/-- Is `outer` pending, or inside a message that is?  Messages in `seen` have been looked into. -/
def search (s : Schema) (outer : MessageId) (seen : List MessageId) :
    (pending : List MessageId) → Bool
  | [] => false
  | id :: pending =>
    if id = outer then true
    else if h : seen.contains id then s.search outer seen pending
    else
      have := s.unfollowed_cons h
      s.search outer (id :: seen) ((s.embeds id).reverse ++ pending)
termination_by pending => s.unfollowed seen + pending.length
decreasing_by
  · exact Nat.lt_succ_self _
  · rw [List.length_append, List.length_reverse, List.length_cons]
    omega

/-- Can a value of `inner` hold a value of `outer`? -/
def isRecursive (s : Schema) (outer inner : MessageId) : Bool :=
  s.search outer [] [inner]

end Protowire.Schema
