/-!
# Message/Budget — how deep payloads may be embedded

A budget is the number of levels that may still be entered.  Each embedded message and each map
entry takes one; when none is left the budget is spent and the next level is refused.
-/

namespace Protowire

/-- The levels of embedded payloads that may still be entered. -/
structure Budget where
  levels : Nat
  deriving DecidableEq, Repr

namespace Budget

/-- The budget of a message unless another one is given. -/
def standard : Budget := ⟨100⟩

/-- Is no further level allowed? -/
def isSpent (budget : Budget) : Bool := budget.levels == 0

/-- The budget one level down. -/
def enter (budget : Budget) : Budget := ⟨budget.levels - 1⟩

end Budget

end Protowire
