import Protowire.Proofs.Message.TakeUp

/-!
# Proofs/Message/Concatenation — merging `a ++ b` is merging `a` and then `b`

Bytes after those of a field have no part in it, so a message that has taken up all of `a` stands
where it would stand alone (`Decode.Local`), and what is read of `b` then differs from reading `b`
by itself in the offsets of faults only (`Decode.Shifts`).
-/

namespace Protowire.Message

variable {t : MessageType}

/-- **Concatenation.**  When `m` takes up all of `a` and becomes `m₁`, taking up `a ++ b` is taking
up `b` on top of `m₁`: the same message, or the same fault as far further on as `a` is long. -/
theorem mergeWithin_append (budget : Budget) {m m₁ : Message t} {a : Bytes}
    (h : m.mergeWithin budget a = .ok m₁) (b : Bytes) :
    m.mergeWithin budget (a ++ b) = (m₁.mergeWithin budget b).mapError (·.shift a.length) :=
  Reader.runWindow_untilEmpty_append (Record.mergeNext_consumes budget.below)
    (Record.mergeNext_local budget.below)
    (Record.mergeNext_shifts (budget.below_shifts a.length)) h b

/-- A value, and behind it a tag whose varint is missing. -/
theorem mergeWithin_append_cut_off :
    (Message.empty .test1).mergeWithin .standard [8, 150, 1]
        = .ok (.cons (.plain (150 : Int32)) .nil)
      ∧ (Message.empty .test1).mergeWithin .standard ([8, 150, 1] ++ [8])
        = .error (.malformedVarint 4) := by
  have h : (Message.empty .test1).mergeWithin .standard [8, 150, 1]
      = .ok (.cons (.plain (150 : Int32)) .nil) := rfl
  exact ⟨h, mergeWithin_append .standard h [8]⟩

end Protowire.Message
