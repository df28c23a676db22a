import Protowire.Message.Record
import Protowire.Proofs.Message.KeyMap

/-!
# Proofs/Message/Overlay — one message laid over another

Where the message on top has something, that counts; elsewhere the one below shows through.  A plain
field has something when its value is not zero, an optional field or a oneof when it is set, and
then it covers what is below **as a whole**.  Lists go behind one another, and maps are updated.

An empty record below is covered completely (`Record.empty_overlay`).
-/

namespace Protowire

/-- What a slot holds when `new` is laid over `old`. -/
def Content.overlay : {slot : Slot} → (old new : Content slot) → Content slot
  | .field _ _ (.plain s), .plain v, .plain w => .plain (if w = s.zero then v else w)
  | .field _ _ (.optional _), old, .absent => old
  | .field _ _ (.optional _), _, .present v => .present v
  | .field _ _ (.repeated _ _), .repeated vs, .repeated ws => .repeated (vs.append ws)
  | .field _ _ (.map _ _), .map m, .map m' => .map (m.update m')
  | .oneof _ _, old, .unset => old
  | .oneof _ _, _, .chosen m hm v => .chosen m hm v

/-- A record when `new` is laid over `old`, slot by slot. -/
def Record.overlay : {l : Layout} → (old new : Record l) → Record l
  | _, .nil, .nil => .nil
  | _, .cons c rest, .cons c' rest' => .cons (c.overlay c') (rest.overlay rest')

/-- A message when `new` is laid over `old`. -/
def Message.overlay {t : MessageType} (old new : Message t) : Message t := Record.overlay old new

/-- An empty slot shows nothing through. -/
theorem Content.empty_overlay : ∀ {slot : Slot} (c : Content slot), (empty slot).overlay c = c
  | .field _ _ (.plain s), .plain v => by
    rw [empty, overlay]
    split
    · rename_i hzero
      rw [hzero]
    · rfl
  | .field _ _ (.optional _), .absent => rfl
  | .field _ _ (.optional _), .present _ => rfl
  | .field _ _ (.repeated _ _), .repeated _ => rfl
  | .field _ _ (.map _ _), .map m => congrArg map m.empty_update
  | .oneof _ _, .unset => rfl
  | .oneof _ _, .chosen _ _ _ => rfl

/-- **An empty record shows nothing through.** -/
theorem Record.empty_overlay : ∀ {l : Layout} (r : Record l), (empty l).overlay r = r
  | _, .nil => rfl
  | slot :: l, .cons c rest => by
    have hcons : (empty (slot :: l)).overlay (cons c rest)
        = cons ((Content.empty slot).overlay c) ((empty l).overlay rest) := rfl
    rw [hcons, Content.empty_overlay, empty_overlay rest]

end Protowire
