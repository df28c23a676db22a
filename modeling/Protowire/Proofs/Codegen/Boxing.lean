import Mathlib.Data.Finset.Card
import Mathlib.Order.WellFounded
import Protowire.Codegen.Site
import Protowire.Proofs.Schema.Renumber

/-!
# Proofs/Codegen/Boxing — generated types have a size, and no box is idle

The type of a message holds the types of its singular message fields in place, unless they are boxed
(`Site.HoldsInPlace`).  A field is boxed exactly when its message leads back to the one it stands in
(`Site.isBoxed_iff`), so along an unboxed field the messages that lie inside become fewer: the one
the field stands in is no longer among them (`Site.HoldsInPlace.card_within_lt`).  Hence no type
holds itself in place, however far inside.
-/

namespace Protowire

open Schema

namespace Site

/-- A value of the message `outer` holds one of `inner` in place: it has a singular field of that
type, in a oneof or not, which is not boxed. -/
structure HoldsInPlace (site : Site) (outer inner : MessageId) : Prop where
  exists_field : ∃ m f, site.schema.messages[outer]? = some m ∧ f ∈ m.fields ∧
    f.type = .message inner ∧ f.isRepeated = false ∧ site.isBoxed outer f = false

section Boxed

variable {site : Site} {outer inner : MessageId} {m : Schema.Message} {f : Schema.Field}

/-- **A field is boxed exactly when it is singular and its message leads back** to the one it stands
in. -/
theorem isBoxed_iff :
    site.isBoxed outer f = true ↔ ∃ target, f.type = .message target ∧ f.isRepeated = false ∧
      Relation.ReflTransGen site.schema.Embeds target outer := by
  rw [isBoxed]
  split
  · rename_i target htype hsingular
    rw [isRecursive_iff]
    exact ⟨fun h => ⟨target, htype, hsingular, h⟩, fun ⟨_, htype', _, h⟩ =>
      FieldType.message.inj (htype.symm.trans htype') ▸ h⟩
  · rename_i hother
    exact ⟨nofun, fun ⟨target, htype, hsingular, _⟩ => absurd hsingular (hother target htype)⟩

/-- What is held in place does not lead back. -/
theorem HoldsInPlace.embeds_not_back (h : site.HoldsInPlace outer inner) :
    site.schema.Embeds outer inner ∧ ¬ Relation.ReflTransGen site.schema.Embeds inner outer := by
  obtain ⟨m, f, hm, hf, htype, hsingular, hplain⟩ := h
  refine ⟨embeds_iff.2 ⟨hm, hf, htype, hsingular⟩, fun hback => ?_⟩
  exact absurd ((isBoxed_iff.2 ⟨inner, htype, hsingular, hback⟩).symm.trans hplain) nofun

/-- **What is held in place has fewer messages inside it.** -/
theorem HoldsInPlace.card_within_lt (hcoherent : Coherent site.schema)
    (h : site.HoldsInPlace outer inner) :
    (site.schema.within inner).toFinset.card < (site.schema.within outer).toFinset.card := by
  obtain ⟨hembeds, hback⟩ := h.embeds_not_back
  have hrange := hcoherent.embedsInRange
  have hinner : inner < site.schema.messages.length := hrange outer inner hembeds
  have houter : outer < site.schema.messages.length := by
    obtain ⟨m, -, hm, -⟩ := h
    exact (List.getElem?_eq_some_iff.1 hm).1
  refine Finset.card_lt_card (Finset.ssubset_iff_of_subset ?_ |>.2 ⟨outer, ?_, ?_⟩)
  · intro id hid
    rw [List.mem_toFinset, mem_within_iff hrange hinner] at hid
    rw [List.mem_toFinset, mem_within_iff hrange houter]
    exact .head hembeds hid
  · rw [List.mem_toFinset, mem_within_iff hrange houter]
  · rwa [List.mem_toFinset, mem_within_iff hrange hinner]

end Boxed

/-- **Generated types have a size, and no box is idle.**  In what files resolve to, no message holds
itself in place, neither at once nor through others, and there is no end of messages that hold one
another in place; and the fields that are boxed are just the singular ones whose message leads back
by singular fields to the one they stand in. -/
theorem finite_size_and_no_idle_box {files : List FileDescriptor} {s : Schema}
    (h : resolve files = .ok s) (config : Config) (file : FileId) (modules : List String) :
    (∀ id, ¬ Relation.TransGen (HoldsInPlace ⟨s, config, file, modules⟩) id id) ∧
    WellFounded (fun inner outer => HoldsInPlace ⟨s, config, file, modules⟩ outer inner) ∧
    ∀ (owner : MessageId) (m : Schema.Message), s.messages[owner]? = some m → ∀ f ∈ m.fields,
      (isBoxed ⟨s, config, file, modules⟩ owner f = true ↔
        ∃ target, f.type = .message target ∧ f.isRepeated = false ∧
          Relation.ReflTransGen s.Embeds target owner) := by
  obtain ⟨order, bound, -, hsorted, hbound⟩ := exists_resolvesTo h
  have hcoherent : Coherent s := hbound.coherent hsorted
  have hwell : WellFounded
      (fun inner outer => HoldsInPlace ⟨s, config, file, modules⟩ outer inner) :=
    Subrelation.wf (fun hholds => hholds.card_within_lt hcoherent)
      (measure fun id => (s.within id).toFinset.card).wf
  refine ⟨fun id hcycle => ?_, hwell, fun _ _ _ _ _ => isBoxed_iff⟩
  exact hwell.transGen.irrefl.irrefl id (Relation.transGen_swap.2 hcycle)

/-- A file of four messages: two that hold each other, one that holds the first of them and, in a
oneof, itself, and one that holds the third and a list of its own kind. -/
def nests : FileDescriptor where
  name := "nests.proto"
  package := ""
  imports := []
  messages :=
    [⟨"Left", [⟨"right", 1, 1, 11, "Right", none, none, "right", false⟩], [], [], none, []⟩,
      ⟨"Right", [⟨"left", 1, 1, 11, "Left", none, none, "left", false⟩], [], [], none, []⟩,
      ⟨"Chain", [⟨"head", 1, 1, 11, "Left", none, none, "head", false⟩,
        ⟨"next", 2, 1, 11, "Chain", none, some 0, "next", false⟩], [], [], none, [⟨"rest"⟩]⟩,
      ⟨"Tree", [⟨"chain", 1, 1, 11, "Chain", none, none, "chain", false⟩,
        ⟨"leaves", 2, 3, 11, "Tree", none, none, "leaves", false⟩], [], [], none, []⟩]
  enums := []
  dialect := "proto3"

/-- In the four messages there are boxes around one another, and around the next of a chain. -/
theorem finite_size_and_no_idle_box_nests : ∃ s, resolve [nests] = .ok s ∧
    s.messages.zipIdx.map (fun (m, id) =>
        m.fields.map (isBoxed ⟨s, Config.standard, 0, []⟩ id))
      = [[true], [true], [false, true], [false, false]] ∧
    (∀ id, ¬ Relation.TransGen (HoldsInPlace ⟨s, Config.standard, 0, []⟩) id id) ∧
    WellFounded (fun inner outer => HoldsInPlace ⟨s, Config.standard, 0, []⟩ outer inner) ∧
    ∀ (owner : MessageId) (m : Schema.Message), s.messages[owner]? = some m → ∀ f ∈ m.fields,
      (isBoxed ⟨s, Config.standard, 0, []⟩ owner f = true ↔
        ∃ target, f.type = .message target ∧ f.isRepeated = false ∧
          Relation.ReflTransGen s.Embeds target owner) := by
  have horder : importOrder [nests] = .ok [nests] := by cbv
  obtain ⟨s, hresolve, hboxes⟩ := exists_resolve_of_map_eq_ok
    (g := fun s => s.messages.zipIdx.map fun (m, id) =>
      m.fields.map (isBoxed ⟨s, Config.standard, 0, []⟩ id))
    (a := [[true], [true], [false, true], [false, false]]) horder (by decide +kernel)
  exact ⟨s, hresolve, hboxes, finite_size_and_no_idle_box hresolve Config.standard 0 []⟩

end Site

end Protowire
