import Protowire.Files.FileTree
import Protowire.Proofs.Files.Path
import Protowire.Proofs.Steps

/-!
# Proofs/Files/FileTree — changes that keep to a directory

A path that stays below a directory never goes up, so the place it leads to is **below the place
that the directory leads to** (`FileTree.exists_isPrefix_of_locate`).  What changes in a file tree
keeps to the directory (`FileTree.KeepsTo`) when, elsewhere, at most directories are made where
there was nothing.  As directories stay where they are, so does the place a directory leads to, and
changes one after the other keep to it as well (`FileTree.KeepsTo.trans`).
-/

namespace Protowire

namespace FileTree

variable {t t' : FileTree} {place q : Place}

/-! ## Walking -/

theorem walk_cons {segment : List Char} {rest : List (List Char)} :
    t.walk place (segment :: rest) = t.step place segment >>= fun next => t.walk next rest := rfl

theorem walk_append_eq_ok_iff {front rest : List (List Char)} :
    t.walk place (front ++ rest) = .ok q ↔
      ∃ base, t.walk place front = .ok base ∧ t.walk base rest = .ok q := by
  induction front generalizing place with
  | nil => exact ⟨fun h => ⟨place, rfl, h⟩, fun ⟨_, hbase, h⟩ => Except.ok.inj hbase ▸ h⟩
  | cons segment front ih =>
    simp only [List.cons_append, walk_cons, bind_eq_ok_iff, ih]
    exact ⟨fun ⟨next, hnext, base, hbase, h⟩ => ⟨base, ⟨next, hnext, hbase⟩, h⟩,
      fun ⟨base, ⟨next, hnext, hbase⟩, h⟩ => ⟨next, hnext, base, hbase, h⟩⟩

/-- A step is taken from a directory. -/
theorem directory_of_step {segment : List Char} (h : t.step place segment = .ok q) :
    t.node? place = some .directory := by
  rw [step] at h
  split at h
  · exact absurd h nofun
  · exact absurd h nofun
  · assumption

/-- From a directory, a step leads to the same place in all trees. -/
theorem step_congr {segment : List Char} (h : t.node? place = some .directory)
    (h' : t'.node? place = some .directory) : t'.step place segment = t.step place segment := by
  rw [step, step, h, h']

/-- A step that does not go up leads below. -/
theorem isPrefix_of_step {segment : List Char} (hup : segment ≠ Path.up)
    (h : t.step place segment = .ok q) : place <+: q := by
  rw [step, directory_of_step h] at h
  dsimp only at h
  rw [if_neg hup] at h
  split at h
  · exact Except.ok.inj h ▸ List.prefix_refl _
  · split at h
    · exact absurd h nofun
    · exact Except.ok.inj h ▸ List.prefix_append _ _

/-- **Segments that do not go up lead below.** -/
theorem isPrefix_of_walk {segments : List (List Char)} (hup : Path.up ∉ segments)
    (h : t.walk place segments = .ok q) : place <+: q := by
  induction segments generalizing place with
  | nil => exact Except.ok.inj h ▸ List.prefix_refl _
  | cons segment rest ih =>
    rw [List.mem_cons, not_or] at hup
    obtain ⟨next, hnext, h⟩ := bind_eq_ok_iff.1 h
    exact (isPrefix_of_step (Ne.symm hup.1) hnext).trans (ih hup.2 h)

/-- The place that a directory leads to. -/
def base (t : FileTree) (dir : String) : Except DiskFault Place :=
  t.walk (t.origin dir) (Path.segments dir)

theorem walk_of_locate {path : String} (h : t.locate path = .ok q) :
    t.walk (t.origin path) (Path.segments path) = .ok q := by
  rw [locate] at h
  split at h
  · exact absurd h nofun
  · split at h
    · exact absurd h nofun
    · split at h
      · exact absurd h nofun
      · exact h

/-- **A path that is accepted leads below the directory** it is taken from. -/
theorem exists_isPrefix_of_locate {dir name : String} (hname : Path.staysBelow name = true)
    (h : t.locate (Path.join dir name) = .ok q) :
    ∃ below, t.base dir = .ok below ∧ below <+: q := by
  obtain ⟨-, hslash, hup⟩ := Path.staysBelow_iff.1 hname
  rw [← Path.segments_eq] at hup
  have horigin : t.origin (Path.join dir name) = t.origin dir := by
    rw [origin, Path.isAbsolute_join, origin]
    split
    · rename_i hdir
      rw [hdir, Path.isAbsolute, beq_eq_false_iff_ne.2 hslash]
      rfl
    · rfl
  have hwalk := walk_of_locate h
  obtain ⟨front, hdir, -, hjoin⟩ := Path.exists_segments_join dir name
  rw [horigin, hjoin, walk_append_eq_ok_iff] at hwalk
  obtain ⟨below, hfront, hbelow⟩ := hwalk
  refine ⟨below, ?_, isPrefix_of_walk hup hbelow⟩
  rcases hdir with hdir | hdir
  · rw [base, hdir, hfront]
  · -- An empty segment stays where it is, and that is a directory as steps are taken from there.
    rw [base, hdir, walk_append_eq_ok_iff]
    refine ⟨below, hfront, ?_⟩
    obtain ⟨segment, rest, hname⟩ := List.exists_cons_of_ne_nil (Path.segments_ne_nil name)
    rw [hname] at hbelow
    obtain ⟨next, hnext, -⟩ := bind_eq_ok_iff.1 hbelow
    rw [walk_cons, step, directory_of_step hnext]
    rfl

/-! ## Changes -/

/-- **What changes keeps to a directory.**  Directories stay; and what is not below the place that
the directory leads to stays too, but that directories are made where there was nothing. -/
structure KeepsTo (dir : String) (t t' : FileTree) : Prop where
  here : t'.here = t.here
  directories : ∀ place, t.node? place = some .directory → t'.node? place = some .directory
  changed : ∀ place, t'.node? place ≠ t.node? place →
    t.node? place = none ∧ t'.node? place = some .directory ∨
      ∃ below, t'.base dir = .ok below ∧ below <+: place

/-- Where directories stay, a walk leads to where it led. -/
theorem walk_mono
    (h : ∀ place, t.node? place = some .directory → t'.node? place = some .directory)
    {segments : List (List Char)} (hwalk : t.walk place segments = .ok q) :
    t'.walk place segments = .ok q := by
  induction segments generalizing place with
  | nil => exact hwalk
  | cons segment rest ih =>
    obtain ⟨next, hnext, hrest⟩ := bind_eq_ok_iff.1 hwalk
    have hplace := directory_of_step hnext
    exact bind_eq_ok_iff.2 ⟨next, (step_congr hplace (h place hplace)).trans hnext, ih hrest⟩

theorem base_mono (hhere : t'.here = t.here)
    (h : ∀ place, t.node? place = some .directory → t'.node? place = some .directory)
    {dir : String} (hbase : t.base dir = .ok q) : t'.base dir = .ok q := by
  have horigin : t'.origin dir = t.origin dir := by rw [origin, origin, hhere]
  rw [base, horigin]
  exact walk_mono h hbase

namespace KeepsTo

variable {dir : String} {t'' : FileTree}

theorem refl (dir : String) (t : FileTree) : KeepsTo dir t t :=
  ⟨rfl, fun _ h => h, fun _ h => absurd rfl h⟩

/-- **Changes one after the other keep to the directory when each of them does.** -/
theorem trans (h : KeepsTo dir t t') (h' : KeepsTo dir t' t'') : KeepsTo dir t t'' where
  here := h'.here.trans h.here
  directories place hplace := h'.directories place (h.directories place hplace)
  changed place hplace := by
    by_cases hlast : t''.node? place = t'.node? place
    · rw [hlast] at hplace ⊢
      rcases h.changed place hplace with hmade | ⟨below, hbelow, hprefix⟩
      · exact .inl hmade
      · exact .inr ⟨below, base_mono h'.here h'.directories hbelow, hprefix⟩
    · rcases h'.changed place hlast with ⟨hnone, hmade⟩ | hbelow
      · -- What was not there after the first change was not there before it, or it was changed.
        by_cases hfirst : t'.node? place = t.node? place
        · exact .inl ⟨hfirst ▸ hnone, hmade⟩
        · rcases h.changed place hfirst with ⟨-, hdirectory⟩ | ⟨below, hbelow, hprefix⟩
          · exact absurd (hnone.symm.trans hdirectory) nofun
          · exact .inr ⟨below, base_mono h'.here h'.directories hbelow, hprefix⟩
      · exact .inr hbelow

end KeepsTo

/-- Without what is at another place, what is at a place is the same. -/
theorem lookup_filter_of_ne {nodes : List (Place × Node)} (h : q ≠ place) :
    (nodes.filter fun entry => entry.1 != place).lookup q = nodes.lookup q := by
  induction nodes with
  | nil => rfl
  | cons entry nodes ih =>
    obtain ⟨other, node⟩ := entry
    by_cases hother : other = place
    · rw [List.filter_cons_of_neg (by simp [hother]), ih, List.lookup_cons,
        beq_eq_false_iff_ne.2 (hother ▸ h)]
    · rw [List.filter_cons_of_pos (by simp [hother]), List.lookup_cons, List.lookup_cons, ih]

theorem node?_put_of_ne {node : Node} (h : q ≠ place) :
    (t.put place node).node? q = t.node? q := by
  rw [node?, node?, put]
  dsimp only
  rw [List.lookup_cons, beq_eq_false_iff_ne.2 h, lookup_filter_of_ne h]

theorem node?_put_self {node : Node} (h : place ≠ []) :
    (t.put place node).node? place = some node := by
  rw [node?, if_neg h, put, List.lookup_cons_self]

/-- What is put where there is no directory keeps to a directory that it is below, and so does a
directory that is put where there is nothing. -/
theorem keepsTo_put {dir : String} {node : Node} (hnode : t.node? place ≠ some .directory)
    (h : t.node? place = none ∧ node = .directory ∨
      ∃ below, t.base dir = .ok below ∧ below <+: place) :
    KeepsTo dir t (t.put place node) := by
  have hroot : place ≠ [] := fun hnil => hnode (by rw [node?, if_pos hnil])
  have hdirectories (q : Place) (hq : t.node? q = some .directory) :
      (t.put place node).node? q = some .directory := by
    have hne : q ≠ place := by
      rintro rfl
      exact hnode hq
    rw [node?_put_of_ne hne, hq]
  refine ⟨rfl, hdirectories, fun q hq => ?_⟩
  obtain rfl : q = place := by_contra fun hne => hq (node?_put_of_ne hne)
  rcases h with ⟨hnone, rfl⟩ | ⟨below, hbelow, hprefix⟩
  · exact .inl ⟨hnone, node?_put_self hroot⟩
  · exact .inr ⟨below, @base_mono t (t.put q node) below rfl hdirectories dir hbelow, hprefix⟩

/-! ## Operations -/

variable {dir name path : String} {content : Bytes}

/-- **A directory that is made keeps to every directory.** -/
theorem keepsTo_of_makeDirectory (h : t.makeDirectory path = .ok t') : KeepsTo dir t t' := by
  obtain ⟨place, -, h⟩ := bind_eq_ok_iff.1 h
  obtain ⟨hnothing, h⟩ := refuse_eq_ok_iff.1 h
  have hnone : t.node? place = none :=
    Option.not_isSome_iff_eq_none.1 fun hsome => hnothing (by rw [hsome, Bool.or_true])
  rw [← Except.ok.inj h]
  exact keepsTo_put (hnone ▸ nofun) (.inl ⟨hnone, rfl⟩)

/-- **A file that is written to a path below a directory keeps to it.** -/
theorem keepsTo_of_create (hname : Path.staysBelow name = true)
    (h : t.create (Path.join dir name) content = .ok t') : KeepsTo dir t t' := by
  obtain ⟨place, hplace, h⟩ := bind_eq_ok_iff.1 h
  obtain ⟨hnothing, h⟩ := refuse_eq_ok_iff.1 h
  obtain ⟨-, h⟩ := refuse_eq_ok_iff.1 h
  rw [← Except.ok.inj h]
  refine keepsTo_put (fun hdirectory => hnothing ?_) (.inr (exists_isPrefix_of_locate hname hplace))
  rw [hdirectory]
  rfl

/-- **A file that is written to a path below a directory keeps to it,** whether or not it was
there. -/
theorem keepsTo_of_replace (hname : Path.staysBelow name = true)
    (h : t.replace (Path.join dir name) content = .ok t') : KeepsTo dir t t' := by
  obtain ⟨place, hplace, h⟩ := bind_eq_ok_iff.1 h
  obtain ⟨hnothing, h⟩ := refuse_eq_ok_iff.1 h
  rw [← Except.ok.inj h]
  refine keepsTo_put (fun hdirectory => hnothing ?_) (.inr (exists_isPrefix_of_locate hname hplace))
  rw [hdirectory, beq_self_eq_true, Bool.or_true]

end FileTree

end Protowire
