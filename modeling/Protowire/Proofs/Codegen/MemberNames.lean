import Protowire.Proofs.Codegen.Members
import Protowire.Proofs.Codegen.Renumber
import Protowire.Proofs.Naming.Characters
import Protowire.Proofs.Schema.Oneofs

/-!
# Proofs/Codegen/MemberNames — members of a oneof whose names may be one

The variant of a member is called by the identifier of the member, or **by that and the number of
the field where the identifier is taken** (`nameMembers`).  Nothing asks whether the longer name is
taken too.  So the names of the variants differ exactly when no member finds both of its names among
those of the members before it (`nodup_memberNames_iff`), which is so when no identifier is another
one with digits behind (`nodup_memberNames`); and there are members that do.
-/

namespace Protowire

open Schema

/-- The identifier of a member with the number of the field behind it. -/
def numberedIdent (f : Schema.Field) : String :=
  s!"{Naming.typeIdent f.name}{f.number}"

/-- The name of the variant of a member, when the names in `used` are taken. -/
def memberName (used : List String) (f : Schema.Field) : String :=
  if Naming.typeIdent f.name ∈ used then numberedIdent f else Naming.typeIdent f.name

/-- The names of the variants of members. -/
def memberNames (fs : List Schema.Field) : List String :=
  (nameMembers [] fs).map (·.2)

/-- Both names that a member could have are those of members before it. -/
def Clashes (before : List Schema.Field) (f : Schema.Field) : Prop :=
  Naming.typeIdent f.name ∈ memberNames before ∧ numberedIdent f ∈ memberNames before

/-! ## One member after the other -/

section Members

variable {used : List String} {f : Schema.Field} {fs : List Schema.Field}

theorem nameMembers_cons : nameMembers used (f :: fs) =
    (f, memberName used f) :: nameMembers (memberName used f :: used) fs := by
  simp only [nameMembers, memberName, numberedIdent, List.contains_iff_mem]

/-- The name of a member is taken when its identifier is, and that with its number too. -/
theorem memberName_mem_iff :
    memberName used f ∈ used ↔ Naming.typeIdent f.name ∈ used ∧ numberedIdent f ∈ used := by
  rw [memberName]
  split
  · rename_i h
    exact (and_iff_right h).symm
  · rename_i h
    exact iff_of_false h fun hboth => h hboth.1

/-- A name is that of a member by its identifier, or by that with its number. -/
theorem exists_of_mem_nameMembers {name : String}
    (h : name ∈ (nameMembers used fs).map (·.2)) :
    ∃ f ∈ fs, name = Naming.typeIdent f.name ∨ name = numberedIdent f := by
  induction fs generalizing used with
  | nil => exact absurd h List.not_mem_nil
  | cons f fs ih =>
    rw [nameMembers_cons, List.map_cons, List.mem_cons] at h
    rcases h with rfl | h
    · refine ⟨f, List.mem_cons_self, ?_⟩
      dsimp only [memberName]
      split
      · exact .inr rfl
      · exact .inl rfl
    · obtain ⟨g, hg, hname⟩ := ih h
      exact ⟨g, List.mem_cons_of_mem f hg, hname⟩

/-- What is so of each member and those before it is so of the first, with none before it, and of
the others. -/
theorem forall_split_cons {α : Type} {P : List α → α → Prop} {a : α} {l : List α} :
    (∀ before b after, a :: l = before ++ b :: after → P before b) ↔
      P [] a ∧ ∀ before b after, l = before ++ b :: after → P (a :: before) b := by
  constructor
  · intro h
    exact ⟨h [] a l rfl, fun before b after hl => h (a :: before) b after (congrArg (a :: ·) hl)⟩
  · rintro ⟨hfirst, hrest⟩ before b after hl
    cases before with
    | nil =>
      obtain ⟨rfl, -⟩ := List.cons.inj hl
      exact hfirst
    | cons c before =>
      obtain ⟨rfl, htail⟩ := List.cons.inj hl
      exact hrest before b after htail

/-- **Names differ exactly when no member finds both of its names taken**, by those before it or to
begin with. -/
theorem nodup_nameMembers_iff :
    (((nameMembers used fs).map (·.2)).Nodup ∧
      ∀ name ∈ (nameMembers used fs).map (·.2), name ∉ used) ↔
    ∀ before f after, fs = before ++ f :: after →
      ¬ (Naming.typeIdent f.name ∈ (nameMembers used before).map (·.2) ++ used ∧
        numberedIdent f ∈ (nameMembers used before).map (·.2) ++ used) := by
  induction fs generalizing used with
  | nil => simp [nameMembers]
  | cons g fs ih =>
    -- The first name is in use for the members after it; it comes first among the names instead.
    have hnext : ∀ (before : List Schema.Field) (name : String),
        name ∈ (nameMembers used (g :: before)).map (·.2) ++ used ↔
          name ∈ (nameMembers (memberName used g :: used) before).map (·.2) ++
            memberName used g :: used := fun before name => by
      rw [nameMembers_cons, List.map_cons]
      exact (List.perm_middle.mem_iff (a := name)).symm
    rw [forall_split_cons]
    simp only [hnext]
    rw [← ih, nameMembers_cons, List.map_cons, List.nodup_cons, List.forall_mem_cons,
      nameMembers, List.map_nil, List.nil_append, ← memberName_mem_iff]
    simp only [List.mem_cons, not_or]
    constructor
    · rintro ⟨⟨hnew, hnodup⟩, hfree, hrest⟩
      exact ⟨hfree, hnodup, fun name hname => ⟨fun heq => hnew (heq ▸ hname), hrest name hname⟩⟩
    · rintro ⟨hfree, hnodup, hrest⟩
      exact ⟨⟨fun hmem => (hrest _ hmem).1 rfl, hnodup⟩, hfree,
        fun name hname => (hrest name hname).2⟩

/-- **The names of members differ exactly when none clashes** with those before it. -/
theorem nodup_memberNames_iff : (memberNames fs).Nodup ↔
    ∀ before f after, fs = before ++ f :: after → ¬ Clashes before f := by
  have h := @nodup_nameMembers_iff [] fs
  simp only [List.not_mem_nil, not_false_eq_true, implies_true, and_true, List.append_nil] at h
  exact h

end Members

/-! ## Numbers behind identifiers -/

section Numbers

theorem toList_numberedIdent (f : Schema.Field) : (numberedIdent f).toList =
    (Naming.typeIdent f.name).toList ++ Nat.toDigits 10 f.number := by
  simp [numberedIdent, toString]

/-- An identifier is another one with digits behind. -/
def EndsInDigits (ident other : String) : Prop :=
  ∃ digits : List Char, digits ≠ [] ∧ (∀ c ∈ digits, c.isDigit = true) ∧
    other.toList = ident.toList ++ digits

/-- **Numbers behind identifiers make one name of two fields** only if one of the identifiers is the
other with digits behind, or the numbers are the same. -/
theorem number_eq_of_numberedIdent_eq {f g : Schema.Field} (h : numberedIdent f = numberedIdent g)
    (hf : ¬ EndsInDigits (Naming.typeIdent f.name) (Naming.typeIdent g.name))
    (hg : ¬ EndsInDigits (Naming.typeIdent g.name) (Naming.typeIdent f.name)) :
    f.number = g.number := by
  -- One identifier starts with the other, and what is left of it are digits of a number.
  have hlists := congrArg String.toList h
  rw [toList_numberedIdent, toList_numberedIdent, List.append_eq_append_iff] at hlists
  have hsame {m n : Nat} {part : List Char} (hnil : part = [])
      (hdigits : Nat.toDigits 10 m = part ++ Nat.toDigits 10 n) : m = n :=
    Naming.toDigits_injective (by rw [hdigits, hnil, List.nil_append])
  rcases hlists with ⟨part, hident, hdigits⟩ | ⟨part, hident, hdigits⟩
  · refine hsame (by_contra fun hne => hf ⟨part, hne, fun c hc => ?_, hident⟩) hdigits
    exact Naming.isDigit_of_mem_toDigits c (hdigits ▸ List.mem_append_left _ hc)
  · refine (hsame (by_contra fun hne => hg ⟨part, hne, fun c hc => ?_, hident⟩) hdigits).symm
    exact Naming.isDigit_of_mem_toDigits c (hdigits ▸ List.mem_append_left _ hc)

/-- A name with a number behind is that of the identifier with digits behind. -/
theorem endsInDigits_numberedIdent (f : Schema.Field) :
    EndsInDigits (Naming.typeIdent f.name) (numberedIdent f) :=
  ⟨_, Nat.toDigits_ne_nil, Naming.isDigit_of_mem_toDigits, toList_numberedIdent f⟩

/-- **The names of members differ when no identifier is another one with digits behind**, as their
numbers differ. -/
theorem nodup_memberNames {fs : List Schema.Field} (hnumbers : (fs.map (·.number)).Nodup)
    (hidents : ∀ f ∈ fs, ∀ g ∈ fs,
      ¬ EndsInDigits (Naming.typeIdent f.name) (Naming.typeIdent g.name)) :
    (memberNames fs).Nodup := by
  refine nodup_memberNames_iff.2 ?_
  rintro before f after rfl ⟨-, htaken⟩
  have hf : f ∈ before ++ f :: after := List.mem_append_right _ List.mem_cons_self
  obtain ⟨g, hbefore, hname⟩ := exists_of_mem_nameMembers htaken
  have hg : g ∈ before ++ f :: after := List.mem_append_left _ hbefore
  rcases hname with hname | hname
  · exact hidents f hf g hg (hname ▸ endsInDigits_numberedIdent f)
  · have hnumber := number_eq_of_numberedIdent_eq hname (hidents f hf g hg) (hidents g hg f hf)
    rw [List.map_append, List.map_cons, List.nodup_append] at hnumbers
    exact hnumbers.2.2 _ (List.mem_map_of_mem hbefore) _ List.mem_cons_self hnumber.symm

end Numbers

/-! ## The variants of a oneof -/

namespace Schema.Message

section Variants

variable {m : Schema.Message} {k : Nat}

/-- **The name of the variant of a member is the one that goes with the member**, and no other
does. -/
theorem variantName_eq_iff (hlists : m.ListsMembers) (h : (m.fields.map (·.number)).Nodup)
    {f : Schema.Field} (hf : f ∈ m.memberFields k) {name : String} :
    m.variantName k f = name ↔ (f, name) ∈ m.oneofVariants k := by
  -- The name is looked up by number, and no two members have one number.
  have hnodup : ((m.oneofVariants k).map fun v => v.1.number).Nodup := by
    have hmap : (m.oneofVariants k).map (fun v => v.1.number) =
        (m.memberFields k).map (·.number) := by
      rw [← map_fst_nameMembers [] (m.memberFields k), List.map_map]
      rfl
    exact hmap ▸ hlists.nodup_memberFields h
  have hfind (name : String) (hmem : (f, name) ∈ m.oneofVariants k) :
      m.variantName k f = name := by
    rw [variantName]
    cases hv : (m.oneofVariants k).find? fun v => v.1.number == f.number with
    | none => simpa using List.find?_eq_none.1 hv _ hmem
    | some v =>
      have hnumber : v.1.number = f.number := by simpa using List.find?_some hv
      rw [List.inj_on_of_nodup_map hnodup (List.mem_of_find?_eq_some hv) hmem hnumber]
      rfl
  refine ⟨?_, hfind name⟩
  rintro rfl
  rw [← map_fst_nameMembers [] (m.memberFields k)] at hf
  obtain ⟨⟨f, name⟩, hmem, rfl⟩ := List.mem_map.1 hf
  exact hfind name hmem ▸ hmem

end Variants

end Schema.Message

/-- **What the variants of a oneof are called.**  Each of its members has one, and they are the
fields that name the oneof; the name of the variant is used for the member everywhere.  The names
differ exactly when no member clashes with those before it, and so they do when no identifier is
another one with digits behind. -/
structure VariantNames (m : Schema.Message) (k : Nat) : Prop where
  members : (m.oneofVariants k).map (·.1) = (m.members k).filterMap (m.fields[·]?)
  fields : (m.oneofVariants k).map (·.1) = m.fields.filter (·.oneof == some k)
  named : ∀ f ∈ m.fields, f.oneof = some k →
    ∀ name, (f, name) ∈ m.oneofVariants k ↔ m.variantName k f = name
  differ_iff : ((m.oneofVariants k).map (·.2)).Nodup ↔
    ∀ before f after, m.memberFields k = before ++ f :: after → ¬ Clashes before f
  differ : (∀ f ∈ m.memberFields k, ∀ g ∈ m.memberFields k,
      ¬ EndsInDigits (Naming.typeIdent f.name) (Naming.typeIdent g.name)) →
    ((m.oneofVariants k).map (·.2)).Nodup

/-- **The variants of a oneof differ unless a member clashes.**  In what files resolve to, every
member of a oneof has one variant, whose name is the one used for it; two variants have one name
just when both names of a member are those of members before it. -/
theorem variants_differ_iff {files : List FileDescriptor} {s : Schema} (h : resolve files = .ok s)
    {id : MessageId} {m : Schema.Message} (hm : s.messages[id]? = some m) (k : Nat) :
    VariantNames m k := by
  obtain ⟨order, bound, -, hsorted, hbound⟩ := exists_resolvesTo h
  have hnumbers := ((hbound.coherent hsorted).messages id m hm).numbers
  have hlists := hbound.listsMembers hm
  have hmembers := map_fst_nameMembers [] (m.memberFields k)
  exact
    { members := hmembers
      fields := hmembers.trans hlists.memberFields_eq
      named := fun f hf hk name =>
        (Message.variantName_eq_iff hlists hnumbers (hlists.mem_memberFields.2 ⟨hf, hk⟩)).symm
      differ_iff := nodup_memberNames_iff
      differ := nodup_memberNames (hlists.nodup_memberFields hnumbers) }

/-- A file with a message of one oneof, whose members have names and numbers. -/
def fileOfMembers (members : List (String × Int32)) : FileDescriptor where
  name := "labels.proto"
  package := ""
  imports := []
  messages := [⟨"M", members.map fun (name, number) =>
    ⟨name, number, 1, 5, "", none, some 0, name, false⟩, [], [], none, [⟨"o"⟩]⟩]
  enums := []
  dialect := "proto3"

/-- The message in such a file. -/
def messageOfMembers (members : List (String × Nat)) : Schema.Message where
  name := "M"
  fullName := "M"
  file := 0
  parent := none
  fields := members.map fun (name, number) =>
    ⟨name, number, .scalar .int32, false, false, none, some 0⟩
  oneofs := [⟨"o", List.range members.length⟩]
  contents := ⟨[], []⟩
  isMapEntry := false

/-- A member whose identifier is the longer name of one before it gets a number too. -/
theorem variants_differ_iff_last_numbered : ∃ s,
    resolve [fileOfMembers [("a", 3), ("A", 1), ("a1", 2)]] = .ok s ∧
    s.messages[0]? = some (messageOfMembers [("a", 3), ("A", 1), ("a1", 2)]) ∧
    ((messageOfMembers [("a", 3), ("A", 1), ("a1", 2)]).oneofVariants 0).map (·.2) =
      ["A", "A1", "A12"] ∧
    VariantNames (messageOfMembers [("a", 3), ("A", 1), ("a1", 2)]) 0 := by
  have horder : importOrder [fileOfMembers [("a", 3), ("A", 1), ("a1", 2)]] =
      .ok [fileOfMembers [("a", 3), ("A", 1), ("a1", 2)]] := by cbv
  obtain ⟨s, hresolve, hm⟩ := exists_resolve_of_map_eq_ok (g := (·.messages[0]?))
    (a := some (messageOfMembers [("a", 3), ("A", 1), ("a1", 2)])) horder (by decide +kernel)
  exact ⟨s, hresolve, hm, by decide +kernel, variants_differ_iff hresolve hm 0⟩

/-- **Two variants have one name** when the member whose identifier is the longer name of another
comes before that one. -/
theorem variants_not_apart : ∃ s,
    resolve [fileOfMembers [("a1", 2), ("a", 3), ("A", 1)]] = .ok s ∧
    s.messages[0]? = some (messageOfMembers [("a1", 2), ("a", 3), ("A", 1)]) ∧
    ((messageOfMembers [("a1", 2), ("a", 3), ("A", 1)]).oneofVariants 0).map (·.2) =
      ["A1", "A", "A1"] ∧
    ¬ (((messageOfMembers [("a1", 2), ("a", 3), ("A", 1)]).oneofVariants 0).map (·.2)).Nodup := by
  have horder : importOrder [fileOfMembers [("a1", 2), ("a", 3), ("A", 1)]] =
      .ok [fileOfMembers [("a1", 2), ("a", 3), ("A", 1)]] := by cbv
  obtain ⟨s, hresolve, hm⟩ := exists_resolve_of_map_eq_ok (g := (·.messages[0]?))
    (a := some (messageOfMembers [("a1", 2), ("a", 3), ("A", 1)])) horder (by decide +kernel)
  have hnames : ((messageOfMembers [("a1", 2), ("a", 3), ("A", 1)]).oneofVariants 0).map (·.2) =
      ["A1", "A", "A1"] := by decide +kernel
  exact ⟨s, hresolve, hm, hnames, hnames ▸ by decide⟩

end Protowire
