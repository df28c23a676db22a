import Mathlib.Data.List.GetD
import Mathlib.Logic.Relation
import Protowire.Proofs.Schema.Declaration
import Protowire.Proofs.Schema.ImportOrder
import Protowire.Schema.Scope

/-!
# Proofs/Schema/Scope — what a type name means, without numbers

A file sees itself and the files it leads to by imports (`Sees`).  A full name denotes a message or
an enum that a file sees (`Denotes`), and a type name in a scope binds to what the first of its
candidates denotes that denotes anything (`Binds`).  None of this depends on the order of the files.

For files that come after what they import, and with different names in all of them, the tables of
the resolver say the same: `sights` is `Sees` by number (`sees_iff`), and `lookup?` finds the number
of what the name binds to (`exists_lookup?_iff`).
-/

namespace Protowire.Schema

/-- What a name may mean. -/
inductive Meaning where
  | message (m : MessageDescriptor)
  | enumeration (e : EnumDescriptor)

/-- The first file is the second or leads to it by imports. -/
def Sees (files : List FileDescriptor) (f g : FileDescriptor) : Prop :=
  Relation.ReflTransGen (Imports files) f.name g.name

/-- A full name is declared in a file that `f` sees. -/
inductive Denotes (files : List FileDescriptor) (f : FileDescriptor) (fullName : String) :
    Meaning → Prop where
  | message {g : FileDescriptor} {m : MessageDescriptor} (hg : g ∈ files) (hsees : Sees files f g)
      (hm : (fullName, m) ∈ g.allMessages) : Denotes files f fullName (.message m)
  | enumeration {g : FileDescriptor} {e : EnumDescriptor} (hg : g ∈ files)
      (hsees : Sees files f g) (he : (fullName, e) ∈ g.allEnums) :
      Denotes files f fullName (.enumeration e)

/-- A type name in a scope of `f` means what the first of its candidates denotes that denotes
anything. -/
def Binds (files : List FileDescriptor) (f : FileDescriptor) (scope typeName : String)
    (meaning : Meaning) : Prop :=
  ∃ before name after, candidates scope typeName = before ++ name :: after ∧
    (∀ other ∈ before, ∀ x, ¬ Denotes files f other x) ∧ Denotes files f name meaning

/-! ## Rows in which keys are different -/

section Keys

variable {α β : Type} {key : α → β} {l : List α}

/-- A key comes at one place only. -/
theorem index_eq_of_key_eq (hnodup : (l.map key).Nodup) {i j : Nat} {a b : α}
    (ha : l[i]? = some a) (hb : l[j]? = some b) (hkey : key a = key b) : i = j := by
  have hi : i < (l.map key).length := by
    rw [List.length_map]
    exact (List.getElem?_eq_some_iff.1 ha).1
  refine (List.getElem?_inj hi hnodup).1 ?_
  rw [List.getElem?_map, List.getElem?_map, ha, hb, Option.map_some, Option.map_some, hkey]

/-- What has the one key that is looked for is found where it is. -/
theorem findIdx?_eq_some_iff_of_nodup (hnodup : (l.map key).Nodup) {p : α → Bool} {k : β}
    (hkey : ∀ a, p a = true → key a = k) {i : Nat} :
    l.findIdx? p = some i ↔ ∃ a, l[i]? = some a ∧ p a = true := by
  rw [List.findIdx?_eq_some_iff_getElem]
  constructor
  · rintro ⟨hi, hp, -⟩
    exact ⟨l[i], List.getElem?_eq_getElem hi, hp⟩
  · rintro ⟨a, ha, hp⟩
    obtain ⟨hi, rfl⟩ := List.getElem?_eq_some_iff.1 ha
    refine ⟨hi, hp, fun j hj hpj => ?_⟩
    have hsame := (hkey _ hpj).trans (hkey _ hp).symm
    have := index_eq_of_key_eq hnodup (List.getElem?_eq_getElem (hj.trans hi)) ha hsame
    omega

end Keys

/-! ## Files by number -/

/-- One file imports another, by number. -/
def ImportsAt (files : List FileDescriptor) (i j : FileId) : Prop :=
  ∃ f, files[i]? = some f ∧ j ∈ importIds files f

/-- One file leads to another, by number. -/
abbrev Leads (files : List FileDescriptor) : FileId → FileId → Prop :=
  Relation.ReflTransGen (ImportsAt files)

/-- The tables of what each of the first `k` files sees. -/
structure Sighted (files : List FileDescriptor) (k : Nat) (seen : List (List FileId)) : Prop where
  length_eq : seen.length = k
  mem_iff : ∀ i < k, ∀ j, j ∈ seen.getD i [] ↔ Leads files i j

section Sight

variable {files : List FileDescriptor} {f g : FileDescriptor} {i j : FileId}

/-- A file imports the numbers whose names it imports. -/
theorem mem_importIds (hdistinct : (files.map (·.name)).Nodup) :
    j ∈ importIds files f ↔ ∃ g, files[j]? = some g ∧ g.name ∈ f.imports := by
  have hfound : ∀ name, (files.findIdx? fun g => g.name == name) = some j ↔
      ∃ g, files[j]? = some g ∧ g.name = name := fun name => by
    rw [findIdx?_eq_some_iff_of_nodup (k := name) hdistinct fun _ => eq_of_beq]
    simp only [beq_iff_eq]
  simp only [importIds, List.mem_filterMap, hfound]
  constructor
  · rintro ⟨name, hname, g, hg, rfl⟩
    exact ⟨g, hg, hname⟩
  · rintro ⟨g, hg, hname⟩
    exact ⟨g.name, hname, g, hg, rfl⟩

/-- **Files import smaller numbers only** when they come after what they import. -/
theorem ImportSorted.lt_of_mem_importIds (h : ImportSorted files) (hf : files[i]? = some f)
    (hj : j ∈ importIds files f) : j < i := by
  obtain ⟨g, hg, hname⟩ := (mem_importIds h.distinct).1 hj
  obtain ⟨k, hk, g', hg', hsame⟩ := h.exists_lt_of_mem_imports hf hname
  rwa [index_eq_of_key_eq h.distinct hg hg' hsame.symm]

/-- The next file sees itself and what its imports see. -/
theorem Sighted.snoc {seen : List (List FileId)} {k : Nat} (h : Sighted files k seen)
    (hsorted : ImportSorted files) (hf : files[k]? = some f) :
    Sighted files (k + 1) (seen ++
      [(seen.length :: (importIds files f).flatMap fun i => seen.getD i []).eraseDups]) := by
  refine ⟨by rw [List.length_append, h.length_eq]; rfl, fun i hi j => ?_⟩
  rcases Nat.lt_succ_iff_lt_or_eq.1 hi with hi | rfl
  · rw [← h.mem_iff i hi j, List.getD_append _ _ _ _ (h.length_eq ▸ hi)]
  · have hget : ∀ l, (seen ++ [l]).getD i [] = l := fun l => by
      rw [List.getD_append_right _ _ _ _ (Nat.le_of_eq h.length_eq), h.length_eq, Nat.sub_self]
      rfl
    rw [hget, List.mem_eraseDups, List.mem_cons, List.mem_flatMap, h.length_eq, Leads,
      Relation.ReflTransGen.cases_head_iff]
    refine or_congr eq_comm ⟨?_, ?_⟩
    · rintro ⟨m, hm, hj⟩
      exact ⟨m, ⟨f, hf, hm⟩, (h.mem_iff m (hsorted.lt_of_mem_importIds hf hm) j).1 hj⟩
    · rintro ⟨m, ⟨f', hf', hm⟩, hj⟩
      obtain rfl := Option.some.inj (hf.symm.trans hf')
      exact ⟨m, hm, (h.mem_iff m (hsorted.lt_of_mem_importIds hf hm) j).2 hj⟩

/-- **Each file sees what it leads to**, when files come after what they import. -/
theorem sighted_sights (h : ImportSorted files) : Sighted files files.length (sights files) := by
  have hfold : ∀ (rest before : List FileDescriptor) (seen : List (List FileId)),
      files = before ++ rest → Sighted files before.length seen →
      Sighted files files.length (rest.foldl (fun seen f =>
        seen ++ [(seen.length :: (importIds files f).flatMap fun i => seen.getD i []).eraseDups])
        seen) := by
    intro rest
    induction rest with
    | nil =>
      rintro before seen rfl hseen
      rwa [List.append_nil] at hseen ⊢
    | cons f rest ih =>
      intro before seen hsplit hseen
      have hf : files[before.length]? = some f := by
        rw [hsplit, List.getElem?_append_right (Nat.le_refl _), Nat.sub_self]
        rfl
      refine ih (before ++ [f]) _ (by rw [hsplit, List.append_assoc]; rfl) ?_
      rw [List.length_append]
      exact hseen.snoc h hf
  exact hfold files [] [] rfl ⟨rfl, fun i hi => absurd hi (Nat.not_lt_zero i)⟩

/-- A file leads to another by number when it does by name. -/
theorem leads_iff_sees (h : ImportSorted files) (hf : files[i]? = some f)
    (hg : files[j]? = some g) : Leads files i j ↔ Sees files f g := by
  constructor
  · intro hleads
    induction hleads generalizing g with
    | refl =>
      obtain rfl := Option.some.inj (hf.symm.trans hg)
      exact .refl
    | @tail b c _ hstep ih =>
      obtain ⟨f', hf', hmem⟩ := hstep
      obtain ⟨g', hg', hname⟩ := (mem_importIds h.distinct).1 hmem
      obtain rfl := Option.some.inj (hg.symm.trans hg')
      exact (ih hf').tail ⟨f', List.mem_of_getElem? hf', rfl, hname⟩
  · intro hsees
    have hall : ∀ name, Relation.ReflTransGen (Imports files) f.name name →
        ∀ j g, files[j]? = some g → g.name = name → Leads files i j := by
      intro name hname
      induction hname with
      | refl =>
        intro j g hg hsame
        rw [index_eq_of_key_eq h.distinct hg hf hsame]
      | @tail b c _ hstep ih =>
        intro j g hg hsame
        obtain ⟨f', hf', hb, hc⟩ := hstep
        obtain ⟨k, hk⟩ := List.mem_iff_getElem?.1 hf'
        exact (ih k f' hk hb).tail
          ⟨f', hk, (mem_importIds h.distinct).2 ⟨g, hg, hsame ▸ hc⟩⟩
    exact hall g.name hsees j g hg rfl

end Sight

/-! ## Symbols by number -/

namespace Symbols

/-- No two messages or enums have one full name. -/
def Distinct (t : Symbols) : Prop :=
  (t.messages.map Declared.fullName ++ t.enums.map Declared.fullName).Nodup

/-- What a number means. -/
inductive Means (t : Symbols) : Symbol → Meaning → Prop where
  | message {id : MessageId} {d : Declared MessageDescriptor} (hd : t.messages[id]? = some d) :
      Means t (.message id) (.message d.body)
  | enumeration {id : EnumId} {d : Declared EnumDescriptor} (hd : t.enums[id]? = some d) :
      Means t (.enumeration id) (.enumeration d.body)

/-- A full name is that of a symbol that the file sees. -/
inductive Named (t : Symbols) (file : FileId) (fullName : String) : Symbol → Prop where
  | message {id : MessageId} {d : Declared MessageDescriptor} (hd : t.messages[id]? = some d)
      (hname : d.fullName = fullName) (hsees : t.sees file d.file = true) :
      Named t file fullName (.message id)
  | enumeration {id : EnumId} {d : Declared EnumDescriptor} (hd : t.enums[id]? = some d)
      (hname : d.fullName = fullName) (hsees : t.sees file d.file = true) :
      Named t file fullName (.enumeration id)

section Named

variable {t : Symbols} {file : FileId} {fullName : String}

/-- What is declared under a full name is found where it is. -/
theorem findIdx?_fullName_eq_some_iff {α : Type} {ds : List (Declared α)}
    (hnodup : (ds.map Declared.fullName).Nodup) {id : Nat} :
    (ds.findIdx? fun d => d.fullName == fullName && t.sees file d.file) = some id ↔
      ∃ d, ds[id]? = some d ∧ d.fullName = fullName ∧ t.sees file d.file = true := by
  rw [findIdx?_eq_some_iff_of_nodup (k := fullName) hnodup fun d hd =>
    eq_of_beq (Bool.and_eq_true_iff.1 hd).1]
  simp only [Bool.and_eq_true, beq_iff_eq]

/-- **A full name stands for the one symbol of that name**, if the file sees it. -/
theorem named?_eq_some_iff (h : t.Distinct) {x : Symbol} :
    t.named? file fullName = some x ↔ t.Named file fullName x := by
  obtain ⟨hmessages, henums, hapart⟩ := List.nodup_append.1 h
  rw [named?, Option.or_eq_some_iff, Option.map_eq_none_iff, Option.map_eq_some_iff,
    Option.map_eq_some_iff]
  constructor
  · rintro (⟨id, hid, rfl⟩ | ⟨-, id, hid, rfl⟩)
    · obtain ⟨d, hd, hname, hsees⟩ := (findIdx?_fullName_eq_some_iff hmessages).1 hid
      exact .message hd hname hsees
    · obtain ⟨d, hd, hname, hsees⟩ := (findIdx?_fullName_eq_some_iff henums).1 hid
      exact .enumeration hd hname hsees
  · rintro (⟨hd, hname, hsees⟩ | ⟨hd, hname, hsees⟩)
    · exact .inl ⟨_, (findIdx?_fullName_eq_some_iff hmessages).2 ⟨_, hd, hname, hsees⟩, rfl⟩
    · refine .inr ⟨List.findIdx?_eq_none_iff.2 fun d' hd' => ?_, _,
        (findIdx?_fullName_eq_some_iff henums).2 ⟨_, hd, hname, hsees⟩, rfl⟩
      have hne := hapart _ (List.mem_map_of_mem hd') _
        (List.mem_map_of_mem (List.mem_of_getElem? hd))
      rw [Bool.and_eq_false_iff, beq_eq_false_iff_ne]
      exact .inl fun hname' => hne (hname'.trans hname.symm)

/-- What a name stands for means something. -/
theorem Named.exists_means {x : Symbol} (h : t.Named file fullName x) : ∃ m, t.Means x m := by
  cases h with
  | message hd _ _ => exact ⟨_, .message hd⟩
  | enumeration hd _ _ => exact ⟨_, .enumeration hd⟩

end Named

section Files

variable {files : List FileDescriptor} {f g : FileDescriptor} {i j : FileId}

/-- Files whose names are different have different symbols. -/
theorem distinct_ofFiles (hnames : (files.flatMap FileDescriptor.allNames).Nodup) :
    (ofFiles files).Distinct :=
  ((filterMap_symbol?_perm _).symm.trans filterMap_symbol?_declarations_perm).nodup_iff.2 hnames

/-- The tables say what a file sees. -/
theorem sees_iff (h : ImportSorted files) (hf : files[i]? = some f) (hg : files[j]? = some g) :
    (ofFiles files).sees i j = true ↔ Sees files f g := by
  have hi : i < files.length := (List.getElem?_eq_some_iff.1 hf).1
  rw [sees, List.contains_iff_mem, ← leads_iff_sees h hf hg]
  exact (sighted_sights h).mem_iff i hi j

/-- **A full name stands for a number that means what the name denotes.** -/
theorem exists_named?_iff (h : ImportSorted files)
    (hnames : (files.flatMap FileDescriptor.allNames).Nodup) (hf : files[i]? = some f)
    {fullName : String} {m : Meaning} :
    (∃ x, (ofFiles files).named? i fullName = some x ∧ (ofFiles files).Means x m) ↔
      Denotes files f fullName m := by
  simp only [named?_eq_some_iff (distinct_ofFiles hnames)]
  constructor
  · rintro ⟨x, hnamed, hmeans⟩
    cases hmeans with
    | message hd =>
      cases hnamed with
      | message hd' hname hsees =>
        obtain rfl := Option.some.inj (hd.symm.trans hd')
        obtain ⟨-, g, hg, hm⟩ := mem_allMessages (List.mem_of_getElem? hd)
        exact .message (List.mem_of_getElem? hg) ((sees_iff h hf hg).1 hsees) (hname ▸ hm)
    | enumeration hd =>
      cases hnamed with
      | enumeration hd' hname hsees =>
        obtain rfl := Option.some.inj (hd.symm.trans hd')
        obtain ⟨-, g, hg, he⟩ := mem_allEnums (List.mem_of_getElem? hd)
        exact .enumeration (List.mem_of_getElem? hg) ((sees_iff h hf hg).1 hsees) (hname ▸ he)
  · rintro (⟨hg, hsees, hm⟩ | ⟨hg, hsees, he⟩)
    · obtain ⟨j, hj⟩ := List.mem_iff_getElem?.1 hg
      obtain ⟨d, hd, rfl, hpair⟩ := exists_mem_messagesOf hj hm
      obtain ⟨rfl, rfl⟩ := Prod.mk.inj hpair
      obtain ⟨id, hid⟩ := List.mem_iff_getElem?.1 hd
      exact ⟨.message id, .message hid rfl ((sees_iff h hf hj).2 hsees), .message hid⟩
    · obtain ⟨j, hj⟩ := List.mem_iff_getElem?.1 hg
      obtain ⟨d, hd, rfl, hpair⟩ := exists_mem_enumsOf hj he
      obtain ⟨rfl, rfl⟩ := Prod.mk.inj hpair
      obtain ⟨id, hid⟩ := List.mem_iff_getElem?.1 hd
      exact ⟨.enumeration id, .enumeration hid rfl ((sees_iff h hf hj).2 hsees), .enumeration hid⟩

/-- A full name stands for nothing when it denotes nothing. -/
theorem named?_eq_none_iff (h : ImportSorted files)
    (hnames : (files.flatMap FileDescriptor.allNames).Nodup) (hf : files[i]? = some f)
    {fullName : String} :
    (ofFiles files).named? i fullName = none ↔ ∀ m, ¬ Denotes files f fullName m := by
  constructor
  · intro hnone m hm
    obtain ⟨x, hx, -⟩ := (exists_named?_iff h hnames hf).2 hm
    exact absurd (hnone.symm.trans hx) nofun
  · intro hall
    refine Option.eq_none_iff_forall_ne_some.2 fun x hx => ?_
    obtain ⟨m, hm⟩ := ((named?_eq_some_iff (distinct_ofFiles hnames)).1 hx).exists_means
    exact hall m ((exists_named?_iff h hnames hf).1 ⟨x, hx, hm⟩)

/-- **A type name is bound to a number that means what the name binds to.** -/
theorem exists_lookup?_iff (h : ImportSorted files)
    (hnames : (files.flatMap FileDescriptor.allNames).Nodup) (hf : files[i]? = some f)
    {scope typeName : String} {m : Meaning} :
    (∃ x, (ofFiles files).lookup? i scope typeName = some x ∧ (ofFiles files).Means x m) ↔
      Binds files f scope typeName m := by
  simp only [lookup?, List.findSome?_eq_some_iff, named?_eq_none_iff h hnames hf]
  constructor
  · rintro ⟨x, ⟨before, name, after, hsplit, hname, hbefore⟩, hmeans⟩
    exact ⟨before, name, after, hsplit, hbefore,
      (exists_named?_iff h hnames hf).1 ⟨x, hname, hmeans⟩⟩
  · rintro ⟨before, name, after, hsplit, hbefore, hdenotes⟩
    obtain ⟨x, hname, hmeans⟩ := (exists_named?_iff h hnames hf).2 hdenotes
    exact ⟨x, ⟨before, name, after, hsplit, hname, hbefore⟩, hmeans⟩

end Files

end Symbols

end Protowire.Schema
