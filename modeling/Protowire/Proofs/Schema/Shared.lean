import Protowire.Proofs.Schema.Renumber

/-!
# Proofs/Schema/Shared — files that two lists share, with all they import

`Shares files others visible` says that the files of `files` whose numbers are in `visible` are
among `others` too, and that they lead to one another only.  Both lists may hold anything else and
in any order, as long as files come after what they import.

A file then sees the same files in both lists (`Shares.sees_iff`), what it declares is declared in
both (`Shares.carried`) and stands in the same places (`Shares.contentsOf_eq`), and its type names
stand for the same things (`Shares.lookup?_eq`) — all under the numbers that `renumbering` gives.
-/

namespace Protowire.Schema

/-- The number among `others` of the file numbered `i`. -/
def fileIn (files others : List FileDescriptor) (i : FileId) : FileId :=
  (files[i]?).elim 0 fun f => (others.map (·.name)).idxOf f.name

/-- The number among what `others` declare, of what is numbered `id` among what `files` declare: as
far behind the first declaration of its file. -/
def idIn {α : Type} (pick : Declaration → Option (Declared α))
    (files others : List FileDescriptor) (id : Nat) : Nat :=
  (((declarations files).filterMap pick)[id]?).elim 0 fun d =>
    countBefore pick others (fileIn files others d.file) + (id - countBefore pick files d.file)

/-- What is declared, under other numbers. -/
def Declared.renumber {α : Type} (r : Renumbering) (d : Declared α) : Declared α :=
  { d with file := r.file d.file, parent := d.parent.map r.message }

/-- The numbers among `others` of what there is in `files`. -/
def renumbering (files others : List FileDescriptor) : Renumbering where
  file := fileIn files others
  message := idIn Declaration.message? files others
  enumeration := idIn Declaration.enumeration? files others

/-- **The visible files of one list are shared by the other**, and see only each other. -/
structure Shares (files others : List FileDescriptor) (visible : FileId → Prop) : Prop where
  sorted : ImportSorted files
  sorted' : ImportSorted others
  exists_mem : ∀ i, visible i → ∃ f ∈ others, files[i]? = some f
  closed : ∀ i j f g, visible i → files[i]? = some f → files[j]? = some g → Sees files f g →
    visible j

/-- Where names are distinct, what a file of a name imports is what it says. -/
theorem imports_iff_mem {files : List FileDescriptor} (hdistinct : (files.map (·.name)).Nodup)
    {f : FileDescriptor} (hf : f ∈ files) {name : String} :
    Imports files f.name name ↔ name ∈ f.imports := by
  constructor
  · rintro ⟨g, hg, hname, himports⟩
    rwa [← List.inj_on_of_nodup_map hdistinct hg hf hname]
  · exact fun himports => ⟨f, hf, rfl, himports⟩

namespace Shares

variable {files others : List FileDescriptor} {visible : FileId → Prop} {i j : FileId}
  {f g : FileDescriptor}

/-! ## What a file sees -/

theorem mem (h : Shares files others visible) (hi : visible i) (hf : files[i]? = some f) :
    f ∈ others := by
  obtain ⟨f', hmem, hf'⟩ := h.exists_mem i hi
  rwa [Option.some.inj (hf.symm.trans hf')]

/-- A file that is shared has its number among the others. -/
theorem getElem?_fileIn (h : Shares files others visible) (hi : visible i)
    (hf : files[i]? = some f) : others[fileIn files others i]? = some f := by
  have hmem := h.mem hi hf
  have hget : (others.map (·.name))[(others.map (·.name)).idxOf f.name]? = some f.name :=
    List.getElem?_idxOf (List.mem_map_of_mem (f := (·.name)) hmem)
  rw [List.getElem?_map, Option.map_eq_some_iff] at hget
  obtain ⟨g, hg, hname⟩ := hget
  rw [fileIn, hf, Option.elim_some, hg,
    List.inj_on_of_nodup_map h.sorted'.distinct (List.mem_of_getElem? hg) hmem hname]

/-- A number among the others is that of one file. -/
theorem fileIn_eq (h : Shares files others visible) (hi : visible i) (hf : files[i]? = some f)
    (hj : others[j]? = some f) : fileIn files others i = j :=
  index_eq_of_key_eq h.sorted'.distinct (h.getElem?_fileIn hi hf) hj rfl

/-- A visible file imports the same in both lists. -/
theorem imports_iff (h : Shares files others visible) (hi : visible i) (hf : files[i]? = some f)
    {name : String} : Imports others f.name name ↔ Imports files f.name name := by
  rw [imports_iff_mem h.sorted'.distinct (h.mem hi hf),
    imports_iff_mem h.sorted.distinct (List.mem_of_getElem? hf)]

/-- What a visible file leads to is visible. -/
theorem exists_visible (h : Shares files others visible) (hi : visible i)
    (hf : files[i]? = some f) {name : String}
    (hreach : Relation.ReflTransGen (Imports files) f.name name) :
    ∃ j g, visible j ∧ files[j]? = some g ∧ g.name = name := by
  rcases hreach.cases_tail with rfl | ⟨middle, -, f', hf', -, himports⟩
  · exact ⟨i, f, hi, hf, rfl⟩
  · obtain ⟨k, hk⟩ := List.mem_iff_getElem?.1 hf'
    obtain ⟨j, -, g, hg, rfl⟩ := h.sorted.exists_lt_of_mem_imports hk himports
    exact ⟨j, g, h.closed i j f g hi hf hg hreach, hg, rfl⟩

/-- **A visible file leads to the same names in both lists.** -/
theorem reaches_iff (h : Shares files others visible) (hi : visible i) (hf : files[i]? = some f)
    {name : String} : Relation.ReflTransGen (Imports others) f.name name ↔
      Relation.ReflTransGen (Imports files) f.name name := by
  constructor
  · intro hreach
    induction hreach with
    | refl => exact .refl
    | tail _ hstep ih =>
      obtain ⟨j, g, hj, hg, rfl⟩ := h.exists_visible hi hf ih
      exact ih.tail ((h.imports_iff hj hg).1 hstep)
  · intro hreach
    induction hreach with
    | refl => exact .refl
    | tail hbefore hstep ih =>
      obtain ⟨j, g, hj, hg, rfl⟩ := h.exists_visible hi hf hbefore
      exact ih.tail ((h.imports_iff hj hg).2 hstep)

/-- **A visible file sees the same files in both lists.** -/
theorem sees_iff (h : Shares files others visible) (hi : visible i) (hf : files[i]? = some f) :
    Sees others f g ↔ Sees files f g :=
  h.reaches_iff hi hf

/-- What a visible file sees among the others is a visible file. -/
theorem exists_of_sees (h : Shares files others visible) (hi : visible i)
    (hf : files[i]? = some f) (hg : others[j]? = some g) (hsees : Sees others f g) :
    ∃ k, visible k ∧ files[k]? = some g ∧ fileIn files others k = j := by
  obtain ⟨k, g', hk, hg', hname⟩ := h.exists_visible hi hf ((h.reaches_iff hi hf).1 hsees)
  obtain rfl : g' = g := List.inj_on_of_nodup_map h.sorted'.distinct (h.mem hk hg')
    (List.mem_of_getElem? hg) hname
  exact ⟨k, hk, hg', h.fileIn_eq hk hg' hg⟩

/-- Different files have different numbers among the others. -/
theorem fileIn_injective (h : Shares files others visible) (hi : visible i) (hj : visible j)
    (hsame : fileIn files others i = fileIn files others j) : i = j := by
  obtain ⟨f, -, hf⟩ := h.exists_mem i hi
  obtain ⟨g, -, hg⟩ := h.exists_mem j hj
  have hf' := h.getElem?_fileIn hi hf
  rw [hsame, h.getElem?_fileIn hj hg] at hf'
  exact index_eq_of_key_eq h.sorted.distinct hf hg (congrArg (·.name) (Option.some.inj hf').symm)

/-! ## What a file declares -/

section Kind

variable {α : Type} {pick : Declaration → Option (Declared α)} {id : Nat} {d : Declared α}

/-- **What a visible file declares**, it declares in both lists as far behind its first
declaration. -/
theorem exists_declared (h : Shares files others visible) (hpick : Picks pick)
    (hd : ((declarations files).filterMap pick)[id]? = some d) (hvisible : visible d.file) :
    ∃ (k : Nat) (d₀ : Declared α), id = countBefore pick files d.file + k ∧
      idIn pick files others id = countBefore pick others (fileIn files others d.file) + k ∧
      d = d₀.shift d.file (messagesBefore files d.file) ∧
      ((declarations others).filterMap pick)[idIn pick files others id]? =
        some (d₀.shift (fileIn files others d.file)
          (messagesBefore others (fileIn files others d.file))) := by
  obtain ⟨n, f, k, d₀, hf, hk, rfl, rfl⟩ := hpick.getElem?_declarations.1 hd
  have hid : idIn pick files others (countBefore pick files n + k) =
      countBefore pick others (fileIn files others n) + k := by
    rw [idIn, hd, Option.elim_some]
    exact congrArg _ (Nat.add_sub_cancel_left ..)
  refine ⟨k, d₀, rfl, hid, rfl, hpick.getElem?_declarations.2 ⟨_, f, k, d₀, ?_, hk, hid, rfl⟩⟩
  exact h.getElem?_fileIn hvisible hf

/-- A parent is in the same file, so it moves by as many messages. -/
theorem map_parent_eq (h : Shares files others visible) {bound : Nat}
    (hvisible : visible d.file) (hstands : Stands files bound d) {parent : Option MessageId}
    (hparent : d.parent = parent.map (messagesBefore files d.file + ·)) :
    parent.map (messagesBefore others (fileIn files others d.file) + ·) =
      d.parent.map (idIn Declaration.message? files others) := by
  cases hstands with
  | top _ hnone _ =>
    rw [hnone] at hparent ⊢
    rw [Option.map_eq_none_iff.1 hparent.symm]
    rfl
  | @nested p q _ hq hfile hsome _ =>
    obtain ⟨k, -, hp, hp', -, -⟩ := h.exists_declared picks_message? hq (hfile ▸ hvisible)
    rw [hfile] at hp hp'
    rw [hsome] at hparent ⊢
    obtain ⟨p₀, rfl, hsum⟩ := Option.map_eq_some_iff.1 hparent.symm
    rw [Option.map_some, Option.map_some, hp', Nat.add_left_cancel (hsum.trans hp)]

/-- **What visible files declare, the others declare under other numbers.** -/
theorem carried (h : Shares files others visible) (hpick : Picks pick)
    (hstands : ∀ (id : Nat) (d : Declared α),
      ((declarations files).filterMap pick)[id]? = some d → ∃ bound, Stands files bound d) :
    Carried ((declarations files).filterMap pick) ((declarations others).filterMap pick)
      Declared.file visible (fileIn files others) (idIn pick files others)
      (Declared.renumber (renumbering files others)) where
  getElem? id d hd hvisible := by
    obtain ⟨k, d₀, -, -, hshift, hget⟩ := h.exists_declared hpick hd hvisible
    obtain ⟨bound, hbound⟩ := hstands id d hd
    have hparent := h.map_parent_eq hvisible hbound (congrArg Declared.parent hshift)
    rw [hget, Declared.shift, hparent, hshift]
    rfl
  exists_of id d i hd hi hfile := by
    obtain ⟨n, f, k, d₀, hf, hk, rfl, rfl⟩ := hpick.getElem?_declarations.1 hd
    obtain rfl : n = fileIn files others i := hfile
    obtain ⟨f', -, hf'⟩ := h.exists_mem i hi
    obtain rfl := Option.some.inj ((h.getElem?_fileIn hi hf').symm.trans hf)
    have hd' := hpick.getElem?_declarations.2 ⟨i, f', k, d₀, hf', hk, rfl, rfl⟩
    refine ⟨_, _, hd', rfl, ?_⟩
    rw [idIn, hd', Option.elim_some]
    exact congrArg _ (Nat.add_sub_cancel_left ..)
  lt id id' d d' hd hd' hvisible hfile hlt := by
    obtain ⟨k, -, hid, hid', -, -⟩ := h.exists_declared hpick hd hvisible
    obtain ⟨k', -, hk, hk', -, -⟩ := h.exists_declared hpick hd' (hfile ▸ hvisible)
    rw [← hfile] at hk hk'
    omega

end Kind

/-- The messages of visible files are declared in both lists. -/
theorem carried_messages (h : Shares files others visible) :
    Carried (messagesOf (declarations files)) (messagesOf (declarations others)) Declared.file
      visible (fileIn files others) (renumbering files others).message
      (Declared.renumber (renumbering files others)) :=
  h.carried picks_message? fun id _ hd => ⟨id, stands_of_getElem?_messagesOf hd⟩

/-- The enums of visible files are declared in both lists. -/
theorem carried_enums (h : Shares files others visible) :
    Carried (enumsOf (declarations files)) (enumsOf (declarations others)) Declared.file
      visible (fileIn files others) (renumbering files others).enumeration
      (Declared.renumber (renumbering files others)) :=
  h.carried picks_enumeration? fun _ _ hd => ⟨_, stands_of_mem_enumsOf (List.mem_of_getElem? hd)⟩

end Shares

/-! ## Where it stands -/

/-- The same place under its other number. -/
def Place.renumber (r : Renumbering) : Place → Place
  | file i => .file (r.file i)
  | message p => .message (r.message p)

/-- A place is a file, or a message that is declared in it. -/
inductive Place.In (files : List FileDescriptor) : Place → FileId → Prop where
  | file (i : FileId) : In files (.file i) i
  | message {p : MessageId} {d : Declared MessageDescriptor}
      (hd : (messagesOf (declarations files))[p]? = some d) : In files (.message p) d.file

/-- What stands in a place is in the file of the place. -/
theorem Place.In.file_eq {files : List FileDescriptor} {place : Place} {i : FileId}
    (hplace : place.In files i) {α : Type} {bound : Nat} {d : Declared α}
    (hstands : Stands files bound d) (hd : d.place = place) : d.file = i := by
  cases hplace with
  | file => exact (Place.of_eq_file_iff.1 hd).1
  | message hp =>
    have hparent := Place.of_eq_message_iff.1 hd
    cases hstands with
    | top _ hnone _ => exact absurd (hnone.symm.trans hparent) nofun
    | nested _ hq hfile hsome _ =>
      obtain rfl := Option.some.inj (hsome.symm.trans hparent)
      obtain rfl := Option.some.inj (hp.symm.trans hq)
      exact hfile.symm

/-- What is declared stands in a place of its file. -/
theorem Stands.in_file {files : List FileDescriptor} {α : Type} {bound : Nat} {d : Declared α}
    (h : Stands files bound d) : d.place.In files d.file := by
  cases h with
  | top _ hparent _ =>
    rw [Declared.place, Place.of_eq_file_iff.2 ⟨rfl, hparent⟩]
    exact .file _
  | nested _ hq hfile hparent _ =>
    rw [Declared.place, Place.of_eq_message_iff.2 hparent, ← hfile]
    exact .message hq

theorem Declared.place_renumber {α : Type} (r : Renumbering) (d : Declared α) :
    (d.renumber r).place = d.place.renumber r := by
  cases hparent : d.parent <;> rw [place, place, renumber, hparent] <;> rfl

namespace Shares

section Places

variable {files others : List FileDescriptor} {visible : FileId → Prop} {i j : FileId}
  {place place' : Place}

/-- A place in a visible file is one of the other list, in the same file. -/
theorem in_fileIn (h : Shares files others visible) (hplace : place.In files i) (hi : visible i) :
    (place.renumber (renumbering files others)).In others (fileIn files others i) := by
  cases hplace with
  | file => exact .file _
  | message hd => exact .message (h.carried_messages.getElem? _ _ hd hi)

/-- Different places have different numbers among the others. -/
theorem place_injective (h : Shares files others visible) (hplace : place.In files i)
    (hplace' : place'.In files j) (hi : visible i) (hj : visible j)
    (hsame : place.renumber (renumbering files others) =
      place'.renumber (renumbering files others)) : place = place' := by
  cases hplace with
  | file =>
    cases hplace' with
    | file => exact congrArg Place.file (h.fileIn_injective hi hj (Place.file.inj hsame))
    | message _ => exact absurd hsame nofun
  | message hd =>
    cases hplace' with
    | file => exact absurd hsame nofun
    | message hd' =>
      exact congrArg Place.message <|
        h.carried_messages.injective (fun _ _ => h.fileIn_injective) (fun _ => rfl) hd hd' hi hj
          (Place.message.inj hsame)

/-- Everything that stands in a place of a visible file stands there among the others. -/
theorem findIdxs_place (h : Shares files others visible) (hplace : place.In files i)
    (hi : visible i) {α : Type} {l l' : List (Declared α)} {toId : Nat → Nat}
    (hcarried : Carried l l' Declared.file visible (fileIn files others) toId
      (Declared.renumber (renumbering files others)))
    (hstands : ∀ (k : Nat) d, l[k]? = some d → ∃ bound, Stands files bound d)
    (hstands' : ∀ (k : Nat) d, l'[k]? = some d → ∃ bound, Stands others bound d) :
    l'.findIdxs (·.place == place.renumber (renumbering files others)) =
      (l.findIdxs (·.place == place)).map toId := by
  refine hcarried.findIdxs hi (fun k d hd hp => ?_) (fun k d hd hp => ?_) fun k d hd hfile => ?_
  · obtain ⟨bound, hbound⟩ := hstands k d hd
    exact hplace.file_eq hbound (eq_of_beq hp)
  · obtain ⟨bound, hbound⟩ := hstands' k d hd
    exact (h.in_fileIn hplace hi).file_eq hbound (eq_of_beq hp)
  · obtain ⟨bound, hbound⟩ := hstands k d hd
    rw [Bool.eq_iff_iff, beq_iff_eq, beq_iff_eq, Declared.place_renumber]
    refine ⟨fun hsame => ?_, congrArg _⟩
    exact h.place_injective hbound.in_file hplace (hfile ▸ hi) hi hsame

/-- **A place of a visible file holds the same in both lists.** -/
theorem contentsOf_eq (h : Shares files others visible) (hplace : place.In files i)
    (hi : visible i) : contentsOf others (place.renumber (renumbering files others)) =
      (contentsOf files place).renumber (renumbering files others) := by
  have hmessages := h.findIdxs_place hplace hi h.carried_messages
    (fun k _ hd => ⟨k, stands_of_getElem?_messagesOf hd⟩)
    fun k _ hd => ⟨k, stands_of_getElem?_messagesOf hd⟩
  have henums := h.findIdxs_place hplace hi h.carried_enums
    (fun _ _ hd => ⟨_, stands_of_mem_enumsOf (List.mem_of_getElem? hd)⟩)
    fun _ _ hd => ⟨_, stands_of_mem_enumsOf (List.mem_of_getElem? hd)⟩
  rw [contentsOf, standingAt, hmessages, henums]
  rfl

end Places

end Shares

/-! ## What a name stands for -/

/-- The same symbol under its other number. -/
def Symbol.renumber (r : Renumbering) : Symbol → Symbol
  | message id => .message (r.message id)
  | enumeration id => .enumeration (r.enumeration id)

/-- A symbol that is declared in a visible file. -/
inductive Symbol.Known (files : List FileDescriptor) (visible : FileId → Prop) : Symbol → Prop where
  | message {id : MessageId} {d : Declared MessageDescriptor}
      (hd : (messagesOf (declarations files))[id]? = some d) (hvisible : visible d.file) :
      Known files visible (.message id)
  | enumeration {id : EnumId} {d : Declared EnumDescriptor}
      (hd : (enumsOf (declarations files))[id]? = some d) (hvisible : visible d.file) :
      Known files visible (.enumeration id)

namespace Shares

section Names

variable {files others : List FileDescriptor} {visible : FileId → Prop} {i : FileId}
  {fullName : String} {x : Symbol}

/-- What a visible file sees is visible, and the file sees it among the others too. -/
theorem visible_of_sees (h : Shares files others visible) (hi : visible i) {α : Type}
    {d : Declared α} {g : FileDescriptor} (hg : files[d.file]? = some g)
    (hsees : (Symbols.ofFiles files).sees i d.file = true) :
    visible d.file ∧ (Symbols.ofFiles others).sees (fileIn files others i)
      (fileIn files others d.file) = true := by
  obtain ⟨f, -, hf⟩ := h.exists_mem i hi
  have hsees := (Symbols.sees_iff h.sorted hf hg).1 hsees
  have hvisible := h.closed i d.file f g hi hf hg hsees
  exact ⟨hvisible, (Symbols.sees_iff h.sorted' (h.getElem?_fileIn hi hf)
    (h.getElem?_fileIn hvisible hg)).2 ((h.sees_iff hi hf).2 hsees)⟩

/-- **What a full name stands for in a visible file is known**, and the name stands for it among the
others too. -/
theorem named (h : Shares files others visible) (hi : visible i)
    (hnamed : (Symbols.ofFiles files).Named i fullName x) :
    x.Known files visible ∧ (Symbols.ofFiles others).Named (fileIn files others i) fullName
      (x.renumber (renumbering files others)) := by
  cases hnamed with
  | message hd hname hsees =>
    obtain ⟨-, g, hg, -⟩ := mem_allMessages (List.mem_of_getElem? hd)
    obtain ⟨hvisible, hsees⟩ := h.visible_of_sees hi hg hsees
    exact ⟨.message hd hvisible,
      .message (h.carried_messages.getElem? _ _ hd hvisible) hname hsees⟩
  | enumeration hd hname hsees =>
    obtain ⟨-, g, hg, -⟩ := mem_allEnums (List.mem_of_getElem? hd)
    obtain ⟨hvisible, hsees⟩ := h.visible_of_sees hi hg hsees
    exact ⟨.enumeration hd hvisible,
      .enumeration (h.carried_enums.getElem? _ _ hd hvisible) hname hsees⟩

/-- What a visible file sees among the others is in a visible file. -/
theorem exists_of_sees_fileIn (h : Shares files others visible) (hi : visible i) {j : FileId}
    {g : FileDescriptor} (hg : others[j]? = some g)
    (hsees : (Symbols.ofFiles others).sees (fileIn files others i) j = true) :
    ∃ k, visible k ∧ files[k]? = some g ∧ j = fileIn files others k ∧
      (Symbols.ofFiles files).sees i k = true := by
  obtain ⟨f, -, hf⟩ := h.exists_mem i hi
  have hsees' := (Symbols.sees_iff h.sorted' (h.getElem?_fileIn hi hf) hg).1 hsees
  obtain ⟨k, hk, hg', rfl⟩ := h.exists_of_sees hi hf hg hsees'
  exact ⟨k, hk, hg', rfl, (Symbols.sees_iff h.sorted hf hg').2 ((h.sees_iff hi hf).1 hsees')⟩

/-- **A full name stands for nothing else among the others.** -/
theorem exists_of_named (h : Shares files others visible) (hi : visible i) {y : Symbol}
    (hnamed : (Symbols.ofFiles others).Named (fileIn files others i) fullName y) :
    ∃ x, y = x.renumber (renumbering files others) ∧
      (Symbols.ofFiles files).Named i fullName x := by
  cases hnamed with
  | @message _ d hd hname hsees =>
    obtain ⟨-, g, hg, -⟩ := mem_allMessages (List.mem_of_getElem? hd)
    obtain ⟨k, hk, -, hfile, hseen⟩ := h.exists_of_sees_fileIn hi hg hsees
    obtain ⟨id, e, he, rfl, rfl, rfl⟩ := h.carried_messages.exists_change hd hk hfile
    exact ⟨.message id, rfl, .message he hname hseen⟩
  | @enumeration _ d hd hname hsees =>
    obtain ⟨-, g, hg, -⟩ := mem_allEnums (List.mem_of_getElem? hd)
    obtain ⟨k, hk, -, hfile, hseen⟩ := h.exists_of_sees_fileIn hi hg hsees
    obtain ⟨id, e, he, rfl, rfl, rfl⟩ := h.carried_enums.exists_change hd hk hfile
    exact ⟨.enumeration id, rfl, .enumeration he hname hseen⟩

variable (hnames : (files.flatMap FileDescriptor.allNames).Nodup)
  (hnames' : (others.flatMap FileDescriptor.allNames).Nodup)

include hnames hnames'

/-- **A full name stands for the same in both lists.** -/
theorem named?_eq (h : Shares files others visible) (hi : visible i) :
    (Symbols.ofFiles others).named? (fileIn files others i) fullName =
      ((Symbols.ofFiles files).named? i fullName).map
        (Symbol.renumber (renumbering files others)) := by
  refine Option.ext fun y => ?_
  rw [Option.map_eq_some_iff, Symbols.named?_eq_some_iff (Symbols.distinct_ofFiles hnames')]
  simp only [Symbols.named?_eq_some_iff (Symbols.distinct_ofFiles hnames)]
  constructor
  · intro hy
    obtain ⟨x, rfl, hx⟩ := h.exists_of_named hi hy
    exact ⟨x, hx, rfl⟩
  · rintro ⟨x, hx, rfl⟩
    exact (h.named hi hx).2

/-- **A type name stands for the same in both lists.** -/
theorem lookup?_eq (h : Shares files others visible) (hi : visible i) (scope typeName : String) :
    (Symbols.ofFiles others).lookup? (fileIn files others i) scope typeName =
      ((Symbols.ofFiles files).lookup? i scope typeName).map
        (Symbol.renumber (renumbering files others)) := by
  rw [Symbols.lookup?, Symbols.lookup?, List.map_findSome?]
  congr 1
  funext fullName
  exact h.named?_eq hnames hnames' hi

omit hnames' in
/-- What a type name stands for is known. -/
theorem known_of_lookup? (h : Shares files others visible) (hi : visible i)
    {scope typeName : String}
    (hlookup : (Symbols.ofFiles files).lookup? i scope typeName = some x) :
    x.Known files visible := by
  obtain ⟨fullName, -, hnamed⟩ := List.exists_of_findSome?_eq_some hlookup
  exact (h.named hi ((Symbols.named?_eq_some_iff (Symbols.distinct_ofFiles hnames)).1 hnamed)).1

end Names

end Shares

end Protowire.Schema
