import Protowire.Codegen.Config
import Protowire.Proofs.Steps
import Protowire.Proofs.Text.Split

/-!
# Proofs/Codegen/Parameters — a parameter with another behind it

The items of two parameters with a comma between them are those of the one and then those of the
other (`Config.items_append`), so the settings of the second are made after those of the first.  A
setting is **the choice for one key** (`Setting.key`): it leaves the other keys alone
(`Setting.get_apply_of_ne`) and asks nothing of what was chosen before (`Setting.get_apply`).  So
the last one for a key decides, and settings for different keys may change places.

Which keys a parameter mentions is read off its items (`Config.Mentions`), before any of them is
taken for a setting.
-/

namespace Protowire

open Text

namespace Config

/-! ## Keys -/

/-- What there is to choose. -/
inductive Key where
  | runtimePath
  | btreeMap
  | emitDigest
  | emitIndex
  | indent
  deriving DecidableEq, Repr

namespace Key

/-- The name of the key in a parameter. -/
def name : Key → String
  | runtimePath => "runtime_path"
  | btreeMap => "btree_map"
  | emitDigest => "emit_digest"
  | emitIndex => "emit_index"
  | indent => "indent"

/-- What is chosen for a key. -/
def Value : Key → Type
  | runtimePath | indent => String
  | btreeMap | emitDigest | emitIndex => Bool

theorem name_injective : Function.Injective name := by
  intro key key' h
  cases key <;> cases key' <;> first | rfl | exact absurd h (by decide)

end Key

/-- What a configuration has for a key. -/
def get (c : Config) : (key : Key) → key.Value
  | .runtimePath => c.runtimePath
  | .btreeMap => c.btreeMap
  | .emitDigest => c.emitDigest
  | .emitIndex => c.emitIndex
  | .indent => c.indent

/-- **A configuration is what it has for the keys.** -/
theorem eq_of_get {c d : Config} (h : ∀ key, c.get key = d.get key) : c = d := by
  obtain ⟨_, _, _, _, _⟩ := c
  obtain ⟨_, _, _, _, _⟩ := d
  obtain rfl := h .runtimePath
  obtain rfl := h .btreeMap
  obtain rfl := h .emitDigest
  obtain rfl := h .emitIndex
  obtain rfl := h .indent
  rfl

end Config

namespace Setting

/-- The key a setting is for. -/
def key : Setting → Config.Key
  | runtimePath _ => .runtimePath
  | btreeMap _ => .btreeMap
  | emitDigest _ => .emitDigest
  | emitIndex _ => .emitIndex
  | indent _ => .indent

variable {s : Setting} {key : Config.Key}

/-- A setting leaves the other keys alone. -/
theorem get_apply_of_ne (h : s.key ≠ key) (c : Config) : (apply c s).get key = c.get key := by
  cases s <;> cases key <;> first | rfl | exact absurd rfl h

/-- A setting decides its key, whatever was chosen before. -/
theorem get_apply (s : Setting) (c d : Config) : (apply c s).get s.key = (apply d s).get s.key := by
  cases s <;> rfl

/-- Settings leave the keys alone that none of them is for. -/
theorem get_foldl_of_notMem {ss : List Setting} (h : ∀ s ∈ ss, s.key ≠ key) (c : Config) :
    (ss.foldl apply c).get key = c.get key := by
  induction ss generalizing c with
  | nil => rfl
  | cons s ss ih =>
    obtain ⟨hs, hss⟩ := List.forall_mem_cons.1 h
    exact (ih hss (apply c s)).trans (get_apply_of_ne hs c)

/-- Settings decide the keys that they are for, whatever was chosen before. -/
theorem get_foldl_of_mem {ss : List Setting} (h : ∃ s ∈ ss, s.key = key) (c d : Config) :
    (ss.foldl apply c).get key = (ss.foldl apply d).get key := by
  induction ss generalizing c d with
  | nil =>
    obtain ⟨s, hs, -⟩ := h
    exact absurd hs List.not_mem_nil
  | cons s ss ih =>
    by_cases hrest : ∃ s ∈ ss, s.key = key
    · exact ih hrest _ _
    · have hkey : s.key = key := by
        obtain ⟨s', hmem, hkey⟩ := h
        rcases List.mem_cons.1 hmem with rfl | hmem
        · exact hkey
        · exact absurd ⟨s', hmem, hkey⟩ hrest
      subst hkey
      have hrest' : ∀ s' ∈ ss, s'.key ≠ s.key := fun s' hmem heq => hrest ⟨s', hmem, heq⟩
      rw [List.foldl_cons, List.foldl_cons, get_foldl_of_notMem hrest', get_foldl_of_notMem hrest']
      exact get_apply s c d

/-- **Settings for different keys may change places.** -/
theorem foldl_append_comm {ss ts : List Setting} (h : ∀ s ∈ ss, ∀ t ∈ ts, s.key ≠ t.key)
    (c : Config) : (ss ++ ts).foldl apply c = (ts ++ ss).foldl apply c := by
  refine Config.eq_of_get fun key => ?_
  rw [List.foldl_append, List.foldl_append]
  by_cases hs : ∃ s ∈ ss, s.key = key
  · have ht : ∀ t ∈ ts, t.key ≠ key := fun t hmem heq => by
      obtain ⟨s, hs, hkey⟩ := hs
      exact h s hs t hmem (hkey.trans heq.symm)
    rw [get_foldl_of_notMem ht]
    exact get_foldl_of_mem hs _ _
  · have hs' : ∀ s ∈ ss, s.key ≠ key := fun s hmem heq => hs ⟨s, hmem, heq⟩
    rw [get_foldl_of_notMem hs']
    by_cases ht : ∃ t ∈ ts, t.key = key
    · exact get_foldl_of_mem ht _ _
    · have ht' : ∀ t ∈ ts, t.key ≠ key := fun t hmem heq => ht ⟨t, hmem, heq⟩
      rw [get_foldl_of_notMem ht', get_foldl_of_notMem ht', get_foldl_of_notMem hs']

/-! ## Items -/

/-- What stands in an item in front of the equals sign, or all of it. -/
def keyText (item : List Char) : List Char :=
  match splitOnce '=' item with
  | some (key, _) => trim key
  | none => item

/-- What a value gives a setting of one key for, is a setting of that key. -/
theorem eq_name_of_elim {α : Type} (key : Config.Key) {text : List Char} {found : Option α}
    {fault : ParameterFault} {f : α → Setting} (hf : ∀ a, (f a).key = key)
    (htext : text = key.name.toList)
    (h : found.elim (Except.error fault) (fun a => Except.ok (f a)) = .ok s) :
    text = s.key.name.toList := by
  cases found with
  | none => exact absurd h nofun
  | some a =>
    obtain rfl := Except.ok.inj h
    rw [hf a]
    exact htext

theorem eq_name_of_ofKey {text : List Char} {value : Option (List Char)}
    (h : ofKey text value = .ok s) : text = s.key.name.toList := by
  rw [ofKey] at h
  split at h
  · rename_i htext
    exact eq_name_of_elim .runtimePath (fun _ => rfl) htext h
  split at h
  · rename_i htext
    exact eq_name_of_elim .btreeMap (fun _ => rfl) htext h
  split at h
  · rename_i htext
    exact eq_name_of_elim .emitDigest (fun _ => rfl) htext h
  split at h
  · rename_i htext
    exact eq_name_of_elim .emitIndex (fun _ => rfl) htext h
  split at h
  · rename_i htext
    exact eq_name_of_elim .indent (fun _ => rfl) htext h
  · exact absurd h nofun

/-- **A setting is for the key that its item names.** -/
theorem keyText_of_ofItem {item : List Char} (h : ofItem item = .ok s) :
    keyText item = s.key.name.toList := by
  have hfound := mapError_eq_ok_iff.1 h
  rw [keyText]
  cases hsplit : splitOnce '=' item with
  | none =>
    rw [hsplit] at hfound
    exact eq_name_of_ofKey hfound
  | some found =>
    rw [hsplit] at hfound
    exact eq_name_of_ofKey hfound

/-- **Blanks around the key and around the value do not count**, but for how the item is quoted when
it is refused. -/
theorem mapError_ofItem_trim {text value : List Char} (h : '=' ∉ text) :
    (ofItem (trim (text ++ '=' :: value))).mapError (·.fault) =
      ofKey (trim text) (some (trim value)) := by
  have htext : '=' ∉ text.dropWhile isBlank := fun hmem =>
    h ((List.dropWhile_sublist _).subset hmem)
  rw [trim_append_cons (by decide), ofItem, splitOnce_append_cons htext]
  dsimp only
  rw [trim_dropWhile, trim_trimEnd]
  cases ofKey (trim text) (some (trim value)) <;> rfl

end Setting

namespace Config

/-- Parameters with commas between them. -/
def join (parts : List String) : String := ",".intercalate parts

/-- An item of the parameter names the key. -/
def Mentions (parameter : String) (key : Key) : Prop :=
  ∃ item ∈ items parameter, Setting.keyText item = key.name.toList

instance (parameter : String) (key : Key) : Decidable (Mentions parameter key) :=
  inferInstanceAs (Decidable (∃ item ∈ items parameter, Setting.keyText item = key.name.toList))

variable {p q x : String} {before after parts : List String} {ss ts : List Setting}
  {e : ParameterError} {c : Config}

/-- **The items of a parameter behind another are those of both.** -/
theorem items_append (p q : String) : items (p ++ "," ++ q) = items p ++ items q := by
  have htext : (p ++ "," ++ q).toList = p.toList ++ ',' :: q.toList := by
    rw [String.toList_append, String.toList_append, List.append_assoc]
    rfl
  rw [items, htext, splitAll_append_cons, List.map_append, List.filter_append, items, items]

theorem items_join (parts : List String) : items (join parts) = parts.flatMap items := by
  induction parts with
  | nil => decide
  | cons first parts ih =>
    cases parts with
    | nil => rw [join, String.intercalate_singleton, List.flatMap_singleton]
    | cons second parts =>
      rw [List.flatMap_cons, ← ih, join, String.intercalate_cons_cons, items_append]
      rfl

/-- A text without a comma is one item, if it is not blank. -/
theorem items_of_notMem (h : ',' ∉ p.toList) :
    items p = [trim p.toList].filter fun item => !item.isEmpty := by
  rw [items, splitAll_of_notMem h]
  rfl

theorem items_of_blank (h : Blank p.toList) : items p = [] := by
  have hcomma : ',' ∉ p.toList := fun hmem => absurd (h _ hmem) (by decide)
  rw [items_of_notMem hcomma, trim_of_blank h]
  rfl

theorem items_join_cons (x : String) (after : List String) :
    items (join (x :: after)) = items x ++ items (join after) := by
  rw [items_join, items_join, List.flatMap_cons]

theorem items_join_append (before after : List String) :
    items (join (before ++ after)) = items (join before) ++ items (join after) := by
  rw [items_join, items_join, items_join, List.flatMap_append]

/-- **A parameter is its items.** -/
theorem parse_eq_of_items (h : items p = items q) : parse p = parse q := by
  rw [parse, parse, settings, settings, h]

theorem parse_join_congr {x y : String} (before after : List String) (h : items x = items y) :
    parse (join (before ++ x :: after)) = parse (join (before ++ y :: after)) :=
  parse_eq_of_items (by simp only [items_join_append, items_join_cons, h])

/-! ## Settings one after the other -/

theorem parse_eq_ok_iff : parse p = .ok c ↔
    ∃ ss, settings p = .ok ss ∧ c = ss.foldl Setting.apply standard := by
  rw [parse, bind_eq_ok_iff]
  exact exists_congr fun ss => and_congr_right fun _ =>
    ⟨fun h => (Except.ok.inj h).symm, fun h => congrArg _ h.symm⟩

theorem parse_eq_error_iff : parse p = .error e ↔ settings p = .error e := by
  rw [parse, bind_eq_error_iff]
  exact ⟨fun h => h.elim id fun ⟨_, _, h⟩ => absurd h nofun, .inl⟩

theorem exists_settings_iff : (∃ c, parse p = .ok c) ↔ ∃ ss, settings p = .ok ss := by
  simp only [parse_eq_ok_iff]
  exact ⟨fun ⟨_, ss, h, _⟩ => ⟨ss, h⟩, fun ⟨ss, h⟩ => ⟨_, ss, h, rfl⟩⟩

theorem settings_append_eq_ok_iff : settings (p ++ "," ++ q) = .ok ss ↔
    ∃ s t, settings p = .ok s ∧ settings q = .ok t ∧ ss = s ++ t := by
  rw [settings, items_append, mapM_append_eq_ok_iff, settings, settings]

theorem settings_append_eq_error_iff : settings (p ++ "," ++ q) = .error e ↔
    settings p = .error e ∨ ∃ s, settings p = .ok s ∧ settings q = .error e := by
  rw [settings, items_append, mapM_append_eq_error_iff, settings, settings]

theorem settings_join_cons_eq_error_iff : settings (join (x :: after)) = .error e ↔
    settings x = .error e ∨ ∃ s, settings x = .ok s ∧ settings (join after) = .error e := by
  rw [settings, items_join_cons, mapM_append_eq_error_iff, settings, settings]

theorem settings_join_cons_eq_ok_iff : settings (join (x :: after)) = .ok ss ↔
    ∃ s t, settings x = .ok s ∧ settings (join after) = .ok t ∧ ss = s ++ t := by
  rw [settings, items_join_cons, mapM_append_eq_ok_iff, settings, settings]

theorem settings_join_append_eq_ok_iff : settings (join (before ++ after)) = .ok ss ↔
    ∃ s t, settings (join before) = .ok s ∧ settings (join after) = .ok t ∧ ss = s ++ t := by
  rw [settings, items_join_append, mapM_append_eq_ok_iff, settings, settings]

/-- **The keys that are mentioned are those that there are settings for.** -/
theorem mentions_iff (h : settings p = .ok ss) {key : Key} :
    Mentions p key ↔ ∃ s ∈ ss, s.key = key := by
  have hitems : List.Forall₂ (fun item s => Setting.ofItem item = .ok s) (items p) ss :=
    mapM_eq_ok_iff.1 h
  have hnone := forall_mem_iff_of_forall₂ (q := fun s => ¬ s.key = key)
    (p := fun item => ¬ Setting.keyText item = key.name.toList) hitems fun item s hs => by
      rw [Setting.keyText_of_ofItem hs, String.toList_inj, Key.name_injective.eq_iff]
  simpa [Mentions] using not_congr hnone

theorem mentions_join_iff {key : Key} :
    Mentions (join parts) key ↔ ∃ part ∈ parts, Mentions part key := by
  simp only [Mentions, items_join, List.mem_flatMap]
  constructor
  · rintro ⟨item, ⟨part, hpart, hitem⟩, hkey⟩
    exact ⟨part, hpart, item, hitem, hkey⟩
  · rintro ⟨part, hpart, item, hitem, hkey⟩
    exact ⟨item, ⟨part, hpart, hitem⟩, hkey⟩

/-- **Settings decide the keys that their parameter mentions**, whatever was chosen before, and
leave the others alone. -/
theorem get_foldl (h : settings p = .ok ss) (key : Key) (d : Config) :
    (Mentions p key →
      (ss.foldl Setting.apply d).get key = (ss.foldl Setting.apply standard).get key) ∧
      (¬ Mentions p key → (ss.foldl Setting.apply d).get key = d.get key) := by
  rw [mentions_iff h]
  refine ⟨fun hkey => Setting.get_foldl_of_mem hkey d standard, fun hkey => ?_⟩
  exact Setting.get_foldl_of_notMem (fun s hs heq => hkey ⟨s, hs, heq⟩) d

/-! ## Parameters one behind the other -/

theorem parse_append_of_error (q : String) (h : parse p = .error e) :
    parse (p ++ "," ++ q) = .error e :=
  parse_eq_error_iff.2 (settings_append_eq_error_iff.2 (.inl (parse_eq_error_iff.1 h)))

theorem parse_append_of_ok (h : parse p = .ok c) (hq : parse q = .error e) :
    parse (p ++ "," ++ q) = .error e := by
  obtain ⟨s, hs, -⟩ := parse_eq_ok_iff.1 h
  exact parse_eq_error_iff.2
    (settings_append_eq_error_iff.2 (.inr ⟨s, hs, parse_eq_error_iff.1 hq⟩))

/-- **What a parameter mentions, it decides**; the rest is as the parameter before it says. -/
theorem exists_parse_append {a b : Config} (hp : parse p = .ok a) (hq : parse q = .ok b) :
    ∃ c, parse (p ++ "," ++ q) = .ok c ∧ ∀ key : Key,
      (Mentions q key → c.get key = b.get key) ∧ (¬ Mentions q key → c.get key = a.get key) := by
  obtain ⟨s, hs, rfl⟩ := parse_eq_ok_iff.1 hp
  obtain ⟨t, ht, rfl⟩ := parse_eq_ok_iff.1 hq
  refine ⟨_, parse_eq_ok_iff.2 ⟨_, settings_append_eq_ok_iff.2 ⟨s, t, hs, ht, rfl⟩, rfl⟩, ?_⟩
  intro key
  rw [List.foldl_append]
  exact get_foldl ht key _

/-- **The last that mentions a key decides it.** -/
theorem exists_parse_of_last {key : Key} (h : parse (join (before ++ x :: after)) = .ok c)
    (hx : Mentions x key) (hafter : ∀ y ∈ after, ¬ Mentions y key) :
    ∃ d, parse x = .ok d ∧ c.get key = d.get key := by
  obtain ⟨ss, hss, rfl⟩ := parse_eq_ok_iff.1 h
  obtain ⟨s, _, -, hback, rfl⟩ := settings_join_append_eq_ok_iff.1 hss
  obtain ⟨t, u, ht, hu, rfl⟩ := settings_join_cons_eq_ok_iff.1 hback
  have hrest : ¬ Mentions (join after) key := fun hkey => by
    obtain ⟨y, hy, hkey⟩ := mentions_join_iff.1 hkey
    exact hafter y hy hkey
  refine ⟨_, parse_eq_ok_iff.2 ⟨t, ht, rfl⟩, ?_⟩
  rw [List.foldl_append, List.foldl_append, (get_foldl hu key _).2 hrest]
  exact (get_foldl ht key _).1 hx

/-- **Neighbours that mention different keys may change places.** -/
theorem parse_join_swap {y : String} (hkeys : ∀ key, ¬ (Mentions x key ∧ Mentions y key))
    (h : parse (join (before ++ x :: y :: after)) = .ok c) :
    parse (join (before ++ y :: x :: after)) = .ok c := by
  obtain ⟨ss, hss, rfl⟩ := parse_eq_ok_iff.1 h
  obtain ⟨s, _, hs, hfromX, rfl⟩ := settings_join_append_eq_ok_iff.1 hss
  obtain ⟨t, _, ht, hfromY, rfl⟩ := settings_join_cons_eq_ok_iff.1 hfromX
  obtain ⟨u, v, hu, hv, rfl⟩ := settings_join_cons_eq_ok_iff.1 hfromY
  have hdiffer : ∀ a ∈ t, ∀ b ∈ u, a.key ≠ b.key := fun a ha b hb heq =>
    hkeys b.key ⟨(mentions_iff ht).2 ⟨a, ha, heq⟩, (mentions_iff hu).2 ⟨b, hb, rfl⟩⟩
  have hswapped : settings (join (before ++ y :: x :: after)) = .ok (s ++ (u ++ (t ++ v))) :=
    settings_join_append_eq_ok_iff.2 ⟨s, _, hs, settings_join_cons_eq_ok_iff.2
      ⟨u, _, hu, settings_join_cons_eq_ok_iff.2 ⟨t, v, ht, hv, rfl⟩, rfl⟩, rfl⟩
  refine parse_eq_ok_iff.2 ⟨_, hswapped, ?_⟩
  rw [← List.append_assoc t u v, ← List.append_assoc u t v]
  have hparts (w : List Setting) (d : Config) : (s ++ (w ++ v)).foldl Setting.apply d =
      v.foldl Setting.apply (w.foldl Setting.apply (s.foldl Setting.apply d)) := by
    rw [List.foldl_append, List.foldl_append]
  rw [hparts, hparts, Setting.foldl_append_comm hdiffer]

/-- **A blank item does not count.** -/
theorem parse_join_blank (before after : List String) (h : Blank x.toList) :
    parse (join (before ++ x :: after)) = parse (join (before ++ after)) := by
  refine parse_eq_of_items ?_
  rw [items_join_append, items_join_append, items_join_cons, items_of_blank h, List.nil_append]

/-- **Blanks around an item do not count.** -/
theorem parse_join_around {w w' : String} (before after : List String) (h : Blank w.toList)
    (h' : Blank w'.toList) (hx : ',' ∉ x.toList) :
    parse (join (before ++ (w ++ x ++ w') :: after)) = parse (join (before ++ x :: after)) := by
  refine parse_join_congr before after ?_
  have hcomma {v : String} (hv : Blank v.toList) : ',' ∉ v.toList := fun hmem =>
    absurd (hv _ hmem) (by decide)
  have hwhole : ',' ∉ (w ++ x ++ w').toList := by
    simp only [String.toList_append, List.mem_append, not_or]
    exact ⟨⟨hcomma h, hx⟩, hcomma h'⟩
  rw [items_of_notMem hwhole, items_of_notMem hx, String.toList_append, String.toList_append,
    trim_append_blank h', trim_blank_append h]

/-- What a parameter is refused for, but for how its item is quoted, is said item by item. -/
theorem mapError_parse (p : String) : (parse p).mapError (·.fault) = do
    let ss ← (items p).mapM fun item => (Setting.ofItem item).mapError (·.fault)
    return ss.foldl Setting.apply standard := by
  rw [parse, mapError_bind, settings, mapError_mapM]
  rfl

/-- An item of a key and a value is read without the blanks around them. -/
theorem mapM_items_of_equals {text value : List Char} (hp : p.toList = text ++ '=' :: value)
    (htext : ',' ∉ text ∧ '=' ∉ text) (hvalue : ',' ∉ value) :
    ((items p).mapM fun item => (Setting.ofItem item).mapError (·.fault)) = do
      return [← Setting.ofKey (trim text) (some (trim value))] := by
  have hcomma : ',' ∉ p.toList := by
    rw [hp, List.mem_append, List.mem_cons, not_or, not_or]
    exact ⟨htext.1, by decide, hvalue⟩
  have hitem : trim p.toList ≠ [] := by
    rw [hp, trim_append_cons (by decide)]
    exact List.append_ne_nil_of_right_ne_nil _ (List.cons_ne_nil _ _)
  rw [items_of_notMem hcomma, List.filter_cons_of_pos (by simpa using hitem), List.filter_nil,
    List.mapM_cons, hp, Setting.mapError_ofItem_trim htext.2]
  rfl

/-- **Blanks around a key and around a value do not count**, but for how the item is quoted when it
is refused. -/
theorem mapError_parse_join_around {text value w w' : String} (before after : List String)
    (h : Blank w.toList) (h' : Blank w'.toList) (htext : ',' ∉ text.toList ∧ '=' ∉ text.toList)
    (hvalue : ',' ∉ value.toList) :
    (parse (join (before ++ (text ++ w ++ "=" ++ w' ++ value) :: after))).mapError (·.fault) =
      (parse (join (before ++ (text ++ "=" ++ value) :: after))).mapError (·.fault) := by
  have hmark {mark : Char} (hmark : isBlank mark = false) {v : String} (hv : Blank v.toList) :
      mark ∉ v.toList := fun hmem => Bool.false_ne_true (hmark.symm.trans (hv _ hmem))
  have hspaced : (text ++ w ++ "=" ++ w' ++ value).toList =
      (text.toList ++ w.toList) ++ '=' :: (w'.toList ++ value.toList) := by
    simp [String.toList_append]
  have hplain : (text ++ "=" ++ value).toList = text.toList ++ '=' :: value.toList := by
    simp [String.toList_append]
  have htext' : ',' ∉ text.toList ++ w.toList ∧ '=' ∉ text.toList ++ w.toList := by
    simp only [List.mem_append, not_or]
    exact ⟨⟨htext.1, hmark rfl h⟩, htext.2, hmark rfl h⟩
  have hvalue' : ',' ∉ w'.toList ++ value.toList := by
    rw [List.mem_append, not_or]
    exact ⟨hmark rfl h', hvalue⟩
  rw [mapError_parse, mapError_parse, items_join_append, items_join_append, items_join_cons,
    items_join_cons]
  simp only [List.mapM_append]
  rw [mapM_items_of_equals hspaced htext' hvalue', mapM_items_of_equals hplain htext hvalue,
    trim_append_blank h, trim_blank_append h']

/-- **The first part that is refused says why the whole is.** -/
theorem parse_join_eq_error_iff : parse (join parts) = .error e ↔
    ∃ before x after, parts = before ++ x :: after ∧ (∀ y ∈ before, ∃ c, parse y = .ok c) ∧
      parse x = .error e := by
  simp only [parse_eq_error_iff, exists_settings_iff]
  induction parts with
  | nil =>
    refine iff_of_false nofun ?_
    rintro ⟨before, x, after, h, -⟩
    exact List.append_ne_nil_of_right_ne_nil before (List.cons_ne_nil x after) h.symm
  | cons first parts ih =>
    rw [settings_join_cons_eq_error_iff, ih]
    constructor
    · rintro (h | ⟨s, hs, before, x, after, rfl, hbefore, hx⟩)
      · exact ⟨[], first, parts, rfl, nofun, h⟩
      · exact ⟨first :: before, x, after, rfl, List.forall_mem_cons.2 ⟨⟨s, hs⟩, hbefore⟩, hx⟩
    · rintro ⟨before, x, after, h, hbefore, hx⟩
      cases before with
      | nil =>
        obtain ⟨rfl, rfl⟩ := List.cons.inj h
        exact .inl hx
      | cons y before =>
        obtain ⟨rfl, rfl⟩ := List.cons.inj h
        obtain ⟨⟨s, hs⟩, hbefore⟩ := List.forall_mem_cons.1 hbefore
        exact .inr ⟨s, hs, before, x, after, rfl, hbefore, hx⟩

/-! ## The whole -/

/-- **Parameters compose.**  Behind a comma, a parameter decides what it mentions, and the rest is
as the one in front of it says; the first of the two that is refused says why both are.  So in what
is accepted the last to mention a key decides it, neighbours with different keys may change places,
and neither blank items nor blanks around items, keys and values count; and the first part that is
refused says why the whole is. -/
theorem parameters_compose :
    (∀ p q e, parse p = .error e → parse (p ++ "," ++ q) = .error e) ∧
    (∀ p q a e, parse p = .ok a → parse q = .error e → parse (p ++ "," ++ q) = .error e) ∧
    (∀ p q a b, parse p = .ok a → parse q = .ok b →
      ∃ c, parse (p ++ "," ++ q) = .ok c ∧ ∀ key : Key,
        (Mentions q key → c.get key = b.get key) ∧ (¬ Mentions q key → c.get key = a.get key)) ∧
    (∀ before x after c, ∀ key : Key, parse (join (before ++ x :: after)) = .ok c →
      Mentions x key → (∀ y ∈ after, ¬ Mentions y key) →
      ∃ d, parse x = .ok d ∧ c.get key = d.get key) ∧
    (∀ before x y after c, (∀ key, ¬ (Mentions x key ∧ Mentions y key)) →
      parse (join (before ++ x :: y :: after)) = .ok c →
      parse (join (before ++ y :: x :: after)) = .ok c) ∧
    (∀ before x after, Blank x.toList →
      parse (join (before ++ x :: after)) = parse (join (before ++ after))) ∧
    (∀ before x after w w', Blank w.toList → Blank w'.toList → ',' ∉ x.toList →
      parse (join (before ++ (w ++ x ++ w') :: after)) = parse (join (before ++ x :: after))) ∧
    (∀ before text value after w w', Blank w.toList → Blank w'.toList →
      ',' ∉ text.toList ∧ '=' ∉ text.toList → ',' ∉ value.toList →
      (parse (join (before ++ (text ++ w ++ "=" ++ w' ++ value) :: after))).mapError (·.fault) =
        (parse (join (before ++ (text ++ "=" ++ value) :: after))).mapError (·.fault)) ∧
    ∀ parts e, parse (join parts) = .error e ↔
      ∃ before x after, parts = before ++ x :: after ∧ (∀ y ∈ before, ∃ c, parse y = .ok c) ∧
        parse x = .error e :=
  ⟨fun _ q _ => parse_append_of_error q, fun _ _ _ _ => parse_append_of_ok,
    fun _ _ _ _ => exists_parse_append, fun _ _ _ _ _ => exists_parse_of_last,
    fun _ _ _ _ _ => parse_join_swap, fun before _ after => parse_join_blank before after,
    fun before _ after _ _ => parse_join_around before after,
    fun before _ _ after _ _ => mapError_parse_join_around before after,
    fun _ _ => parse_join_eq_error_iff⟩

/-- A width that is chosen twice, with a flag beside it, and items that are refused. -/
theorem parameters_compose_indent_twice :
    parse ("indent=0" ++ "," ++ "indent=17") = .error ⟨"indent=0", .expectedWidth⟩ ∧
      parse ("btree_map, indent=2" ++ "," ++ "indent=17") = .error ⟨"indent=17", .expectedWidth⟩ ∧
      (∃ c, parse ("btree_map, indent=2" ++ "," ++ "indent = 3") = .ok c ∧
        c.get .indent = "   " ∧ c.get .btreeMap = true) ∧
      (∃ d, parse "indent = 3" = .ok d ∧ "   " = d.get .indent) ∧
      parse (join ["indent=2", "btree_map", "indent=3"]) =
        .ok ⟨"::tagwire", true, true, true, "   "⟩ ∧
      parse (join ["indent=2", " \t ", "btree_map"]) = parse (join ["indent=2", "btree_map"]) ∧
      parse (join ["indent=2", "  " ++ "btree_map" ++ "\n"]) =
        parse (join ["indent=2", "btree_map"]) ∧
      (parse (join ["indent" ++ "  " ++ "=" ++ " " ++ "2"])).mapError (·.fault) =
        (parse (join ["indent" ++ "=" ++ "2"])).mapError (·.fault) := by
  obtain ⟨left, right, both, last, swap, blank, around, inside, -⟩ := parameters_compose
  have hfirst : parse "btree_map, indent=2" = .ok ⟨"::tagwire", true, true, true, "  "⟩ := by
    decide +kernel
  have hsecond : parse "indent = 3" = .ok ⟨"::tagwire", false, true, true, "   "⟩ := by
    decide +kernel
  refine ⟨left _ _ _ (by decide +kernel), right _ _ _ _ hfirst (by decide +kernel), ?_, ?_, ?_, ?_,
    ?_, ?_⟩
  · obtain ⟨c, hc, hkeys⟩ := both _ _ _ _ hfirst hsecond
    exact ⟨c, hc, (hkeys .indent).1 (by decide), (hkeys .btreeMap).2 (by decide)⟩
  · exact last ["indent=2"] "indent = 3" ["btree_map"] ⟨"::tagwire", true, true, true, "   "⟩
      .indent (by decide +kernel) (by decide) (by decide)
  · exact swap ["indent=2"] "indent=3" "btree_map" [] _ (fun key => by cases key <;> decide)
      (by decide +kernel)
  · exact blank ["indent=2"] " \t " ["btree_map"] (by decide)
  · exact around ["indent=2"] "btree_map" [] "  " "\n" (by decide) (by decide) (by decide)
  · exact inside [] "indent" "2" [] "  " " " (by decide) (by decide) (by decide) (by decide)

end Config

end Protowire
