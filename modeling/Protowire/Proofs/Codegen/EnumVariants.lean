import Mathlib.Data.List.Count
import Mathlib.Data.List.Induction
import Mathlib.Data.List.Nodup
import Protowire.Codegen.EnumCode
import Protowire.Proofs.Naming.Characters

/-!
# Proofs/Codegen/EnumVariants — the table behind the items of an enum

The values of an enum become variants one after the other (`variants_induction`).  A value gets an
identifier that is free (`freshIdent_notMem`), and is another name for **the first value with its
number**, if that comes before it (`namesFirst`).  So one variant stands for each number
(`nodup_number_primaries`, `exists_primary`).

All items are printed from that table.  Their matches are read here as the lists of their arms: the
conversion from numbers has one arm for each number, and the values by name undo the names of the
values.
-/

namespace Protowire

/-! ## Free identifiers -/

theorem length_le_freshIdent (ending : String) (used : List String) (ident : String) :
    ident.length ≤ (freshIdent ending used ident).length := by
  fun_induction freshIdent ending used ident with
  | case1 used ident h _ ih =>
    rw [String.length_append] at ih
    omega
  | case2 used ident h => exact Nat.le_refl _

/-- **A free identifier is not in use.**  The ones that were met on the way are shorter. -/
theorem freshIdent_notMem {ending : String} (hending : ending ≠ "") (used : List String)
    (ident : String) : freshIdent ending used ident ∉ used := by
  fun_induction freshIdent ending used ident with
  | case1 used ident h _ ih =>
    have hlonger := length_le_freshIdent ending (used.erase ident) (ident ++ ending)
    have hpos : ending.length ≠ 0 := mt String.length_eq_zero_iff.1 hending
    rw [String.length_append] at hlonger
    -- The result is longer than what was met, so it was not taken out of the names in use.
    intro hmem
    refine ih ((List.mem_erase_of_ne fun heq => ?_).2 hmem)
    rw [heq] at hlonger
    omega
  | case2 used ident h => exact h

/-! ## One variant after the other -/

/-- The next value is another name for a variant before it that stands for its number, or there is
none. -/
theorem Variant.next_cases (enumName : String) (before : List Variant) (v : EnumValueDescriptor) :
    (∃ w ∈ before, w.isPrimary ∧ w.number = v.number ∧
      (Variant.next enumName before v).aliasOf = some w.ident) ∨
    (Variant.next enumName before v).aliasOf = none ∧
      ∀ w ∈ before, w.isPrimary → w.number ≠ v.number := by
  cases hfound : before.find? fun w => w.isPrimary && w.number == v.number with
  | some w =>
    have hw := List.find?_some hfound
    rw [Bool.and_eq_true, beq_iff_eq] at hw
    exact .inl ⟨w, List.mem_of_find?_eq_some hfound, hw.1, hw.2,
      congrArg (Option.map Variant.ident) hfound⟩
  | none =>
    refine .inr ⟨congrArg (Option.map Variant.ident) hfound, fun w hw hprimary hnumber => ?_⟩
    exact List.find?_eq_none.1 hfound w hw (by rw [hprimary, hnumber, beq_self_eq_true]; rfl)

namespace Schema.Enum

variable {e : Schema.Enum}

/-- What is so of no variants, and of the next one whenever it is so of those before, is so of all
variants of an enum. -/
theorem variants_induction {P : List EnumValueDescriptor → List Variant → Prop} (nil : P [] [])
    (next : ∀ values before v, P values before →
      P (values ++ [v]) (before ++ [Variant.next e.name before v])) :
    P e.values e.variants := by
  have h (values : List EnumValueDescriptor) : P values
      (values.foldl (fun before v => before ++ [Variant.next e.name before v]) []) := by
    induction values using List.reverseRecOn with
    | nil => exact nil
    | append_singleton values v ih =>
      rw [List.foldl_append]
      exact next _ _ _ ih
  exact h e.values

/-- The variants are the values in the same order. -/
theorem map_variants : e.variants.map (fun v => ⟨v.name, v.number⟩) = e.values :=
  variants_induction (P := fun values vs =>
      vs.map (fun v => EnumValueDescriptor.mk v.name v.number) = values) rfl
    fun values before v ih => by rw [List.map_append, ih]; rfl

/-- **The identifiers of variants differ.** -/
theorem nodup_ident : (e.variants.map (·.ident)).Nodup :=
  variants_induction (P := fun _ vs => (vs.map (·.ident)).Nodup) List.nodup_nil
    fun _ before v ih => by
      have hending : s!"_{v.number.toInt}" ≠ "" := by
        simp [toString]
      rw [List.map_append, List.map_singleton, ← List.concat_eq_append]
      exact ih.concat (freshIdent_notMem hending _ _)

/-- **One variant stands for a number.** -/
theorem nodup_number_primaries : (e.primaries.map (·.number)).Nodup :=
  variants_induction (P := fun _ vs => ((vs.filter (·.isPrimary)).map (·.number)).Nodup)
    List.nodup_nil fun _ before v ih => by
      rw [List.filter_append]
      rcases Variant.next_cases e.name before v with ⟨w, -, -, -, halias⟩ | ⟨halias, hnew⟩
      · rw [List.filter_cons_of_neg (by simp [Variant.isPrimary, halias]), List.filter_nil,
          List.append_nil]
        exact ih
      · rw [List.filter_cons_of_pos (by simp [Variant.isPrimary, halias]), List.filter_nil,
          List.map_append, List.map_singleton, ← List.concat_eq_append]
        refine ih.concat fun hmem => ?_
        obtain ⟨w, hw, hnumber⟩ := List.mem_map.1 hmem
        rw [List.mem_filter] at hw
        exact hnew w hw.1 hw.2 hnumber

/-- For the number of every variant one stands, and the variant is that or another name for it. -/
theorem exists_primary : ∀ v ∈ e.variants,
    ∃ w ∈ e.primaries, w.number = v.number ∧ w.ident = v.target :=
  variants_induction (P := fun _ vs => ∀ v ∈ vs,
      ∃ w ∈ vs.filter (·.isPrimary), w.number = v.number ∧ w.ident = v.target)
    (fun _ h => absurd h List.not_mem_nil) fun _ before x ih v hv => by
      rw [List.filter_append]
      rcases List.mem_append.1 hv with hv | hv
      · obtain ⟨w, hw, h⟩ := ih v hv
        exact ⟨w, List.mem_append_left _ hw, h⟩
      · have hlast := hv
        obtain rfl := List.mem_singleton.1 hv
        rcases Variant.next_cases e.name before x with ⟨w, hw, hp, hnumber, halias⟩ | ⟨halias, -⟩
        · refine ⟨w, List.mem_append_left _ (List.mem_filter.2 ⟨hw, hp⟩), hnumber, ?_⟩
          rw [Variant.target, halias, Option.getD_some]
        · refine ⟨_, List.mem_append_right _ (List.mem_filter.2 ⟨hlast, ?_⟩), rfl, ?_⟩
          · rw [Variant.isPrimary, halias, Option.isNone_none]
          · rw [Variant.target, halias, Option.getD_none]

/-- What is so of each element and those before it is so of all but the last, and of the last. -/
theorem forall_split_concat {α : Type} {P : List α → α → Prop} {l : List α} {a : α} :
    (∀ before b after, l ++ [a] = before ++ b :: after → P before b) ↔
      (∀ before b after, l = before ++ b :: after → P before b) ∧ P l a := by
  constructor
  · intro h
    refine ⟨fun before b after hl => h before b (after ++ [a]) ?_, h l a [] rfl⟩
    rw [hl, List.append_assoc, List.cons_append]
  · rintro ⟨hinit, hlast⟩ before b after hl
    rcases List.eq_nil_or_concat after with rfl | ⟨after, c, rfl⟩
    · obtain ⟨rfl, hb⟩ := List.append_inj' hl rfl
      exact List.singleton_inj.1 hb ▸ hlast
    · rw [List.concat_eq_append, ← List.cons_append, ← List.append_assoc] at hl
      exact hinit before b after (List.append_inj' hl rfl).1

/-- A variant is another name for the first with its number, if that comes before it. -/
def NamesFirst (before : List Variant) (v : Variant) : Prop :=
  v.aliasOf = (before.find? fun w => w.number == v.number).map (·.ident)

/-- The first variant with its number stands for it. -/
theorem NamesFirst.isPrimary {before : List Variant} {v : Variant} (h : NamesFirst before v)
    (hfirst : ∀ w ∈ before, w.number ≠ v.number) : v.isPrimary = true := by
  have hnone : (before.find? fun w => w.number == v.number) = none :=
    List.find?_eq_none.2 fun w hw => by simpa using hfirst w hw
  rw [Variant.isPrimary, h, hnone]
  rfl

/-- Where variants are other names for the first ones, the first with a number stands for it. -/
theorem find?_isPrimary {vs : List Variant} (n : Int32)
    (h : ∀ before v after, vs = before ++ v :: after → NamesFirst before v) :
    (vs.find? fun w => w.isPrimary && w.number == n) = vs.find? fun w => w.number == n := by
  cases hfound : vs.find? fun w => w.number == n with
  | none =>
    rw [List.find?_eq_none] at hfound ⊢
    exact fun w hw => by simp [hfound w hw]
  | some w =>
    obtain ⟨hnumber, before, after, hvs, hbefore⟩ := List.find?_eq_some_iff_append.1 hfound
    obtain rfl := beq_iff_eq.1 hnumber
    have hfirst : ∀ u ∈ before, u.number ≠ w.number := fun u hu => by simpa using hbefore u hu
    have hprimary := (h before w after hvs).isPrimary hfirst
    refine List.find?_eq_some_iff_append.2 ⟨by simp [hprimary], before, after, hvs, ?_⟩
    exact fun u hu => by simp [hfirst u hu]

/-- **A value is another name for the first value with its number**, if that comes before it. -/
theorem namesFirst : ∀ before v after, e.variants = before ++ v :: after → NamesFirst before v :=
  variants_induction
    (P := fun _ vs => ∀ before v after, vs = before ++ v :: after → NamesFirst before v)
    (fun _ _ _ h => absurd h.symm (List.append_ne_nil_of_right_ne_nil _ (List.cons_ne_nil _ _)))
    fun _ _ v ih => forall_split_concat.2
      ⟨ih, congrArg (Option.map Variant.ident) (find?_isPrimary v.number ih)⟩

/-- The numbers that variants stand for are those of the values. -/
theorem mem_number_primaries {n : Int32} :
    n ∈ e.primaries.map (·.number) ↔ n ∈ e.values.map (·.number) := by
  rw [← map_variants, List.map_map]
  constructor
  · exact fun h => (List.filter_sublist.map _).subset h
  · intro h
    obtain ⟨v, hv, rfl⟩ := List.mem_map.1 h
    obtain ⟨w, hw, hnumber, -⟩ := exists_primary v hv
    exact List.mem_map.2 ⟨w, hw, hnumber⟩

/-! ## The default -/

/-- The position of the first value that is not negative, or else of the first one. -/
def defaultIndex (e : Schema.Enum) : Nat :=
  (e.values.findIdx? fun v => decide (0 ≤ v.number)).getD 0

theorem default?_eq : e.default? = e.values[e.defaultIndex]? := by
  rw [default?, defaultIndex, List.find?_eq_bind_findIdx?_getElem?]
  cases hfound : e.values.findIdx? fun v => decide (0 ≤ v.number) with
  | none => exact List.head?_eq_getElem?
  | some i =>
    obtain ⟨hlt, -⟩ := List.findIdx?_eq_some_iff_getElem.1 hfound
    simp [hlt]

/-- The number of the default is that of no value before it. -/
theorem number_ne_of_lt_defaultIndex {i : Nat} (hi : i < e.defaultIndex)
    {v d : EnumValueDescriptor} (hv : e.values[i]? = some v)
    (hd : e.values[e.defaultIndex]? = some d) : v.number ≠ d.number := by
  rw [defaultIndex] at hi hd
  cases hfound : e.values.findIdx? fun v => decide (0 ≤ v.number) with
  | none =>
    rw [hfound] at hi
    exact absurd hi (Nat.not_lt_zero i)
  | some j =>
    rw [hfound, Option.getD_some] at hi hd
    obtain ⟨hlt, hnonneg, hbefore⟩ := List.findIdx?_eq_some_iff_getElem.1 hfound
    obtain ⟨_, rfl⟩ := List.getElem?_eq_some_iff.1 hd
    obtain ⟨_, rfl⟩ := List.getElem?_eq_some_iff.1 hv
    exact fun heq => hbefore i hi (heq ▸ hnonneg)

theorem getElem?_values (i : Nat) :
    e.values[i]? = e.variants[i]?.map fun v => ⟨v.name, v.number⟩ := by
  conv_lhs => rw [← map_variants, List.getElem?_map]

/-- The variant of the default value stands for its number. -/
theorem mem_primaries_of_defaultIndex {v : Variant} (hv : e.variants[e.defaultIndex]? = some v) :
    v ∈ e.primaries := by
  have hd : e.values[e.defaultIndex]? = some ⟨v.name, v.number⟩ := by
    rw [getElem?_values, hv, Option.map_some]
  have hfirst : ∀ w ∈ e.variants.take e.defaultIndex, w.number ≠ v.number := by
    intro w hw
    obtain ⟨i, hi, rfl⟩ := List.mem_take_iff_getElem.1 hw
    rw [Nat.lt_min] at hi
    have hvalue : e.values[i]? = some ⟨e.variants[i].name, e.variants[i].number⟩ := by
      rw [getElem?_values, List.getElem?_eq_getElem hi.2, Option.map_some]
    exact number_ne_of_lt_defaultIndex hi.1 hvalue hd
  obtain ⟨hlt, hget⟩ := List.getElem?_eq_some_iff.1 hv
  have hsplit : e.variants = e.variants.take e.defaultIndex ++
      v :: e.variants.drop (e.defaultIndex + 1) := by
    rw [← hget, ← List.drop_eq_getElem_cons, List.take_append_drop]
  exact List.mem_filter.2 ⟨List.mem_of_getElem? hv, (namesFirst _ v _ hsplit).isPrimary hfirst⟩

/-- A variant that stands for its number is the one that is found by it. -/
theorem find?_primaries {v : Variant} (hv : v ∈ e.primaries) :
    (e.primaries.find? fun w => w.number == v.number) = some v := by
  cases hfound : e.primaries.find? fun w => w.number == v.number with
  | none => simpa using List.find?_eq_none.1 hfound v hv
  | some w =>
    have hnumber : w.number = v.number := by simpa using List.find?_some hfound
    exact congrArg some <| List.inj_on_of_nodup_map nodup_number_primaries
      (List.mem_of_find?_eq_some hfound) hv hnumber

/-- **There is a default, the variant of the default value**, which stands for its number. -/
theorem exists_defaultVariant (h : e.values ≠ []) : ∃ v ∈ e.primaries,
    e.variants[e.defaultIndex]? = some v ∧ e.defaultVariant? = some v := by
  have hsome : e.default?.isSome := by
    simp [default?, List.isSome_head?, h]
  obtain ⟨d, hd⟩ := Option.isSome_iff_exists.1 hsome
  have hvalue := default?_eq.symm.trans hd
  rw [getElem?_values] at hvalue
  obtain ⟨v, hv, rfl⟩ := Option.map_eq_some_iff.1 hvalue
  have hprimary := mem_primaries_of_defaultIndex hv
  refine ⟨v, hprimary, hv, ?_⟩
  rw [defaultVariant?, hd, Option.bind_some, find?_primaries hprimary]
  rfl

/-! ## Matches and their arms -/

/-- The names of the values by identifier. -/
def strNames (e : Schema.Enum) : List (String × String) :=
  e.primaries.map fun v => (v.ident, v.name)

/-- The identifiers by the names of values. -/
def ofStrNames (e : Schema.Enum) : List (String × String) :=
  e.variants.map fun v => (v.name, v.target)

/-- The identifiers by number in decimal. -/
def ofNumbers (e : Schema.Enum) : List (String × String) :=
  e.primaries.map fun v => (toString v.number.toInt, v.ident)

/-- The names, with arms for both matches. -/
def namesCode (e : Schema.Enum) (toName ofName : List (String × String)) : List Code :=
  Code.braces ("impl " ++ e.ident) <|
    e.aliasCode ++
    [.line "/// Name of the value as written in the `.proto` definition."] ++
    Code.braces "pub fn as_str_name(&self) -> &'static str"
      (Code.braces "match self" (toName.map fun (ident, name) =>
        .line s!"Self::{ident} => \"{name}\",")) ++
    [.blank, .line "/// Looks up a value by its `.proto` name."] ++
    Code.braces "pub fn from_str_name(value: &str) -> ::core::option::Option<Self>"
      (Code.braces "match value"
        ((ofName.map fun (name, ident) =>
            .line s!"\"{name}\" => ::core::option::Option::Some(Self::{ident}),") ++
          [.line "_ => ::core::option::Option::None,"]))

/-- The conversion from numbers, with arms for its match. -/
def ofNumberCode (e : Schema.Enum) (arms : List (String × String)) : List Code :=
  Code.braces ("impl ::core::convert::TryFrom<i32> for " ++ e.ident) <|
    [.line "type Error = i32;", .blank] ++
    Code.braces "fn try_from(value: i32) -> ::core::result::Result<Self, i32>"
      (Code.braces "match value"
        ((arms.map fun (number, ident) =>
            .line s!"{number} => ::core::result::Result::Ok(Self::{ident}),") ++
          [.line "other => ::core::result::Result::Err(other),"]))

theorem namesItem_eq : e.namesItem = e.namesCode e.strNames e.ofStrNames := by
  rw [namesItem, namesCode, strNames, ofStrNames, List.map_map, List.map_map]
  rfl

theorem ofNumberItem_eq : e.ofNumberItem = e.ofNumberCode e.ofNumbers := by
  rw [ofNumberItem, ofNumberCode, ofNumbers, List.map_map]
  rfl

/-- **The conversion from numbers has one arm for the number of a value**, and none for another. -/
theorem count_ofNumbers (n : Int32) : (e.ofNumbers.map (·.1)).count (toString n.toInt) =
    if n ∈ e.values.map (·.number) then 1 else 0 := by
  have htexts : e.ofNumbers.map (·.1) =
      (e.primaries.map (·.number)).map fun n => toString n.toInt := by
    rw [ofNumbers, List.map_map, List.map_map]
    rfl
  have hinj : Function.Injective fun n : Int32 => toString n.toInt :=
    fun _ _ h => Int32.toInt_inj.1 (Naming.repr_injective h)
  rw [htexts, List.count_map_of_injective _ _ hinj, nodup_number_primaries.count]
  simp only [mem_number_primaries]

/-- In a list of pairs with different keys, a key gives what stands with it. -/
theorem lookup_of_mem {α β : Type} [BEq α] [LawfulBEq α] {l : List (α × β)}
    (h : (l.map (·.1)).Nodup) {a : α} {b : β} (hmem : (a, b) ∈ l) : l.lookup a = some b := by
  obtain ⟨before, after, rfl⟩ := List.append_of_mem hmem
  refine List.lookup_eq_some_iff.2 ⟨before, after, rfl, fun p hp => bne_iff_ne.2 fun heq => ?_⟩
  rw [List.map_append, List.map_cons, List.nodup_append] at h
  exact h.2.2 p.1 (List.mem_map_of_mem hp) a List.mem_cons_self heq.symm

/-- **The name of a value gives its variant**, or the one that it is another name for. -/
theorem lookup_ofStrNames (h : (e.values.map (·.name)).Nodup) {v : Variant}
    (hv : v ∈ e.variants) : e.ofStrNames.lookup v.name = some v.target := by
  refine lookup_of_mem ?_ (List.mem_map_of_mem (f := fun v : Variant => (v.name, v.target)) hv)
  rw [ofStrNames, List.map_map]
  rwa [← map_variants, List.map_map] at h

/-- **One table is behind the items of an enum.**  It has a variant for each value and one variant
that stands for each number.  The default is the variant of the first value that is not negative, or
else of the first one; the matches are printed from their arms, and by name each value gives what
its own name was printed for. -/
structure OneTable (e : Schema.Enum) : Prop where
  values : e.variants.map (fun v => ⟨v.name, v.number⟩) = e.values
  idents : (e.variants.map (·.ident)).Nodup
  first : ∀ before v after, e.variants = before ++ v :: after → NamesFirst before v
  numbers : (e.primaries.map (·.number)).Nodup
  covered : ∀ n, n ∈ e.primaries.map (·.number) ↔ n ∈ e.values.map (·.number)
  code : ∃ v ∈ e.primaries, e.variants[e.defaultIndex]? = some v ∧
    e.code = [e.typeItem, e.namesCode e.strNames e.ofStrNames, e.defaultItem v,
      e.ofNumberCode e.ofNumbers, e.toNumberItem]
  oneArm : ∀ n : Int32, (e.ofNumbers.map (·.1)).count (toString n.toInt) =
    if n ∈ e.values.map (·.number) then 1 else 0
  byName : (e.values.map (·.name)).Nodup →
    (∀ a ∈ e.strNames, e.ofStrNames.lookup a.2 = some a.1) ∧
      ∀ v ∈ e.variants, e.ofStrNames.lookup v.name = some v.target

/-- **The items of an enum with values agree**: they are printed from one table. -/
theorem items_from_one_table (h : e.values ≠ []) : e.OneTable := by
  obtain ⟨v, hv, hindex, hdefault⟩ := exists_defaultVariant h
  refine
    { values := map_variants
      idents := nodup_ident
      first := namesFirst
      numbers := nodup_number_primaries
      covered := fun _ => mem_number_primaries
      code := ⟨v, hv, hindex, ?_⟩
      oneArm := count_ofNumbers
      byName := fun hnames => ⟨?_, fun _ => lookup_ofStrNames hnames⟩ }
  · rw [code, hdefault, namesItem_eq, ofNumberItem_eq]
    rfl
  · rintro _ ha
    obtain ⟨w, hw, rfl⟩ := List.mem_map.1 ha
    obtain ⟨hmem, hprimary⟩ := List.mem_filter.1 hw
    rw [lookup_ofStrNames hnames hmem, Variant.target, Option.isNone_iff_eq_none.1 hprimary]
    rfl

/-- An enum with a negative value, and with values whose identifiers or numbers are the same. -/
def light : Schema.Enum where
  name := "Light"
  fullName := "Light"
  file := 0
  parent := none
  values := [⟨"LIGHT_OFF", -1⟩, ⟨"LIGHT_RED", 0⟩, ⟨"RED", 1⟩, ⟨"LIGHT_STOP", 0⟩, ⟨"red", 1⟩]

/-- Three values have one identifier, and two are other names; the default is not the first. -/
theorem items_from_one_table_light : light.values ≠ [] ∧ (light.values.map (·.name)).Nodup ∧
    light.variants.map (fun v => (v.ident, v.aliasOf)) =
      [("Off", none), ("Red", none), ("Red_1", none), ("Stop", some "Red"),
        ("Red_1_1", some "Red_1")] ∧
    light.defaultIndex = 1 ∧ light.OneTable :=
  ⟨by decide, by decide, by decide +kernel, by decide, items_from_one_table (by decide)⟩

end Schema.Enum

end Protowire
