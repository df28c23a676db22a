import Mathlib.Data.List.Forall2

/-!
# Proofs/Steps — computations of steps that may fail

Steps one after the other succeed when each of them does, and fail as the first does that fails.
**A step for each member of a row gives a row of partners**, so what a pass over a row succeeds with
is said by `List.Forall₂` (`mapM_eq_ok_iff`).
-/

namespace Protowire

section Steps

variable {ε α β : Type}

theorem bind_eq_ok_iff {x : Except ε α} {f : α → Except ε β} {b : β} :
    x >>= f = .ok b ↔ ∃ a, x = .ok a ∧ f a = .ok b := by
  cases x with
  | error e => exact ⟨nofun, nofun⟩
  | ok a =>
    refine ⟨fun h => ⟨a, rfl, h⟩, ?_⟩
    rintro ⟨a', ha, h⟩
    obtain rfl := Except.ok.inj ha
    exact h

theorem bind_eq_error_iff {x : Except ε α} {f : α → Except ε β} {e : ε} :
    x >>= f = .error e ↔ x = .error e ∨ ∃ a, x = .ok a ∧ f a = .error e := by
  cases x with
  | error e' =>
    refine ⟨fun h => .inl (congrArg Except.error (Except.error.inj h)), fun h => ?_⟩
    rcases h with h | ⟨_, h, _⟩
    · exact congrArg Except.error (Except.error.inj h)
    · exact absurd h nofun
  | ok a =>
    refine ⟨fun h => .inr ⟨a, rfl, h⟩, fun h => h.elim nofun ?_⟩
    rintro ⟨a', ha, h⟩
    obtain rfl := Except.ok.inj ha
    exact h

/-- A step behind a check succeeds when what is checked for is not so. -/
theorem refuse_eq_ok_iff {c : Prop} [Decidable c] {e : ε} {x : Except ε α} {a : α} :
    (if c then (throw e : Except ε PUnit) >>= fun _ => x else x) = .ok a ↔ ¬ c ∧ x = .ok a := by
  split
  · rename_i h
    exact ⟨nofun, fun hx => absurd h hx.1⟩
  · rename_i h
    exact ⟨fun hx => ⟨h, hx⟩, fun hx => hx.2⟩

/-- A step behind a check fails when what is checked for is so, or when the step does. -/
theorem refuse_eq_error_iff {c : Prop} [Decidable c] {e e' : ε} {x : Except ε α} :
    (if c then (throw e' : Except ε PUnit) >>= fun _ => x else x) = .error e ↔
      c ∧ e' = e ∨ ¬ c ∧ x = .error e := by
  split
  · rename_i h
    exact ⟨fun he => .inl ⟨h, Except.error.inj he⟩,
      fun he => he.elim (fun he => congrArg _ he.2) fun he => absurd h he.1⟩
  · rename_i h
    exact ⟨fun he => .inr ⟨h, he⟩, fun he => he.elim (fun he => absurd he.1 h) (·.2)⟩

/-- A step for each member succeeds when each of them does. -/
theorem mapM_eq_ok_iff {f : α → Except ε β} {l : List α} {l' : List β} :
    l.mapM f = .ok l' ↔ List.Forall₂ (fun a b => f a = .ok b) l l' := by
  induction l generalizing l' with
  | nil =>
    rw [List.mapM_nil, List.forall₂_nil_left_iff]
    exact ⟨fun h => (Except.ok.inj h).symm, fun h => h ▸ rfl⟩
  | cons a l ih =>
    rw [List.mapM_cons, bind_eq_ok_iff, List.forall₂_cons_left_iff]
    refine exists_congr fun b => ?_
    rw [bind_eq_ok_iff]
    constructor
    · rintro ⟨hb, bs, hbs, hl'⟩
      exact ⟨bs, hb, ih.1 hbs, (Except.ok.inj hl').symm⟩
    · rintro ⟨bs, hb, hbs, rfl⟩
      exact ⟨hb, bs, ih.2 hbs, rfl⟩

/-- A step for each member fails as it does for one of them. -/
theorem exists_of_mapM_eq_error {f : α → Except ε β} {l : List α} {e : ε}
    (h : l.mapM f = .error e) : ∃ a ∈ l, f a = .error e := by
  induction l with
  | nil => exact absurd h nofun
  | cons a l ih =>
    rw [List.mapM_cons, bind_eq_error_iff] at h
    rcases h with h | ⟨b, -, h⟩
    · exact ⟨a, List.mem_cons_self, h⟩
    · rcases bind_eq_error_iff.1 h with h | ⟨bs, -, h⟩
      · obtain ⟨a', ha', he⟩ := ih h
        exact ⟨a', List.mem_cons_of_mem a ha', he⟩
      · exact absurd h nofun

/-- The steps for two rows succeed when those for each of them do. -/
theorem mapM_append_eq_ok_iff {f : α → Except ε β} {l l' : List α} {bs : List β} :
    (l ++ l').mapM f = .ok bs ↔
      ∃ b b', l.mapM f = .ok b ∧ l'.mapM f = .ok b' ∧ bs = b ++ b' := by
  rw [List.mapM_append, bind_eq_ok_iff]
  refine exists_congr fun b => ?_
  rw [bind_eq_ok_iff]
  constructor
  · rintro ⟨hb, b', hb', hbs⟩
    exact ⟨b', hb, hb', (Except.ok.inj hbs).symm⟩
  · rintro ⟨b', hb, hb', rfl⟩
    exact ⟨hb, b', hb', rfl⟩

/-- The steps for two rows fail as those for the first do, or else as those for the second. -/
theorem mapM_append_eq_error_iff {f : α → Except ε β} {l l' : List α} {e : ε} :
    (l ++ l').mapM f = .error e ↔
      l.mapM f = .error e ∨ ∃ b, l.mapM f = .ok b ∧ l'.mapM f = .error e := by
  rw [List.mapM_append, bind_eq_error_iff]
  refine or_congr_right (exists_congr fun b => and_congr_right fun _ => ?_)
  rw [bind_eq_error_iff]
  exact ⟨fun h => h.elim id fun ⟨_, _, h⟩ => absurd h nofun, .inl⟩

theorem mapError_eq_ok_iff {ε' : Type} {f : ε → ε'} {x : Except ε α} {a : α} :
    x.mapError f = .ok a ↔ x = .ok a := by
  cases x with
  | error e => exact iff_of_false nofun nofun
  | ok b => exact ⟨fun h => congrArg _ (Except.ok.inj h), fun h => congrArg _ (Except.ok.inj h)⟩

/-- Renaming faults passes through a sequence. -/
theorem mapError_bind {ε' : Type} (f : ε → ε') (x : Except ε α) (g : α → Except ε β) :
    (x >>= g).mapError f = x.mapError f >>= fun a => (g a).mapError f := by
  cases x <;> rfl

/-- Renaming faults does not touch values. -/
theorem mapError_map {ε' : Type} (f : ε → ε') (g : α → β) (x : Except ε α) :
    (g <$> x).mapError f = g <$> x.mapError f := by
  cases x <;> rfl

/-- Renaming faults passes through the steps for a row. -/
theorem mapError_mapM {ε' : Type} (f : ε → ε') (g : α → Except ε β) (l : List α) :
    (l.mapM g).mapError f = l.mapM fun a => (g a).mapError f := by
  induction l with
  | nil => rfl
  | cons a l ih =>
    rw [List.mapM_cons, List.mapM_cons, mapError_bind]
    refine bind_congr fun b => ?_
    rw [mapError_bind, ih]
    rfl

/-- There are partners for all members when there is one for each. -/
theorem exists_forall₂_iff {R : α → β → Prop} {l : List α} :
    (∃ l', List.Forall₂ R l l') ↔ ∀ a ∈ l, ∃ b, R a b := by
  induction l with
  | nil => exact ⟨fun _ => nofun, fun _ => ⟨[], .nil⟩⟩
  | cons a l ih =>
    rw [List.forall_mem_cons, ← ih]
    constructor
    · rintro ⟨l', h⟩
      obtain ⟨b, bs, hb, hbs, rfl⟩ := List.forall₂_cons_left_iff.1 h
      exact ⟨⟨b, hb⟩, bs, hbs⟩
    · rintro ⟨⟨b, hb⟩, bs, hbs⟩
      exact ⟨b :: bs, .cons hb hbs⟩

/-- Partners stand at the same places. -/
theorem forall₂_getElem?_right {R : α → β → Prop} {l : List α} {l' : List β}
    (h : List.Forall₂ R l l') {i : Nat} {b : β} (hb : l'[i]? = some b) :
    ∃ a, l[i]? = some a ∧ R a b := by
  induction h generalizing i with
  | nil => exact absurd hb nofun
  | @cons a b' l l' hab _ ih =>
    cases i with
    | zero =>
      obtain rfl := Option.some.inj hb
      exact ⟨a, rfl, hab⟩
    | succ i => exact ih hb

/-- Partners stand at the same places. -/
theorem forall₂_getElem?_left {R : α → β → Prop} {l : List α} {l' : List β}
    (h : List.Forall₂ R l l') {i : Nat} {a : α} (ha : l[i]? = some a) :
    ∃ b, l'[i]? = some b ∧ R a b :=
  forall₂_getElem?_right h.flip ha

/-- Partners of partners are partners. -/
theorem forall₂_trans {γ : Type} {R : α → β → Prop} {S : β → γ → Prop} {T : α → γ → Prop}
    {l : List α} {l' : List β} {l'' : List γ} (h : List.Forall₂ R l l')
    (h' : List.Forall₂ S l' l'') (hT : ∀ a b c, R a b → S b c → T a c) : List.Forall₂ T l l'' := by
  induction h generalizing l'' with
  | nil =>
    cases h'
    exact .nil
  | cons hab _ ih =>
    obtain ⟨c, rest, hbc, hrest, rfl⟩ := List.forall₂_cons_left_iff.1 h'
    exact .cons (hT _ _ _ hab hbc) (ih hrest)

/-- Partners of pairs are partners of the one half that give the other half. -/
theorem forall₂_zip_iff {γ : Type} {R : α → β → Prop} {f : β → γ} {l : List α} {l' : List γ}
    {bs : List β} (hlength : l.length = l'.length) :
    List.Forall₂ (fun a b => R a.1 b ∧ f b = a.2) (l.zip l') bs ↔
      List.Forall₂ R l bs ∧ bs.map f = l' := by
  induction l generalizing l' bs with
  | nil =>
    obtain rfl := List.length_eq_zero_iff.1 hlength.symm
    simp
  | cons a l ih =>
    cases l' with
    | nil => cases hlength
    | cons c l' =>
      rw [List.zip_cons_cons]
      cases bs with
      | nil => simp
      | cons b bs =>
        rw [List.forall₂_cons, List.forall₂_cons, ih (Nat.succ.inj hlength), List.map_cons,
          List.cons.injEq, and_and_and_comm]

/-- What partners have alike, rows of partners have alike. -/
theorem map_eq_of_forall₂ {γ : Type} {R : α → β → Prop} {l : List α} {l' : List β} {f : α → γ}
    {g : β → γ} (h : List.Forall₂ R l l') (hR : ∀ a b, R a b → f a = g b) : l.map f = l'.map g := by
  rw [← List.forall₂_eq_eq_eq, List.forall₂_map_left_iff, List.forall₂_map_right_iff]
  exact h.imp fun {a b} => hR a b

/-- All have a property when all their partners have the one that goes with it. -/
theorem forall_mem_iff_of_forall₂ {R : α → β → Prop} {l : List α} {l' : List β} {p : α → Prop}
    {q : β → Prop} (h : List.Forall₂ R l l') (hR : ∀ a b, R a b → (p a ↔ q b)) :
    (∀ a ∈ l, p a) ↔ ∀ b ∈ l', q b := by
  induction h with
  | nil => exact iff_of_true nofun nofun
  | cons hab _ ih => rw [List.forall_mem_cons, List.forall_mem_cons, hR _ _ hab, ih]

end Steps

end Protowire
