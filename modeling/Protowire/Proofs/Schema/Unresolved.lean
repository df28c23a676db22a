import Protowire.Proofs.Schema.Faults

/-!
# Proofs/Schema/Unresolved — where an unresolved type name comes from

Of all the steps that may refuse a set of files, only the one that binds the type of a field reports
a type name as unresolved.  Files are in order by then and everything is declared, and the name is
one that was looked up and not found, or found to be an enum where a message is asked for or the
other way round (`exists_of_resolveOrdered_eq_unresolved`, `bindType_eq_unresolved`).
-/

namespace Protowire.Schema

variable {field typeName : String}

/-- Files that cannot be put in order are not refused for a type name. -/
theorem importOrder_ne_unresolved (files : List FileDescriptor) :
    importOrder files ≠ .error (.unresolvedType field typeName) :=
  fun h => absurd (importOrder_reports files _ h) Bool.false_ne_true

/-- A field that is bound by itself is refused for its type name when that is not found, or found
to be of another kind. -/
theorem bindType_eq_unresolved {t : Symbols} {file : FileId} {scope : String}
    {fd : FieldDescriptor}
    (h : bindType t file scope fd = .error (.unresolvedType field typeName)) :
    field = qualify scope fd.name ∧ typeName = fd.typeName ∧
      ∀ x, t.lookup? file scope fd.typeName = some x →
        (fd.typeCode.toInt = 11 ∧ ∃ id, x = .enumeration id) ∨
          (fd.typeCode.toInt = 14 ∧ ∃ id, x = .message id) := by
  rw [bindType] at h
  split at h
  · rename_i hkind
    have hcode : fd.typeCode.toInt = 11 := FieldKind.ofCode?_eq_some_iff.1 hkind
    split at h
    · cases h
    · rename_i hother
      obtain ⟨rfl, rfl⟩ := SchemaError.unresolvedType.inj (Except.error.inj h)
      refine ⟨rfl, rfl, fun x hx => .inl ⟨hcode, ?_⟩⟩
      cases x with
      | message id => exact absurd hx (hother id)
      | enumeration id => exact ⟨id, rfl⟩
  · rename_i hkind
    have hcode : fd.typeCode.toInt = 14 := FieldKind.ofCode?_eq_some_iff.1 hkind
    split at h
    · cases h
    · rename_i hother
      obtain ⟨rfl, rfl⟩ := SchemaError.unresolvedType.inj (Except.error.inj h)
      refine ⟨rfl, rfl, fun x hx => .inr ⟨hcode, ?_⟩⟩
      cases x with
      | message id => exact ⟨id, rfl⟩
      | enumeration id => exact absurd hx (hother id)
  · rename_i kind _ _ _
    cases hscalar : kind.scalar? <;> rw [hscalar] at h <;> cases h
  · split at h
    · split at h
      · cases h
      · cases h
      · rename_i hnone
        obtain ⟨rfl, rfl⟩ := SchemaError.unresolvedType.inj (Except.error.inj h)
        refine ⟨rfl, rfl, fun x hx => ?_⟩
        cases hnone.symm.trans hx
    · cases h

/-- Where a message is refused for a type name, the type of one of its fields is. -/
theorem exists_of_bindFields_eq_unresolved {t : Symbols} {d : Declared MessageDescriptor}
    {seen : List Nat} {fds : List FieldDescriptor}
    (h : bindFields t d seen fds = .error (.unresolvedType field typeName)) :
    ∃ fd ∈ fds, bindType t d.file d.fullName fd = .error (.unresolvedType field typeName) := by
  induction fds generalizing seen with
  | nil => cases h
  | cons fd fds ih =>
    rw [bindFields, bind_eq_error_iff] at h
    rcases h with h | ⟨f, -, h⟩
    · refine ⟨fd, List.mem_cons_self, ?_⟩
      rw [bindField, bind_eq_error_iff] at h
      rcases h with h | ⟨number, -, h⟩
      · rw [bindNumber] at h
        split at h <;> cases h
      rcases bind_eq_error_iff.1 h with h | ⟨isRepeated, -, h⟩
      · rw [bindLabel] at h
        repeat' split at h
        all_goals cases h
      rcases bind_eq_error_iff.1 h with h | ⟨type, -, h⟩
      · exact h
      · rcases refuse_eq_error_iff.1 h with ⟨-, h⟩ | ⟨-, h⟩ <;> cases h
    · rcases refuse_eq_error_iff.1 h with ⟨-, h⟩ | ⟨-, h⟩
      · cases h
      rcases bind_eq_error_iff.1 h with h | ⟨oneof, -, h⟩
      · rw [bindOneof] at h
        split at h
        · rename_i index _ _
          cases hslot : d.body.oneofSlot? index <;> rw [hslot] at h <;> cases h
        · cases h
      rcases bind_eq_error_iff.1 h with h | ⟨fields, -, h⟩
      · obtain ⟨fd', hfd', htype⟩ := ih h
        exact ⟨fd', List.mem_cons_of_mem fd hfd', htype⟩
      · cases h

/-- **Only the type of a field is refused for a type name**: that of a message that is declared. -/
theorem exists_of_resolveOrdered_eq_unresolved {files : List FileDescriptor}
    (h : resolveOrdered files = .error (.unresolvedType field typeName)) :
    checkDeclarations (declarations files) = .ok () ∧
      ∃ d ∈ messagesOf (declarations files), ∃ fd ∈ d.body.fields,
        bindType (Symbols.ofFiles files) d.file d.fullName fd
          = .error (.unresolvedType field typeName) := by
  rw [resolveOrdered, bind_eq_error_iff] at h
  rcases h with h | ⟨_, hcheck, h⟩
  · exact absurd (checkFrom_reports _ _ _ h) Bool.false_ne_true
  refine ⟨hcheck, ?_⟩
  rcases bind_eq_error_iff.1 h with h | ⟨bound, -, h⟩
  · obtain ⟨⟨d, contents⟩, hd, h⟩ := exists_of_mapM_eq_error h
    rcases bind_eq_error_iff.1 h with h | ⟨fields, -, h⟩
    · exact ⟨d, (List.of_mem_zip hd).1, exists_of_bindFields_eq_unresolved h⟩
    · cases h
  rcases bind_eq_error_iff.1 h with h | ⟨messages, -, h⟩
  · obtain ⟨m, -, h⟩ := exists_of_mapM_eq_error h
    exact absurd (attachMaps_reports bound m _ h) Bool.false_ne_true
  · cases h

end Protowire.Schema
