import Mathlib.Data.List.Basic
import Protowire.Files.Path
import Protowire.Proofs.Naming.Legal
import Protowire.Proofs.Text.Split

/-!
# Proofs/Files/Path — paths that stay below a directory

A path stays below a directory when it is not empty, does not start with a slash and **has no
segment of two dots** (`Path.staysBelow_iff`).  Taken from a directory, it leads through the
components of the directory and then through its own (`Path.components_join`), unless it starts with
a dot of its own.  The name of a generated file is one such component, whatever the schema file is
called (`Path.components_outputFileName`).
-/

namespace Protowire

namespace Path

/-! ## Segments -/

theorem segments_eq (path : String) : segments path = path.toList.splitOn '/' :=
  Text.splitAll_eq_splitOn '/' path.toList

theorem segments_ne_nil (path : String) : segments path ≠ [] :=
  segments_eq path ▸ List.splitOn_ne_nil _ _

/-- **The segments of a path taken from a directory** are those of the directory, without an empty
one at the end, and those of the path. -/
theorem exists_segments_join (dir path : String) : ∃ front,
    (segments dir = front ∨ segments dir = front ++ [[]]) ∧ (dir ≠ "" → front ≠ []) ∧
      segments (join dir path) = front ++ segments path := by
  rw [join]
  split
  · rename_i hdir
    rcases hdir with rfl | hslash
    · exact ⟨[], .inr rfl, absurd rfl, by rw [String.empty_append, List.nil_append]⟩
    · obtain ⟨before, hbefore⟩ := List.getLast?_eq_some_iff.1 hslash
      refine ⟨before.splitOn '/', .inr ?_, fun _ => List.splitOn_ne_nil _ _, ?_⟩
      · rw [segments_eq, hbefore, List.splitOn_append_cons_self, List.splitOn_nil]
      · rw [segments_eq, String.toList_append, hbefore, List.append_assoc, List.singleton_append,
          List.splitOn_append_cons_self, segments_eq]
  · refine ⟨segments dir, .inl rfl, fun _ => segments_ne_nil dir, ?_⟩
    rw [segments_eq, String.toList_append, String.toList_append, List.append_assoc]
    change List.splitOn '/' (dir.toList ++ '/' :: path.toList) = _
    rw [List.splitOn_append_cons_self, segments_eq, segments_eq]

/-! ## Steps -/

/-- A segment is a step below where one is, unless it goes up. -/
theorem staysBelow_of_component? {segment : List Char} :
    (∀ c, component? segment = some c → c.staysBelow = true) ↔ segment ≠ up := by
  rw [component?]
  split
  · rename_i hidle
    refine iff_of_true nofun ?_
    rintro rfl
    exact absurd hidle (by decide)
  · split
    · rename_i hup
      exact iff_of_false (fun h => Bool.false_ne_true (h _ rfl)) (not_not_intro hup)
    · rename_i hup
      exact iff_of_true (fun _ h => Option.some.inj h ▸ rfl) hup

/-- A path starts with a step below where one is, unless a slash is in front. -/
theorem staysBelow_of_start? {path : String} :
    (∀ c, start? path = some c → c.staysBelow = true) ↔ path.toList.head? ≠ some '/' := by
  rw [start?]
  split
  · rename_i hslash
    refine iff_of_false (fun h => Bool.false_ne_true (h _ rfl)) (not_not_intro ?_)
    exact beq_iff_eq.1 hslash
  · rename_i hslash
    refine iff_of_true ?_ (mt beq_iff_eq.2 hslash)
    split
    · exact fun _ h => Option.some.inj h ▸ rfl
    · exact nofun

/-- **A path stays below a directory when it is not empty, does not start with a slash and has no
segment of two dots.** -/
theorem staysBelow_iff {path : String} : staysBelow path = true ↔
    path ≠ "" ∧ path.toList.head? ≠ some '/' ∧ ['.', '.'] ∉ path.toList.splitOn '/' := by
  have hsegments : (∀ c ∈ (segments path).filterMap component?, c.staysBelow = true) ↔
      up ∉ segments path := by
    rw [List.forall_mem_filterMap]
    simp only [staysBelow_of_component?]
    exact ⟨fun h hup => h up hup rfl, fun h segment hmem heq => h (heq ▸ hmem)⟩
  rw [staysBelow, components, Bool.and_eq_true, bne_iff_ne, List.all_eq_true,
    List.forall_mem_append, hsegments, ← staysBelow_of_start?, ← segments_eq]
  simp only [Option.mem_toList]
  rfl

/-- What is taken from a directory starts where the directory does, or where the path does when the
directory is empty. -/
theorem isAbsolute_join (dir path : String) :
    isAbsolute (join dir path) = if dir = "" then isAbsolute path else isAbsolute dir := by
  have hfront (hdir : dir ≠ "") (tail : String) : isAbsolute (dir ++ tail) = isAbsolute dir := by
    rw [isAbsolute, String.toList_append, List.head?_append_of_ne_nil _ (by simpa using hdir)]
    rfl
  split
  · rename_i hdir
    rw [join, if_pos (.inl hdir), hdir, String.empty_append]
  · rename_i hdir
    rw [join]
    split
    · exact hfront hdir path
    · rw [String.append_assoc]
      exact hfront hdir ("/" ++ path)

/-- **A path taken from a directory leads through the components of the directory and then through
its own**, if it says nothing about where it starts. -/
theorem components_join (dir : String) {path : String} (h : start? path = none) :
    components (join dir path) = components dir ++ components path := by
  have hpath : components path = (segments path).filterMap component? := by
    rw [components, h]
    rfl
  obtain ⟨front, hdir, hfront, hjoin⟩ := exists_segments_join dir path
  by_cases hempty : dir = ""
  · rw [hempty, join, if_pos (.inl rfl), String.empty_append]
    rfl
  · -- The segments of the directory start as those of what is taken from it.
    have hhead : (front ++ segments path).head? = (segments dir).head? := by
      rw [List.head?_append_of_ne_nil _ (hfront hempty)]
      rcases hdir with hdir | hdir
      · rw [hdir]
      · rw [hdir, List.head?_append_of_ne_nil _ (hfront hempty)]
    have hsteps : front.filterMap component? = (segments dir).filterMap component? := by
      rcases hdir with hdir | hdir
      · rw [hdir]
      · rw [hdir, List.filterMap_append]
        exact (List.append_nil _).symm
    have hstart : start? (join dir path) = start? dir := by
      rw [start?, isAbsolute_join, if_neg hempty, hjoin, hhead, start?]
    rw [components, hstart, hjoin, List.filterMap_append, hsteps, ← List.append_assoc, hpath,
      components]

/-! ## Names of generated files -/

/-- A path without slashes that is not of dots alone is one name. -/
theorem components_eq_name {path : String} (hslash : '/' ∉ path.toList)
    (hdots : ∃ c ∈ path.toList, c ≠ '.') :
    start? path = none ∧ components path = [.name path.toList] := by
  have hne {segment : List Char} (hsegment : segment.all (· == '.') = true) :
      path.toList ≠ segment := by
    obtain ⟨c, hc, hdot⟩ := hdots
    exact fun h => hdot (beq_iff_eq.1 (List.all_eq_true.1 hsegment c (h ▸ hc)))
  have hsegments : segments path = [path.toList] := by
    rw [segments_eq, List.splitOn_eq_singleton hslash]
  have hstart : start? path = none := by
    rw [start?, if_neg, if_neg]
    · rw [hsegments]
      exact fun h => hne (by decide) (Option.some.inj h)
    · exact fun h => hslash (List.mem_of_mem_head? (beq_iff_eq.1 h))
  have hname : component? path.toList = some (.name path.toList) := by
    rw [component?, if_neg, if_neg (hne (by decide))]
    rw [isIdle, Bool.or_eq_true, beq_iff_eq, beq_iff_eq, not_or]
    exact ⟨hne (by decide), hne (by decide)⟩
  refine ⟨hstart, ?_⟩
  rw [components, hstart, hsegments, List.filterMap_cons_some hname]
  rfl

/-- **The name of a generated file** is of small letters, digits and underscores, up to its
extension. -/
theorem exists_outputFileName_eq (fileName : String) : ∃ stem,
    Naming.outputFileName fileName = stem ++ ".rs" ∧ stem ≠ "" ∧
      ∀ c ∈ stem.toList, Naming.SmallChar c := by
  refine ⟨Naming.fileModule fileName, rfl, fun h => ?_, fun _ =>
    Naming.smallChar_of_mem_fileModule⟩
  obtain ⟨c, hc, -⟩ := Naming.exists_head?_withStart
    (Naming.moduleIdent (Naming.stem fileName)).toList
  rw [String.ofList_eq_empty_iff.1 h] at hc
  cases hc

/-- The name of a generated file is one name, as a path. -/
theorem components_outputFileName (fileName : String) :
    start? (Naming.outputFileName fileName) = none ∧
      components (Naming.outputFileName fileName) =
        [.name (Naming.outputFileName fileName).toList] := by
  obtain ⟨stem, hname, -, hstem⟩ := exists_outputFileName_eq fileName
  have hchars : ∀ c ∈ (Naming.outputFileName fileName).toList,
      Naming.SmallChar c ∨ c ∈ ".rs".toList := fun c hc => by
    rw [hname, String.toList_append, List.mem_append] at hc
    exact hc.imp_left (hstem c)
  refine components_eq_name (fun h => ?_) ⟨'s', ?_, by decide⟩
  · exact absurd (hchars _ h) (by decide)
  · rw [hname, String.toList_append]
    exact List.mem_append_right _ (by decide)

end Path

end Protowire
