import Retarget.Proofs.Marks

/-!
The rule for names as text against the rule for names as bytes. Bytes of a text at the front of
those of another end where a character of the other ends, so a mark is at the front of the bytes
exactly when it is at the front of the characters, and what stands behind it is a text of its own.
-/
namespace Retarget

/-- A text begins another by its bytes when it does so by its characters. -/
theorem utf8_prefix_iff {first second : String} :
    utf8 first <+: utf8 second ↔ first.toList <+: second.toList := by
  constructor
  · intro starts
    obtain ⟨rest, whole⟩ := starts
    apply List.isPrefix_of_utf8Encode_append_eq_utf8Encode ⟨rest.toArray⟩
    apply ByteArray.ext
    apply Array.toList_inj.1
    simpa [utf8] using whole
  · intro starts
    obtain ⟨rest, whole⟩ := starts
    have joined : first ++ String.ofList rest = second := by
      apply String.toList_inj.1
      rw [String.toList_append, String.toList_ofList, whole]
    exact ⟨utf8 (String.ofList rest), by rw [← utf8_append, joined]⟩

namespace Naming

variable {naming : Naming} {mark name : String}

/-- A name carries a mark as text when its bytes carry it. -/
theorem carries_iff : (mark ≠ "" && mark.toList.isPrefixOf name.toList) = true ↔
    (rest? mark (utf8 name)).isSome = true := by
  rw [rest?_isSome, utf8_prefix_iff, Bool.and_eq_true, decide_eq_true_iff,
    List.isPrefixOf_iff_prefix]

theorem isSourceText_eq : naming.isSourceText name = naming.isSource (utf8 name) :=
  Bool.eq_iff_iff.2 carries_iff

theorem isTargetText_eq : naming.isTargetText name = naming.isTarget (utf8 name) :=
  Bool.eq_iff_iff.2 carries_iff

/-- A name with the source mark is the mark and a text behind it. -/
theorem isSourceText_iff : naming.isSourceText name = true ↔
    naming.source ≠ "" ∧ ∃ rest, name = naming.source ++ rest := by
  rw [isSourceText_eq, isSource_iff, utf8_prefix_iff]
  apply and_congr_right
  intro _
  constructor
  · intro ⟨chars, whole⟩
    refine ⟨String.ofList chars, ?_⟩
    apply String.toList_inj.1
    rw [String.toList_append, String.toList_ofList, whole]
  · intro ⟨rest, whole⟩
    rw [whole, String.toList_append]
    exact List.prefix_append _ _

theorem renameText?_append (marked : naming.source ≠ "") (rest : String) :
    naming.renameText? (naming.source ++ rest) = some (naming.target ++ rest) := by
  have carried : naming.isSourceText (naming.source ++ rest) = true :=
    isSourceText_iff.2 ⟨marked, rest, rfl⟩
  rw [renameText?, if_pos carried, String.toList_append, List.drop_left, String.ofList_toList]

theorem renameText?_eq : (naming.renameText? name).map utf8 = naming.rename? (utf8 name) := by
  by_cases carried : naming.isSourceText name = true
  · obtain ⟨marked, rest, rfl⟩ := isSourceText_iff.1 carried
    rw [renameText?_append marked, Option.map_some, eq_comm, rename?_eq_some]
    exact ⟨marked, utf8 rest, utf8_append _ _, utf8_append _ _⟩
  · have plain : naming.isSource (utf8 name) = false := by
      rw [← isSourceText_eq]
      exact Bool.eq_false_iff.2 carried
    rw [renameText?, if_neg carried, Option.map_none, rename?_eq_none.2 plain]

/-- The slice behind as many bytes of a name as the source mark has. -/
theorem renameText?_slice (carried : naming.isSourceText name = true) :
    ∃ boundary : String.Pos.Raw.IsValid name ⟨naming.source.utf8ByteSize⟩,
      naming.renameText? name =
        some (naming.target ++ name.extract (name.pos _ boundary) name.endPos) := by
  obtain ⟨marked, rest, rfl⟩ := isSourceText_iff.1 carried
  have boundary : String.Pos.Raw.IsValid (naming.source ++ rest) ⟨naming.source.utf8ByteSize⟩ :=
    String.Pos.Raw.isValid_iff_exists_append.2 ⟨naming.source, rest, rfl, rfl⟩
  refine ⟨boundary, ?_⟩
  have sliced : (naming.source ++ rest).extract ((naming.source ++ rest).pos _ boundary)
      (naming.source ++ rest).endPos = rest := by
    apply String.toByteArray_inj.1
    rw [String.toByteArray_extract, String.toByteArray_append]
    apply ByteArray.extract_append_eq_right
    · simp
    · simp
  rw [sliced, renameText?_append marked]

/-- The rule for text and the rule for bytes give every text the same answers, and renaming cuts a
text between two characters. As bytes, whether text or not, exactly the names with the source mark
are renamed, what stands behind the mark is kept, and different names stay different. -/
theorem text_as_bytes (naming : Naming) :
    (∀ name : String,
      naming.isSourceText name = naming.isSource (utf8 name) ∧
      naming.isTargetText name = naming.isTarget (utf8 name) ∧
      (naming.renameText? name).map utf8 = naming.rename? (utf8 name) ∧
      (naming.isSourceText name = true →
        ∃ boundary : String.Pos.Raw.IsValid name ⟨naming.source.utf8ByteSize⟩,
          naming.renameText? name =
            some (naming.target ++ name.extract (name.pos _ boundary) name.endPos))) ∧
    (∀ name : Bytes,
      ((naming.rename? name).isSome = naming.isSource name) ∧
      ∀ fresh, naming.rename? name = some fresh →
        ∃ rest, name = utf8 naming.source ++ rest ∧ fresh = utf8 naming.target ++ rest) ∧
    ∀ first second fresh, naming.rename? first = some fresh → naming.rename? second = some fresh →
      first = second := by
  refine ⟨?_, ?_, ?_⟩
  · intro name
    exact ⟨isSourceText_eq, isTargetText_eq, renameText?_eq, renameText?_slice⟩
  · intro name
    refine ⟨by simp [rename?, isSource], ?_⟩
    intro fresh renamed
    exact (rename?_eq_some.1 renamed).2
  · intro first second fresh renamed also
    exact rename?_injective renamed also

/-- Marks of two bytes that differ in the second. -/
def accented : Naming := ⟨"é", "è"⟩

/-- A name behind whose mark a byte follows that is no text. -/
theorem text_as_bytes_accented :
    accented.isSourceText "éx" = true ∧
      accented.renameText? "éx" = some "èx" ∧
      (∃ boundary : String.Pos.Raw.IsValid "éx" ⟨2⟩,
        "è" ++ String.extract (String.pos "éx" _ boundary) (String.endPos "éx") = "èx") ∧
      accented.rename? [0xC3, 0xA9, 0xFF] = some [0xC3, 0xA8, 0xFF] ∧
      accented.isSource [0xC3, 0xA9, 0xFF] = true ∧
      accented.isSource [0xC3, 0xA8, 0xFF] = false ∧
      ∀ name, accented.rename? name = some [0xC3, 0xA8, 0xFF] → name = [0xC3, 0xA9, 0xFF] := by
  obtain ⟨texts, names, injective⟩ := text_as_bytes accented
  have carried : accented.isSourceText "éx" = true := by decide
  have renamed : accented.renameText? "éx" = some "èx" := by decide
  have given : accented.rename? [0xC3, 0xA9, 0xFF] = some [0xC3, 0xA8, 0xFF] := by decide
  obtain ⟨boundary, slice⟩ := (texts "éx").2.2.2 carried
  refine ⟨carried, renamed, ⟨boundary, ?_⟩, given, ?_, by decide, ?_⟩
  · exact Option.some.inj (slice.symm.trans renamed)
  · rw [← (names _).1, given, Option.isSome_some]
  · intro name same
    exact injective _ _ _ same given

end Naming
end Retarget
