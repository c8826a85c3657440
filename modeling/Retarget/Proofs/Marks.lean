import Mathlib.Data.List.Basic
import Mathlib.Tactic.Common
import Retarget.FileSystem.Tree
import Retarget.Naming

/-!
Marks at the front of names. Where neither mark begins the other, no name carries both, so a file
that was renamed is never renamed again and no two files get one name.
-/
namespace Retarget

theorem utf8_ne_nil {text : String} (some : text ≠ "") : utf8 text ≠ [] := fun none =>
  some (utf8_injective (none.trans (by decide : [] = utf8 "")))

namespace Naming

variable {naming : Naming} {name fresh : Bytes}

theorem behind?_eq_some {α : Type} [DecidableEq α] {mark list rest : List α} :
    behind? mark list = some rest ↔ list = mark ++ rest := by
  induction mark generalizing list with
  | nil => simp [behind?]
  | cons first others ih =>
    cases list with
    | nil => simp [behind?]
    | cons item more =>
      by_cases same : first = item
      · simp [behind?, same, ih]
      · simp [behind?, same, Ne.symm same]

theorem rest?_eq_some {mark : String} {rest : Bytes} :
    rest? mark name = some rest ↔ mark ≠ "" ∧ name = utf8 mark ++ rest := by
  unfold rest?
  split
  · simp_all
  · simp_all [behind?_eq_some]

theorem rest?_isSome {mark : String} :
    (rest? mark name).isSome = true ↔ mark ≠ "" ∧ utf8 mark <+: name := by
  rw [Option.isSome_iff_exists]
  simp only [rest?_eq_some, exists_and_left]
  exact and_congr_right fun _ => exists_congr fun rest => eq_comm

theorem isSource_iff : naming.isSource name = true ↔ naming.source ≠ "" ∧ utf8 naming.source <+:
    name := rest?_isSome

theorem isTarget_iff : naming.isTarget name = true ↔ naming.target ≠ "" ∧ utf8 naming.target <+:
    name := rest?_isSome

theorem rename?_eq_some : naming.rename? name = some fresh ↔
    naming.source ≠ "" ∧ ∃ rest, name = utf8 naming.source ++ rest ∧
    fresh = utf8 naming.target ++ rest := by
  simp only [rename?, Option.map_eq_some_iff, rest?_eq_some, and_assoc, exists_and_left]
  exact and_congr_right fun _ => exists_congr fun rest => and_congr_right fun _ => eq_comm

theorem rename?_eq_none : naming.rename? name = none ↔ naming.isSource name = false := by
  simp [rename?, isSource]

/-- Neither mark is an initial segment of the other. -/
def Apart (naming : Naming) : Prop :=
  ¬utf8 naming.source <+: utf8 naming.target ∧ ¬utf8 naming.target <+: utf8 naming.source

theorem Apart.isSource_of_isTarget (apart : naming.Apart) (isTarget : naming.isTarget name = true) :
    naming.isSource name = false := by
  by_contra isSource
  rw [Bool.not_eq_false, isSource_iff] at isSource
  rcases List.prefix_or_prefix_of_prefix isSource.2 (isTarget_iff.1 isTarget).2 with first | second
  · exact apart.1 first
  · exact apart.2 second

/-- A new name carries the target mark. -/
theorem isTarget_of_rename? (marked : naming.target ≠ "")
    (renamed : naming.rename? name = some fresh) :
    naming.isTarget fresh = true := by
  obtain ⟨_, rest, _, rfl⟩ := rename?_eq_some.1 renamed
  exact isTarget_iff.2 ⟨marked, List.prefix_append _ _⟩

theorem slash_not_mem_of_rename? (slashless : Path.slash ∉ utf8 naming.target)
    (nameSlashless : Path.slash ∉ name) (renamed : naming.rename? name = some fresh) :
    Path.slash ∉ fresh := by
  obtain ⟨_, rest, rfl, rfl⟩ := rename?_eq_some.1 renamed
  rw [List.mem_append, not_or] at nameSlashless ⊢
  exact ⟨slashless, nameSlashless.2⟩

theorem rename?_injective {other : Bytes} (renamed : naming.rename? name = some fresh)
    (otherRenamed : naming.rename? other = some fresh) : name = other := by
  obtain ⟨_, rest, rfl, whole⟩ := rename?_eq_some.1 renamed
  obtain ⟨_, more, rfl, same⟩ := rename?_eq_some.1 otherRenamed
  rw [List.append_cancel_left (whole.symm.trans same)]

/-! ## Places -/

/-- Where a file goes whose name carries the source mark. -/
def relocate? (naming : Naming) (place : Place) : Option Place :=
  place.getLast?.bind fun name => (naming.rename? name).map fun fresh => place.dropLast ++ [fresh]

variable {place goal : Place}

theorem relocate?_concat (above : Place) (name : Bytes) :
    naming.relocate? (above ++ [name]) = (naming.rename? name).map fun fresh =>
    above ++ [fresh] := by
  simp [relocate?]

theorem relocate?_eq_some : naming.relocate? place = some goal ↔
    ∃ above name fresh, place = above ++ [name] ∧ goal = above ++ [fresh] ∧
    naming.rename? name = some fresh := by
  cases List.eq_nil_or_concat' place with
  | inl top => simp [top, relocate?]
  | inr below =>
    obtain ⟨front, last, rfl⟩ := below
    rw [relocate?_concat, Option.map_eq_some_iff]
    constructor
    · rintro ⟨fresh, renamed, rfl⟩
      exact ⟨front, last, fresh, rfl, rfl, renamed⟩
    · rintro ⟨above, name, fresh, same, rfl, renamed⟩
      obtain ⟨rfl, ends⟩ := List.append_inj' same rfl
      obtain rfl : last = name := by simpa using ends
      exact ⟨fresh, renamed, rfl⟩

theorem Apart.relocate?_goal (apart : naming.Apart) (marked : naming.target ≠ "")
    (moves : naming.relocate? place = some goal) :
    naming.relocate? goal = none := by
  obtain ⟨above, name, fresh, _, rfl, renamed⟩ := relocate?_eq_some.1 moves
  have settled := apart.isSource_of_isTarget (isTarget_of_rename? marked renamed)
  rw [relocate?_concat, rename?_eq_none.2 settled]
  rfl

theorem relocate?_injective {other : Place} (moves : naming.relocate? place = some goal)
    (otherMoves : naming.relocate? other = some goal) : place = other := by
  obtain ⟨above, name, fresh, rfl, rfl, renamed⟩ := relocate?_eq_some.1 moves
  obtain ⟨front, last, new, rfl, same, otherRenamed⟩ := relocate?_eq_some.1 otherMoves
  obtain ⟨rfl, ends⟩ := List.append_inj' same rfl
  obtain rfl : fresh = new := by simpa using ends
  rw [rename?_injective renamed otherRenamed]

end Naming
end Retarget
