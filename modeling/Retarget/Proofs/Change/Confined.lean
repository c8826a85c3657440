import Retarget.Proofs.Change.Soundness

/-!
Changes in one place and what they leave alone. A pass over files changes nothing outside its
directory and makes no directory or link, so what a path still leads to, it led to before; replacing
a tree may make directories above its place as well. Both keep whatever lies apart from the place.
-/
namespace Retarget.FileSystem

variable {before now after : FileSystem} {place reached query : Place}

/-- A later state that differs from an earlier one below a place at most, and there in files at
most, some directories and links being gone. -/
structure Confined (before : FileSystem) (place : Place) (now : FileSystem) : Prop where
  sound : now.Sound
  cwd : now.cwd = before.cwd
  ways : now.root.WaysIn before.root
  outside : ∀ query, ¬place <+: query → now.root.entry? query = before.root.entry? query

theorem Confined.refl {files : FileSystem} (sound : files.Sound) (place : Place) :
    files.Confined place files :=
  ⟨sound, rfl, fun _ _ held _ => held, fun _ _ => rfl⟩

theorem Continues.confined (continues : before.Continues now) (confined : now.Confined place after) :
    before.Continues after :=
  ⟨confined.sound, confined.cwd.trans continues.cwd⟩

/-- A later state that differs from an earlier one above or below a place at most. -/
structure Spares (before : FileSystem) (place : Place) (now : FileSystem) : Prop where
  sound : now.Sound
  cwd : now.cwd = before.cwd
  beside : ∀ query, ¬place <+: query → ¬query <+:
      place → now.root.entry? query = before.root.entry? query

theorem Confined.spares (confined : before.Confined place now) : before.Spares place now :=
  ⟨confined.sound, confined.cwd, fun query outside _ => confined.outside query outside⟩

/-- Neither of two places contains the other. -/
def Apart (place other : Place) : Prop := ¬place <+: other ∧ ¬other <+: place

instance (place other : Place) : Decidable (Apart place other) :=
  inferInstanceAs (Decidable (¬place <+: other ∧ ¬other <+: place))

theorem Apart.of_below (apart : Apart place reached) (below : place <+: query) :
    ¬reached <+: query ∧ ¬query <+: reached := by
  constructor
  · intro inside
    rcases List.prefix_or_prefix_of_prefix below inside with first | second
    · exact apart.1 first
    · exact apart.2 second
  · exact fun inside => apart.1 (below.trans inside)

/-- What stands at a place and below it is as it was. -/
structure Keeps (before : FileSystem) (place : Place) (now : FileSystem) : Prop where
  sound : now.Sound
  kept : ∀ query, place <+: query → now.root.entry? query = before.root.entry? query

theorem Keeps.confined (keeps : before.Keeps place now) (apart : Apart place reached)
    (confined : now.Confined reached after) : before.Keeps place after :=
  ⟨confined.sound, fun query below =>
    (confined.outside query (apart.of_below below).1).trans (keeps.kept query below)⟩

theorem Spares.keeps (spares : before.Spares reached now) (apart : Apart place reached) :
    before.Keeps place now :=
  ⟨spares.sound, fun query below =>
    spares.beside query (apart.of_below below).1 (apart.of_below below).2⟩

end Retarget.FileSystem
