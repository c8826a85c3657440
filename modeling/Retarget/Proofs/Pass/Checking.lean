import Mathlib.Data.Set.List
import Retarget.Proofs.Pass.Fingerprint
import Retarget.Proofs.Pass.Idle

/-!
When a check of a derived tree comes to an end and finds nothing. The walk must not break off, no
file may carry the source mark, and a file with the target mark must be in reach and hold no
pattern that is looked for. Files with neither mark are not looked into.
-/
namespace Retarget

namespace FileSystem

variable {files : FileSystem} {directory top : Path} {place : Place}

/-- A walk from a directory breaks off only at a directory below whose path cannot be opened. -/
theorem walkFrom_unbroken_iff {inner : Tree} :
    (∃ listed : List Found, inner.walkFrom top = listed.map .ok) ↔
      ∀ below, (below, Entry.directory) ∈ inner.walk → (top.descend below).opens = true := by
  have whole : (∃ listed : List Found, inner.walkFrom top = listed.map .ok) ↔
      ∀ item ∈ inner.walkFrom top, ∃ found, .ok found = item := by
    have range := Set.range_list_map (Except.ok : Found → Except WalkError Found)
    rw [Set.ext_iff] at range
    simpa [eq_comm] using range (inner.walkFrom top)
  rw [whole]
  unfold Tree.walkFrom
  constructor
  · intro all below visited
    by_contra closed
    have item : .error (.refused (top.descend below) .nameTooLong) ∈ inner.walkFrom top :=
      List.mem_flatMap.2 ⟨_, visited, by simp [closed]⟩
    obtain ⟨found, same⟩ := all _ item
    cases same
  · intro open' item member
    obtain ⟨⟨below, entry⟩, visited, met⟩ := List.mem_flatMap.1 member
    simp only at met
    split at met
    · rename_i closed
      rw [closed.1] at visited
      rw [open' below visited] at closed
      cases closed.2
    · exact ⟨_, (List.mem_singleton.1 met).symm⟩

/-- The files below a directory can be listed exactly if every directory there can be opened. -/
theorem Opens.filesBelow_iff (wellFormed : files.root.WellFormed)
    (opens : files.Opens directory place) :
    (∃ listed, files.filesBelow directory = .ok listed) ↔
      ∀ below, files.root.entry? (place ++ below) = some .directory →
        (directory.descend below).opens = true := by
  obtain ⟨inner, held⟩ := Tree.entry?_eq_directory.1 opens.directory
  obtain ⟨first, notFile, walked⟩ := opens.walk_eq held
  have listed : (∃ listed, files.filesBelow directory = .ok listed) ↔
      ∃ listed : List Found, inner.walkFrom directory = listed.map .ok := by
    rw [filesBelow, if_pos (isDirectory_iff.2 ⟨place, opens⟩), walked, unbroken]
    cases whole : unbroken (inner.walkFrom directory) with
    | ok found => simp [Except.map, unbroken_ok.1 whole]
    | error failure =>
      have never : ∀ found : List Found, inner.walkFrom directory ≠ found.map .ok := by
        intro found same
        rw [unbroken_ok.2 same] at whole
        cases whole
      simp [Except.map, never]
  have top : (directory.descend []).opens = true :=
    decide_eq_true (Path.check_eq_ok_iff.1 opens.accepted).2.2
  rw [listed, walkFrom_unbroken_iff]
  refine forall_congr' fun below => ?_
  rw [Tree.entry?_append_branch held, Tree.mem_walk (wellFormed.at? held).2]
  constructor
  · intro open' stands
    by_cases none : below = []
    · exact none ▸ top
    · exact open' ⟨none, stands⟩
  · exact fun open' visited => open' visited.2

end FileSystem

namespace Pass

open FileSystem

variable {files : FileSystem} {directory : Path} {place : Place} {naming : Naming} {table : Table}
  {listed : List Found}

theorem residueOfFile_of_passed {file : Found} (passed : Passed files naming table file) :
    residueOfFile files directory naming table file = .ok ⟨[], []⟩ := by
  obtain ⟨source, settled⟩ := passed
  unfold residueOfFile
  cases target : naming.isTarget file.name with
  | false => simp [source]
  | true =>
    obtain ⟨contents, read, absent⟩ := settled target
    simp only [source, read, Bool.false_eq_true, if_false, if_true, bind, Except.bind]
    cases isText : text? contents with
    | none => rfl
    | some text =>
      have none : table.entries.filterMap
          (residual? (file.path.relativeTo directory) text.toList) = [] :=
        List.filterMap_eq_nil_iff.2 fun entry member =>
          residual?_eq_none.2 (absent text isText entry member)
      simp only [none, pure, Except.pure]

theorem residueOfFiles_of_passed (passed : ∀ file ∈ listed, Passed files naming table file) :
    residueOfFiles files directory naming table listed = .ok ⟨[], []⟩ := by
  induction listed with
  | nil => rfl
  | cons file rest ih =>
    rw [List.forall_mem_cons] at passed
    rw [residueOfFiles, residueOfFile_of_passed passed.1, ih passed.2]
    rfl

/-- A check comes to an end and finds nothing exactly if the files can be listed and each of them
passes. -/
theorem residue_passed_iff :
    (∃ residue, Pass.residue files directory naming table = .ok residue ∧
      residue.unrenamed = [] ∧ residue.residuals = []) ↔
      ∃ listed, files.filesBelow directory = .ok listed ∧
        ∀ file ∈ listed, Passed files naming table file := by
  constructor
  · rintro ⟨residue, found, unrenamed, residuals⟩
    exact passed_of_residue found unrenamed residuals
  · rintro ⟨listed, below, passed⟩
    refine ⟨⟨[], []⟩, ?_, rfl, rfl⟩
    rw [Pass.residue, below]
    exact residueOfFiles_of_passed passed

/-- A file below a directory as a check wants it. -/
def Faultless (directory : Path) (naming : Naming) (table : Table) (above : Place)
    (name contents : Bytes) : Prop :=
  naming.isSource name = false ∧ (naming.isTarget name = true →
    directory.InReach (above ++ [name]) ∧ table.Settled contents)

theorem passed_iff_faultless (wellFormed : files.root.WellFormed)
    (lists : files.Lists directory place listed) {file : Found} (member : file ∈ listed)
    {above : Place} {name contents : Bytes} (stands : file.place = above ++ [name])
    (held : files.root.entry? (place ++ above ++ [name]) = some (.leaf (.file contents))) :
    Passed files naming table file ↔ Faultless directory naming table above name contents := by
  have named : file.name = name := by simp [Found.name, stands]
  have legal := lists.legal wellFormed member
  rw [List.append_assoc] at held
  rw [stands] at legal
  have read : files.contents file.path = if directory.InReach (above ++ [name]) then .ok contents
      else .error (.refused file.path .nameTooLong) := by
    rw [FileSystem.contents, lists.descends file member, stands,
      lists.opens.read_eq held legal]
    split <;> rfl
  rw [Passed, Faultless, named, read]
  refine and_congr_right fun _ => imp_congr_right fun _ => ?_
  by_cases inReach : directory.InReach (above ++ [name])
  · simp [inReach]
  · simp [inReach]

/-- A check comes to an end and finds nothing exactly if the path leads to a directory, every
directory there can be opened, and every file is faultless. -/
theorem residue_faultless_iff (wellFormed : files.root.WellFormed) :
    (∃ residue, Pass.residue files directory naming table = .ok residue ∧
      residue.unrenamed = [] ∧ residue.residuals = []) ↔
      ∃ place, files.Opens directory place ∧
        (∀ below, files.root.entry? (place ++ below) = some .directory →
          (directory.descend below).opens = true) ∧
        ∀ above name contents,
          files.root.entry? (place ++ above ++ [name]) = some (.leaf (.file contents)) →
          Faultless directory naming table above name contents := by
  rw [residue_passed_iff]
  constructor
  · rintro ⟨listed, below, passed⟩
    obtain ⟨place, lists⟩ := filesBelow_ok wellFormed below
    refine ⟨place, lists.opens, (lists.opens.filesBelow_iff wellFormed).1 ⟨listed, below⟩, ?_⟩
    intro above name contents held
    have stands := held
    rw [List.append_assoc] at stands
    obtain ⟨file, member, there⟩ := lists.complete _ contents stands
    exact (passed_iff_faultless wellFormed lists member there held).1 (passed file member)
  · rintro ⟨place, opens, open', faultless⟩
    obtain ⟨listed, below⟩ := (opens.filesBelow_iff wellFormed).2 open'
    obtain ⟨other, lists⟩ := filesBelow_ok wellFormed below
    obtain rfl := opens.unique lists.opens
    refine ⟨listed, below, fun file member => ?_⟩
    obtain ⟨above, name, there, _, _⟩ := lists.above member
    obtain ⟨contents, _, held⟩ := lists.held file member
    rw [there, ← List.append_assoc] at held
    exact (passed_iff_faultless wellFormed lists member there held).2
      (faultless above name contents held)

end Pass
end Retarget
