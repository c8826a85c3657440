import Retarget.Pass.Residue
import Retarget.Proofs.Marks
import Retarget.Proofs.Pass.Rewriting

/-!
What a check of a derived tree finds. On a tree that has a fingerprint it always comes to an end,
and it finds nothing exactly when no file carries the source mark and no file with the target mark
holds a pattern that is looked for.
-/
namespace Retarget

/-- No pattern that a check looks for is left in these contents. -/
def Table.Settled (table : Table) (contents : Bytes) : Prop :=
  ∀ text, text? contents = some text → ∀ entry ∈ table.entries, Pass.isChecked entry = true →
    ¬entry.pattern.toList <:+: text.toList

namespace Pass

open FileSystem

variable {files : FileSystem} {directory : Path} {place : Place} {naming : Naming} {table : Table}

theorem isChecked_iff {entry : Substitution} : isChecked entry = true ↔
    entry.pattern ≠ "" ∧ ¬entry.pattern.toList <:+: entry.replacement.toList := by
  simp [isChecked, ← occursIn_iff]

theorem residual?_eq_none {path : Path} {text : List Char} {entry : Substitution} :
    residual? path text entry = none ↔ isChecked entry = true →
    ¬entry.pattern.toList <:+: text := by
  unfold residual?
  by_cases checked : isChecked entry = true
  · have some := Substitution.toList_pattern (isChecked_iff.1 checked).1
    simp [checked, occurrences_eq_zero some]
  · simp [checked]

/-- Nothing is left to do in a file. -/
def Clear (naming : Naming) (table : Table) (name contents : Bytes) : Prop :=
  naming.isSource name = false ∧ (naming.isTarget name = true → table.Settled contents)

theorem residueOfFile_ok (directory : Path) (naming : Naming) (table : Table) {file : Found}
    {contents : Bytes}
    (read : files.contents file.path = .ok contents) :
    ∃ residue, residueOfFile files directory naming table file = .ok residue ∧
      (residue.unrenamed = [] ∧ residue.residuals = [] ↔
        Clear naming table file.name contents) := by
  unfold residueOfFile Clear
  cases source : naming.isSource file.name with
  | true => exact ⟨_, rfl, by simp⟩
  | false =>
    cases target : naming.isTarget file.name with
    | false => exact ⟨_, rfl, by simp⟩
    | true =>
      rw [read]
      cases isText : text? contents with
      | none =>
        refine ⟨⟨[], []⟩, by simp [bind, Except.bind, isText, pure, Except.pure], ?_⟩
        simp [Table.Settled, isText]
      | some text =>
        refine ⟨⟨[], table.entries.filterMap
          (residual? (file.path.relativeTo directory) text.toList)⟩,
          by simp [bind, Except.bind, isText, pure, Except.pure], ?_⟩
        simp [Table.Settled, isText, List.filterMap_eq_nil_iff, residual?_eq_none]

theorem residueOfFiles_ok (directory : Path) (naming : Naming) (table : Table) {listed : List Found}
    (read : ∀ file ∈ listed, ∃ contents, files.contents file.path = .ok contents) :
    ∃ residue, residueOfFiles files directory naming table listed = .ok residue ∧
      (residue.unrenamed = [] ∧ residue.residuals = [] ↔
        ∀ file ∈ listed, ∀ contents, files.contents file.path = .ok contents →
        Clear naming table file.name contents) := by
  induction listed with
  | nil => exact ⟨⟨[], []⟩, rfl, by simp⟩
  | cons file rest ih =>
    obtain ⟨contents, here⟩ := read file (by simp)
    obtain ⟨first, given, firstClear⟩ := residueOfFile_ok directory naming table here
    obtain ⟨others, more, othersClear⟩ :=
      ih fun other member => read other (List.mem_cons_of_mem _ member)
    have found : residueOfFiles files directory naming table (file :: rest) = .ok
        (first.append others) := by
      simp [residueOfFiles, given, more, bind, Except.bind, pure, Except.pure]
    refine ⟨first.append others, found, ?_⟩
    rw [List.forall_mem_cons, ← othersClear]
    have only : (∀ found, files.contents file.path = .ok found →
        Clear naming table file.name found) ↔
          Clear naming table file.name contents := by simp [here]
    rw [only, ← firstClear]
    simp [Residue.append, and_assoc, and_left_comm]

/-- On a tree that has a fingerprint a check succeeds, and what it finds is told by the files there.
-/
theorem residue_of_fingerprint (naming : Naming) (table : Table)
    (wellFormed : files.root.WellFormed)
    (opens : files.Opens directory place) {fingerprint : Fingerprint}
    (taken : files.fingerprint directory = .ok fingerprint) :
    ∃ residue, Pass.residue files directory naming table = .ok residue ∧
      (residue.unrenamed = [] ∧ residue.residuals = [] ↔
        ∀ above name contents,
        files.root.entry? (place ++ above ++ [name]) = some (.leaf (.file contents)) →
          Clear naming table name contents) := by
  obtain ⟨walked, whole, read⟩ := fingerprint_ok taken
  have lists := lists_of_walk wellFormed opens whole
  have below : files.filesBelow directory = .ok (walked.filter Found.isFile) := by
    rw [filesBelow, if_pos (isDirectory_iff.2 ⟨place, opens⟩), unbroken_ok.2 whole]
    rfl
  have readable : ∀ file ∈ walked.filter Found.isFile, ∃ contents,
      files.contents file.path = .ok contents := by
    intro file member
    obtain ⟨inside, isFile⟩ := List.mem_filter.1 member
    exact read file inside isFile
  obtain ⟨residue, found, clear⟩ := residueOfFiles_ok directory naming table readable
  refine ⟨residue, by simp [Pass.residue, below, found, bind, Except.bind], clear.trans ?_⟩
  -- What is read of a listed file is what stands at its place.
  have readHeld : ∀ file ∈ walked.filter Found.isFile, ∀ contents given,
      files.root.entry? (place ++ file.place) = some (.leaf (.file contents)) →
        files.contents file.path = .ok given → given = contents :=
    fun file member contents given held got => opens.read_listed (lists.descends file member)
      (lists.legal wellFormed member) held (mapError_eq_ok.1 got)
  constructor
  · intro all above name contents held
    rw [List.append_assoc] at held
    obtain ⟨file, member, path⟩ := lists.complete _ contents held
    obtain ⟨given, got⟩ := read file (List.mem_filter.1 member).1 (List.mem_filter.1 member).2
    have named : file.name = name := by simp [Found.name, path]
    have settled := all file member given got
    rwa [readHeld file member contents given (path ▸ held) got, named] at settled
  · intro all file member given got
    obtain ⟨above, name, path, named, _⟩ := lists.above member
    obtain ⟨contents, _, held⟩ := lists.held file member
    rw [readHeld file member contents given held got, named]
    rw [path, ← List.append_assoc] at held
    exact all above name contents held

end Pass
end Retarget
