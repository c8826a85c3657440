import Retarget.Proofs.Pass.Fingerprint
import Retarget.Proofs.Text.Lossy
import Retarget.Proofs.Tree.Regulars

/-!
The bytes that are hashed for a tree can be taken apart again. No key holds a zero byte, so the
first one ends the key, and a digest has a fixed length; a stream is therefore that of one list of
marks.
-/
namespace Retarget

/-! ## Marks in a stream -/

theorem append_zero_inj {first second rest others : Bytes} (closed : 0 ∉ first)
    (alsoClosed : 0 ∉ second) (same : first ++ 0 :: rest = second ++ 0 :: others) :
    first = second ∧ rest = others := by
  induction first generalizing second with
  | nil =>
    cases second with
    | nil => exact ⟨rfl, (List.cons.inj same).2⟩
    | cons byte more => exact absurd (List.cons.inj same).1 fun zero => alsoClosed (by simp [zero])
  | cons byte more ih =>
    cases second with
    | nil => exact absurd (List.cons.inj same).1 fun zero => closed (by simp [zero])
    | cons next further =>
      obtain ⟨rfl, onward⟩ := List.cons.inj same
      obtain ⟨rfl, tails⟩ := ih (fun zero => closed (List.mem_cons_of_mem _ zero))
        (fun zero => alsoClosed (List.mem_cons_of_mem _ zero)) onward
      exact ⟨rfl, tails⟩

/-- A key that its zero byte is the end of. -/
def Mark.Closed (mark : Mark) : Prop := 0 ∉ utf8 mark.key

/-- A closed mark is split off the front of a stream in one way only. -/
theorem Mark.Closed.split {first second : Mark} (closed : first.Closed)
    (alsoClosed : second.Closed) {rest others : Bytes}
    (same : first.bytes ++ rest = second.bytes ++ others) : first = second ∧ rest = others := by
  unfold Mark.bytes at same
  rw [List.append_assoc, List.append_assoc, List.cons_append, List.cons_append] at same
  obtain ⟨keys, onward⟩ := append_zero_inj closed alsoClosed same
  obtain ⟨digests, tails⟩ := List.append_inj onward (by simp only [Digest.length_bytes])
  obtain ⟨key, digest⟩ := first
  obtain ⟨other, another⟩ := second
  obtain rfl : key = other := utf8_injective keys
  obtain rfl : digest = another := Digest.bytes_injective digests
  exact ⟨rfl, tails⟩

theorem Mark.bytes_ne_nil (mark : Mark) : mark.bytes ≠ [] := by simp [Mark.bytes]

/-- A stream is that of one list of closed marks. -/
theorem Mark.stream_injective {marks others : List Mark} (closed : ∀ mark ∈ marks, mark.Closed)
    (alsoClosed : ∀ mark ∈ others, mark.Closed) (same : Mark.stream marks = Mark.stream others) :
    marks = others := by
  induction marks generalizing others with
  | nil =>
    cases others with
    | nil => rfl
    | cons mark rest =>
      exact absurd (List.append_eq_nil_iff.1 same.symm).1 mark.bytes_ne_nil
  | cons mark rest ih =>
    cases others with
    | nil => exact absurd (List.append_eq_nil_iff.1 same).1 mark.bytes_ne_nil
    | cons other more =>
      obtain ⟨rfl, tails⟩ := (closed mark (by simp)).split (alsoClosed other (by simp)) same
      rw [ih (fun mark member => closed mark (List.mem_cons_of_mem _ member))
        (fun mark member => alsoClosed mark (List.mem_cons_of_mem _ member)) tails]

/-! ## Keys -/

/-- The names of a place as text, slashes between. -/
def keyOf (place : Place) : String := String.intercalate "/" (place.map lossyText)

theorem utf8_keyOf (place : Place) :
    utf8 (keyOf place) =
      [Path.slash].intercalate (place.map fun name => utf8 (lossyText name)) := by
  unfold keyOf
  induction place with
  | nil => rfl
  | cons name rest ih =>
    by_cases last : rest = []
    · simp [last]
    · rw [List.map_cons, String.intercalate_cons_of_ne_nil (by simpa using last), List.map_cons,
        List.intercalate_cons_of_ne_nil (by simpa using last), utf8_append, utf8_append, ih]
      rfl

theorem zero_not_mem_keyOf {place : Place} (closed : ∀ name ∈ place, 0 ∉ name) :
    0 ∉ utf8 (keyOf place) := by
  rw [utf8_keyOf]
  refine Path.not_mem_intercalate (by decide) fun text member => ?_
  obtain ⟨name, inside, rfl⟩ := List.mem_map.1 member
  exact fun zero => closed name inside (mem_of_mem_utf8_lossyText zero (by decide))

/-- Of names only, a path has these names as its components. -/
theorem Path.components_place {place : Place} (legal : ∀ name ∈ place, Tree.Legal name) :
    Path.components ⟨[slash].intercalate place⟩ = place.map .name := by
  cases place with
  | nil => rfl
  | cons name rest =>
    have pieces : ([slash].intercalate (name :: rest)).splitOn slash = name :: rest :=
      List.splitOn_intercalate slash (fun piece member => (legal piece member).2.1)
        (List.cons_ne_nil _ _)
    have named : component? name = some (.name name) := (legal name (by simp)).1
    have written : name ≠ [] := (legal name (by simp)).ne_nil
    have notHere : name ≠ dot := by
      rintro rfl
      cases named
    rw [components, parts, pieces]
    simp [written, notHere, Anchor.components,
      components_of_whole fun name member => (legal name member).whole]

/-- Seen from the directory above it, a place has its own key. -/
theorem Path.key_place {place : Place} (legal : ∀ name ∈ place, Tree.Legal name) :
    Path.key ⟨[slash].intercalate place⟩ = keyOf place := by
  rw [Path.key, components_place legal, keyOf, List.map_map]
  rfl

/-! ## The marks of a tree -/

namespace Tree

/-- The mark of a file, its path being the names of its place. -/
def markOf (file : Place × Bytes) : Mark :=
  ⟨Path.key ⟨[Path.slash].intercalate file.1⟩, Blake3.hash file.2⟩

/-- What the regular files below a directory give to its fingerprint. -/
def marks (tree : Tree) : List Mark := tree.regulars.map markOf

/-- The bytes that are hashed for a tree. -/
def stream (tree : Tree) : Bytes := Mark.stream tree.marks

variable {tree other : Tree}

theorem closed_of_mem_marks (wellFormed : tree.WellFormed) {mark : Mark}
    (member : mark ∈ tree.marks) : mark.Closed := by
  obtain ⟨file, regular, rfl⟩ := List.mem_map.1 member
  have legal := wellFormed.legal ((mem_regulars wellFormed).1 regular)
  rw [Mark.Closed, markOf, Path.key_place legal]
  exact zero_not_mem_keyOf fun name inside => (legal name inside).2.2

end Tree

/-! ## Fingerprints -/

namespace FileSystem

variable {files : FileSystem} {directory : Path} {place : Place}

/-- A file on a walk is marked by its place and its contents. -/
theorem Opens.mark_eq (wellFormed : files.root.WellFormed) (opens : files.Opens directory place)
    {inner : Tree} (held : files.root.at? place = some (.branch inner)) {file : Place × Bytes}
    (regular : file ∈ inner.regulars) {mark : Mark}
    (marked : files.mark directory (directory.descend file.1) = .ok mark) :
    mark = Tree.markOf file := by
  have formed : inner.WellFormed := (wellFormed.at? held).2
  have stands := (Tree.mem_regulars formed).1 regular
  rw [← Tree.entry?_append_branch held] at stands
  have legal := fun name inside => wellFormed.legal stands name (List.mem_append_right _ inside)
  have written : directory.bytes ≠ [] := (Path.check_eq_ok_iff.1 opens.accepted).2.1
  obtain ⟨contents, read, given⟩ := bind_eq_ok.1 marked
  have got := mapError_eq_ok.1 read
  rw [opens.read_eq stands legal] at got
  split at got
  · rw [← Except.ok.inj given, ← Except.ok.inj got, Path.relativeTo_descend written legal]
    rfl
  · cases got

/-- Marks that were taken on a walk are those of the files met. -/
theorem marksOn_visits {visits : List (Place × Entry)} {marks : List Mark}
    (marked : files.marksOn directory
      (visits.map fun visit => .ok ⟨directory.descend visit.1, visit.1, visit.2⟩) = .ok marks)
    (alike : ∀ file ∈ visits.filterMap Tree.regular?, ∀ mark,
      files.mark directory (directory.descend file.1) = .ok mark → mark = Tree.markOf file) :
    marks = (visits.filterMap Tree.regular?).map Tree.markOf := by
  induction visits generalizing marks with
  | nil => exact (Except.ok.inj marked).symm
  | cons visit rest ih =>
    obtain ⟨place, entry⟩ := visit
    rw [List.map_cons, marksOn] at marked
    cases met : Tree.regular? (place, entry) with
    | none =>
      have notFile : ∀ contents, entry ≠ .leaf (.file contents) := by
        rintro contents rfl
        cases met
      rw [if_neg (by simp [isFile_iff, notFile])] at marked
      rw [List.filterMap_cons_none met] at alike ⊢
      exact ih marked alike
    | some file =>
      obtain ⟨rfl, rfl⟩ : place = file.1 ∧ entry = .leaf (.file file.2) := by
        simpa using Tree.regular?_eq_some.1 met
      rw [if_pos (isFile_iff.2 ⟨file.2, rfl⟩)] at marked
      obtain ⟨first, given, marked⟩ := bind_eq_ok.1 marked
      obtain ⟨others, more, whole⟩ := bind_eq_ok.1 marked
      rw [List.filterMap_cons_some met] at alike ⊢
      rw [← Except.ok.inj whole, List.map_cons, ← alike file (by simp) first given,
        ← ih more fun later member => alike later (List.mem_cons_of_mem _ member)]

/-- The marks below a directory are those of its tree. -/
theorem Opens.marks_eq (wellFormed : files.root.WellFormed) (opens : files.Opens directory place)
    {inner : Tree} (held : files.root.at? place = some (.branch inner)) {marks : List Mark}
    (marked : files.marks directory = .ok marks) : marks = inner.marks := by
  obtain ⟨top, notFile, walked⟩ := opens.walk_eq held
  rw [FileSystem.marks, walked, marksOn, if_neg (by simp [notFile])] at marked
  obtain ⟨listed, unbroken, _⟩ := marksOn_ok marked
  have whole := unbroken_ok.1 unbroken
  rw [whole, walkFrom_unbroken whole, List.map_map] at marked
  exact marksOn_visits marked fun file regular mark => opens.mark_eq wellFormed held regular

/-- A fingerprint is the hash of the stream of the tree, and counts its regular files. -/
theorem Opens.fingerprint_eq (wellFormed : files.root.WellFormed)
    (opens : files.Opens directory place) {inner : Tree}
    (held : files.root.at? place = some (.branch inner)) {fingerprint : Fingerprint}
    (taken : files.fingerprint directory = .ok fingerprint) :
    fingerprint = ⟨Blake3.hash inner.stream, inner.regulars.length⟩ := by
  cases marked : files.marks directory with
  | error failure => simp [FileSystem.fingerprint, marked, Except.map] at taken
  | ok given =>
    rw [FileSystem.fingerprint, marked, opens.marks_eq wellFormed held marked] at taken
    rw [← Except.ok.inj taken, Fingerprint.ofMarks, Tree.marks, List.length_map]
    rfl

end FileSystem

namespace Tree

variable {tree other : Tree}

/-- The bytes hashed for two trees are the same exactly if their regular files have the same keys
and digests in the order of the walk. There are then as many of them, and nothing but regular files
has a part in it. What a fingerprint is taken of is these bytes. -/
theorem stream_eq_iff_marks_eq (wellFormed : tree.WellFormed) (otherFormed : other.WellFormed) :
    (tree.stream = other.stream ↔ tree.marks = other.marks) ∧
    (tree.stream = other.stream → tree.regulars.length = other.regulars.length) ∧
    ((∀ place contents, tree.entry? place = some (.leaf (.file contents)) ↔
      other.entry? place = some (.leaf (.file contents))) → tree.stream = other.stream) ∧
    ∀ (files : FileSystem) (directory : Path) (place : Place), files.root.WellFormed →
      files.Opens directory place → files.root.at? place = some (.branch tree) →
      ∀ fingerprint, files.fingerprint directory = .ok fingerprint →
        fingerprint = ⟨Blake3.hash tree.stream, tree.regulars.length⟩ := by
  have marked : tree.stream = other.stream ↔ tree.marks = other.marks :=
    ⟨Mark.stream_injective (fun _ => closed_of_mem_marks wellFormed)
      fun _ => closed_of_mem_marks otherFormed, congrArg Mark.stream⟩
  refine ⟨marked, fun same => ?_, fun same => ?_, ?_⟩
  · simpa [marks] using congrArg List.length (marked.1 same)
  · exact marked.2 (congrArg (List.map markOf) (regulars_congr wellFormed otherFormed same))
  · exact fun files directory place rootFormed opens held fingerprint =>
      opens.fingerprint_eq rootFormed held

/-- A directory with one file. -/
def plain : Tree := .leaf (utf8 "a") (.file (utf8 "1")) .empty

/-- The same file with a link before it, something special after it and an empty directory. -/
def dressed : Tree := .leaf (utf8 "l") (.link ⟨utf8 "a"⟩)
  (.branch (utf8 "A") .empty
    (.leaf (utf8 "a") (.file (utf8 "1")) (.leaf (utf8 "s") .special .empty)))

theorem stream_dressed : dressed.stream = plain.stream ∧
    ∃ fingerprint, FileSystem.fingerprint ⟨.branch (utf8 "d") dressed .empty, []⟩ ⟨utf8 "d"⟩ =
      .ok fingerprint ∧ fingerprint = ⟨Blake3.hash plain.stream, 1⟩ := by
  have plainFormed : plain.WellFormed := by
    refine ⟨?_, rfl, trivial⟩
    unfold Tree.Legal
    decide
  have dressedFormed : dressed.WellFormed := by
    refine ⟨?_, rfl, ?_, rfl, trivial, ?_, rfl, ?_, rfl, trivial⟩ <;>
    · unfold Tree.Legal
      decide
  have rootFormed : (Tree.branch (utf8 "d") dressed .empty).WellFormed := by
    refine ⟨?_, rfl, dressedFormed, trivial⟩
    unfold Tree.Legal
    decide
  have walked : dressed.regulars = plain.regulars := by rfl
  have theirs := stream_eq_iff_marks_eq dressedFormed plainFormed
  have same : dressed.stream = plain.stream := theirs.1.2 (congrArg (List.map markOf) walked)
  have opens : FileSystem.Opens ⟨.branch (utf8 "d") dressed .empty, []⟩ ⟨utf8 "d"⟩ [utf8 "d"] := by
    decide +kernel
  have settled : (FileSystem.fingerprint ⟨.branch (utf8 "d") dressed .empty, []⟩
      ⟨utf8 "d"⟩).toOption.isSome = true := by decide +kernel
  cases taken : FileSystem.fingerprint ⟨.branch (utf8 "d") dressed .empty, []⟩ ⟨utf8 "d"⟩ with
  | error failure =>
    rw [taken] at settled
    cases settled
  | ok fingerprint =>
    refine ⟨same, fingerprint, rfl, ?_⟩
    rw [theirs.2.2.2 _ _ _ rootFormed opens rfl fingerprint taken, same, walked]
    rfl

end Tree
end Retarget
