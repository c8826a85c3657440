import Mathlib.Data.List.Basic
import Mathlib.Data.List.Induction
import Mathlib.Tactic.Common
import Retarget.FileSystem.Walk

/-!
The steps of a path that was put together. Joining paths joins their steps, and descending by the
names of a place adds one step into each name; a slash between is never a step.
-/
namespace Retarget

/-- A name that is one whole component of a path, whether or not a directory can hold it. -/
def Path.Whole (name : Bytes) : Prop :=
  Path.component? name = some (.name name) ∧ Path.slash ∉ name

theorem Path.Whole.ne_nil {name : Bytes} (whole : Path.Whole name) : name ≠ [] := by
  rintro rfl
  simp [Path.Whole, Path.component?] at whole

theorem Path.Whole.step? {name : Bytes} (whole : Path.Whole name) :
    Path.step? name = some (.into name) := by
  have component := whole.1
  unfold Path.component? at component
  unfold Path.step?
  split at component
  · cases component
  · split at component
    · cases component
    · simp_all

namespace Tree.Legal

variable {name : Bytes}

theorem whole (legal : Tree.Legal name) : Path.Whole name := ⟨legal.1, legal.2.1⟩

theorem ne_nil (legal : Tree.Legal name) : name ≠ [] := legal.whole.ne_nil

theorem step? (legal : Tree.Legal name) : Path.step? name = some (.into name) := legal.whole.step?

theorem head_ne_slash (legal : Tree.Legal name) : name.head? ≠ some Path.slash := fun first =>
  legal.2.1 (List.mem_of_mem_head? first)

theorem last_ne_slash (legal : Tree.Legal name) : name.getLast? ≠ some Path.slash := fun last =>
  legal.2.1 (List.mem_of_getLast? last)

end Tree.Legal

namespace Path

/-! ## Joining -/

/-- What a join puts between its two parts. -/
def seam (path : Path) :
    Bytes := if path.bytes = [] ∨ path.endsWithSlash = true then [] else [slash]

theorem join_relative (path : Path) {other : Path} (relative : other.isAbsolute = false) :
    path.join other = ⟨path.bytes ++ path.seam ++ other.bytes⟩ := by
  unfold join seam endsWithSlash
  by_cases bare : path.bytes = [] ∨ path.bytes.getLast? = some slash <;> simp [relative, bare]

@[simp] theorem openSteps_empty : openSteps ⟨[]⟩ = [] := by simp [openSteps, step?]

/-- A slash cuts the steps of a path in two. -/
theorem openSteps_slash (first second : Bytes) :
    openSteps ⟨first ++ slash :: second⟩ = openSteps ⟨first⟩ ++ openSteps ⟨second⟩ := by
  simp only [openSteps, List.splitOn_append_cons_self, List.filterMap_append]

theorem openSteps_append_slash (first : Bytes) :
    openSteps ⟨first ++ [slash]⟩ = openSteps ⟨first⟩ := by
  simpa using openSteps_slash first []

theorem openSteps_join (path : Path) {other : Path} (relative : other.isAbsolute = false) :
    (path.join other).openSteps = path.openSteps ++ other.openSteps := by
  rw [join_relative path relative]
  unfold seam
  split
  · rename_i bare
    rcases bare with empty | closed
    · have same : path = ⟨[]⟩ := by cases path; simpa using empty
      simp [same]
    · have last : path.bytes.getLast? = some slash := by simpa [endsWithSlash] using closed
      obtain ⟨front, whole⟩ := List.getLast?_eq_some_iff.1 last
      have same : path = ⟨front ++ [slash]⟩ := by cases path; simpa using whole
      rw [same, openSteps_append_slash]
      simpa using openSteps_slash front other.bytes
  · simpa using openSteps_slash path.bytes other.bytes

theorem isAbsolute_join (path : Path) {other : Path} (relative : other.isAbsolute = false) :
    (path.join other).isAbsolute = path.isAbsolute := by
  rw [join_relative path relative]
  unfold isAbsolute at relative ⊢
  cases bytes : path.bytes with
  | nil => simpa [seam, bytes] using relative
  | cons first rest => simp

theorem endsWithSlash_join {path other : Path} (relative : other.isAbsolute = false)
    (more : other.bytes ≠ []) :
    (path.join other).endsWithSlash = other.endsWithSlash := by
  rw [join_relative path relative, endsWithSlash, endsWithSlash,
    List.getLast?_append_of_ne_nil _ more]

theorem bytes_join_ne_nil (path : Path) {other : Path} (more : other.bytes ≠ []) :
    (path.join other).bytes ≠ [] := by
  unfold join
  split
  · exact more
  · split <;> simp [more]

/-! ## One name further -/

variable {name : Bytes}

theorem isAbsolute_name (legal : Tree.Legal name) : isAbsolute ⟨name⟩ = false := by
  simp [isAbsolute, legal.head_ne_slash]

theorem endsWithSlash_name (legal : Tree.Legal name) : endsWithSlash ⟨name⟩ = false := by
  simp [endsWithSlash, legal.last_ne_slash]

theorem openSteps_piece {piece : Bytes} (slashless : slash ∉ piece) :
    openSteps ⟨piece⟩ = (step? piece).toList := by
  rw [openSteps, List.splitOn_eq_singleton slashless]
  cases given : step? piece <;> simp [given]

theorem step?_of_ne_nil {piece : Bytes} (some : piece ≠ []) :
    ∃ step, step? piece = .some step ∧ ∀ name, step = .into name → name = piece := by
  unfold step?
  rw [if_neg some]
  split
  · exact ⟨.stay, rfl, by simp⟩
  · split
    · exact ⟨.up, rfl, by simp⟩
    · exact ⟨.into piece, rfl, by simp⟩

theorem openSteps_name (legal : Tree.Legal name) : openSteps ⟨name⟩ = [.into name] := by
  rw [openSteps_piece legal.2.1, legal.step?]
  rfl

theorem openSteps_joinName (path : Path) (legal : Tree.Legal name) :
    (path.joinName name).openSteps = path.openSteps ++ [.into name] := by
  rw [joinName, openSteps_join path (isAbsolute_name legal), openSteps_name legal]

theorem endsWithSlash_joinName (path : Path) (legal : Tree.Legal name) :
    (path.joinName name).endsWithSlash = false := by
  rw [joinName, endsWithSlash_join (isAbsolute_name legal) legal.ne_nil, endsWithSlash_name legal]

theorem isAbsolute_joinName (path : Path) (legal : Tree.Legal name) :
    (path.joinName name).isAbsolute = path.isAbsolute :=
  isAbsolute_join path (isAbsolute_name legal)

theorem bytes_joinName_ne_nil (path : Path) (legal : Tree.Legal name) :
    (path.joinName name).bytes ≠ [] :=
  bytes_join_ne_nil path legal.ne_nil

/-! ## Down to a place -/

@[simp] theorem descend_nil (path : Path) : path.descend [] = path := rfl

theorem descend_concat (path : Path) (place : Place) (name : Bytes) :
    path.descend (place ++ [name]) = (path.descend place).joinName name := by
  simp [descend]

theorem openSteps_descend (path : Path) {place : Place} (legal : ∀ name ∈ place, Tree.Legal name) :
    (path.descend place).openSteps = path.openSteps ++ place.map .into := by
  induction place using List.reverseRecOn with
  | nil => simp
  | append_singleton above name ih =>
    rw [descend_concat, openSteps_joinName _ (legal name (by simp)), ih fun other member =>
      legal other (by simp [member])]
    simp

theorem isAbsolute_descend (path : Path) {place : Place} (legal : ∀ name ∈ place, Tree.Legal name) :
    (path.descend place).isAbsolute = path.isAbsolute := by
  induction place using List.reverseRecOn with
  | nil => rfl
  | append_singleton above name ih =>
    rw [descend_concat, isAbsolute_joinName _ (legal name (by simp)), ih fun other member =>
      legal other (by simp [member])]

theorem start_descend (path : Path) {place : Place} (legal : ∀ name ∈ place, Tree.Legal name)
    (cwd : Place) :
    (path.descend place).start cwd = path.start cwd := by
  simp only [start, isAbsolute_descend path legal]

end Path
end Retarget
