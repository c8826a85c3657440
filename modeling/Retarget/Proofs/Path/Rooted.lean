import Retarget.FileSystem.Forecast
import Retarget.Proofs.Path.Base

/-!
Paths from the root. The path of a place takes the names of the place one by one, and folding it
changes nothing, so one such path starts with another exactly where one place lies in the other.
-/
namespace Retarget.Path

/-- The components of the path of a place. -/
def rooted (place : Place) : List Component := .root :: place.map .name

theorem name_injective : Function.Injective Component.name := fun _ _ same => Component.name.inj same

theorem rooted_inj {place other : Place} (same : rooted place = rooted other) : place = other :=
  List.map_injective_iff.2 name_injective (List.cons.inj same).2

theorem rooted_isPrefixOf {first second : Place} :
    (rooted first).isPrefixOf (rooted second) = true ↔ first <+: second := by
  rw [List.isPrefixOf_iff_prefix, rooted, rooted, List.cons_prefix_cons,
    List.prefix_map_iff_of_injective name_injective]
  exact and_iff_right rfl

theorem isAbsolute_ofPlace (place : Place) :
    (ofPlace place).isAbsolute = true := by simp [isAbsolute, ofPlace]

theorem openSteps_ofPlace {place : Place} (whole : ∀ name ∈ place, Whole name) :
    (ofPlace place).openSteps = place.map .into := by
  have cut := openSteps_slash [] ([slash].intercalate place)
  rw [openSteps_place whole] at cut
  simpa [ofPlace] using cut

theorem components_ofPlace {place : Place} (whole : ∀ name ∈ place, Whole name) :
    (ofPlace place).components = rooted place := by
  have pieces : (ofPlace place).bytes.splitOn slash = [] ::
      ([slash].intercalate place).splitOn slash := by
    simp [ofPlace, List.splitOn_cons_eq_if_modifyHead]
  have some : ([slash].intercalate place).splitOn slash ≠ [] := List.splitOn_ne_nil _ _
  have parts : (ofPlace place).parts =
      ⟨.root, ([slash].intercalate place).splitOn slash⟩ := by simp [parts, pieces, some]
  rw [components, parts, rooted]
  refine congrArg (Component.root :: ·) ?_
  cases place with
  | nil => simp [component?]
  | cons name rest =>
    rw [List.splitOn_intercalate slash (fun other member => (whole other member).2)
      (List.cons_ne_nil _ _)]
    exact components_of_whole whole

/-- The path of a place tells the place. -/
theorem ofPlace_inj {place other : Place} (whole : ∀ name ∈ place, Whole name)
    (also : ∀ name ∈ other, Whole name) (same : ofPlace place = ofPlace other) : place = other := by
  have components := congrArg components same
  rw [components_ofPlace whole, components_ofPlace also] at components
  exact rooted_inj components

/-- Only the path of the top ends with a slash. -/
theorem endsWithSlash_ofPlace (above : Place) {last : Bytes} (whole : Whole last) :
    (ofPlace (above ++ [last])).endsWithSlash = false := by
  have bytes : ∃ front, (ofPlace (above ++ [last])).bytes = front ++ last := by
    by_cases top : above = []
    · exact ⟨[slash], by simp [top, ofPlace]⟩
    · exact ⟨slash :: [slash].intercalate above ++ [slash],
        by simp [ofPlace, intercalate_concat top]⟩
  obtain ⟨front, bytes⟩ := bytes
  have apart : last.getLast? ≠ some slash := fun ends => whole.2 (List.mem_of_getLast? ends)
  simp [endsWithSlash, bytes, List.getLast?_append_of_ne_nil _ whole.ne_nil, apart]

/-- The path of a place joined with a name is the path of what has the name there. -/
theorem joinName_ofPlace {place : Place} {name : Bytes}
    (whole : ∀ other ∈ place ++ [name], Whole other) :
    (ofPlace place).joinName name = ofPlace (place ++ [name]) := by
  have relative : isAbsolute ⟨name⟩ = false := by
    simpa [isAbsolute] using fun first => (whole name (by simp)).2 (List.mem_of_mem_head? first)
  rw [joinName, join_relative _ relative]
  cases List.eq_nil_or_concat' place with
  | inl top => simp [top, ofPlace, seam, endsWithSlash]
  | inr below =>
    obtain ⟨above, last, rfl⟩ := below
    have opened := endsWithSlash_ofPlace above (whole last (by simp))
    have some : above ++ [last] ≠ [] := by simp
    rw [seam, opened, ofPlace, ofPlace, intercalate_concat some]
    simp

/-- Names below a place, joined one by one to its path. -/
theorem descend_ofPlace {place names : Place} (whole : ∀ name ∈ place ++ names, Whole name) :
    (ofPlace place).descend names = ofPlace (place ++ names) := by
  induction names generalizing place with
  | nil => simp
  | cons name rest ih =>
    have regrouped : place ++ name :: rest = place ++ [name] ++ rest := by simp
    rw [regrouped] at whole ⊢
    rw [← ih whole, ← joinName_ofPlace fun other member => whole other (List.mem_append_left _ member)]
    rfl

theorem fold_names (folded : List Component) (place : Place) :
    fold folded (place.map .name) = folded.reverse ++ place.map .name := by
  induction place generalizing folded with
  | nil => simp [fold]
  | cons name rest ih =>
    have next : fold folded (.name name :: rest.map .name) = fold (.name name :: folded)
        (rest.map .name) := by
      cases folded <;> simp [fold]
    rw [List.map_cons, next, ih]
    simp

theorem ofComponents_rooted (place : Place) :
    ofComponents (rooted place) = descend ⟨[slash]⟩ place := by
  have onward : ∀ path : Path,
      (place.map .name).foldl (fun path component => path.join (ofComponent component)) path =
        path.descend place := by
    induction place with
    | nil => exact fun _ => rfl
    | cons name rest ih => exact fun path => ih (path.joinName name)
  exact onward _

/-- Folded, a path that goes down from the root to a place is the path of the place. -/
theorem normalized_eq_ofPlace {path : Path} {place : Place} (whole : ∀ name ∈ place, Whole name)
    (components : path.components = rooted place) : path.normalized = ofPlace place := by
  have folded : fold [] (rooted place) = rooted place := by
    rw [rooted, fold, fold_names]
    · rfl
    all_goals simp
  rw [normalized, components, folded, ofComponents_rooted]
  exact @descend_ofPlace [] place whole

theorem normalized_descend {place names : Place} (whole : ∀ name ∈ place ++ names, Whole name) :
    ((ofPlace place).descend names).normalized = ofPlace (place ++ names) := by
  rw [descend_ofPlace whole, normalized_eq_ofPlace whole (components_ofPlace whole)]

end Retarget.Path
