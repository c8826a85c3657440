import Retarget.Proofs.Path.Parts

/-!
A path below a base. Descending by the names of a place puts these names behind the pieces of the
path, so what is left of it after the base is the names again.
-/
namespace Retarget.Path

theorem splitOn_joinName {path : Path} (written : path.bytes ≠ [])
    (opened : path.endsWithSlash = false) {name : Bytes}
    (legal : Tree.Legal name) :
    (path.joinName name).bytes.splitOn slash = path.bytes.splitOn slash ++ [name] := by
  rw [joinName, join_relative path (isAbsolute_name legal)]
  simp [seam, written, opened, List.splitOn_append_cons_self, List.splitOn_eq_singleton legal.2.1]

theorem splitOn_descend {path : Path} (written : path.bytes ≠ [])
    (opened : path.endsWithSlash = false) {place : Place}
    (legal : ∀ name ∈ place, Tree.Legal name) :
    (path.descend place).bytes.splitOn slash = path.bytes.splitOn slash ++ place := by
  induction place generalizing path with
  | nil => simp
  | cons name rest ih =>
    have nameLegal := legal name (by simp)
    have below := ih (bytes_joinName_ne_nil path nameLegal) (endsWithSlash_joinName path nameLegal)
      fun other member => legal other (by simp [member])
    calc ((path.joinName name).descend rest).bytes.splitOn slash
        = (path.joinName name).bytes.splitOn slash ++ rest := below
      _ = path.bytes.splitOn slash ++ name ::
      rest := by simp [splitOn_joinName written opened nameLegal]

/-- A slash at the end of a path leaves one empty piece, which the first name takes. -/
theorem splitOn_descend_cons {path : Path} (written : path.bytes ≠ []) {name : Bytes} {rest : Place}
    (legal : ∀ other ∈ name :: rest, Tree.Legal other) :
    ∃ pieces, pieces ≠ [] ∧
    (path.descend (name :: rest)).bytes.splitOn slash = pieces ++ name :: rest ∧
      (path.bytes.splitOn slash = pieces ∨ path.bytes.splitOn slash = pieces ++ [[]]) := by
  cases opened : path.endsWithSlash with
  | false => exact ⟨_, List.splitOn_ne_nil _ _, splitOn_descend written opened legal, .inl rfl⟩
  | true =>
    have last : path.bytes.getLast? = some slash := by simpa [endsWithSlash] using opened
    obtain ⟨front, whole⟩ := List.getLast?_eq_some_iff.1 last
    have nameLegal := legal name (by simp)
    have joined : (path.joinName name).bytes.splitOn slash = front.splitOn slash ++ [name] := by
      rw [joinName, join_relative path (isAbsolute_name nameLegal)]
      simp [seam, opened, whole, List.splitOn_append_cons_self,
        List.splitOn_eq_singleton nameLegal.2.1]
    have below := splitOn_descend (bytes_joinName_ne_nil path nameLegal)
      (endsWithSlash_joinName path nameLegal)
      fun other member => legal other (List.mem_cons_of_mem _ member)
    refine ⟨front.splitOn slash, List.splitOn_ne_nil _ _, ?_, .inr ?_⟩
    · calc ((path.joinName name).descend rest).bytes.splitOn slash
          = (path.joinName name).bytes.splitOn slash ++ rest := below
        _ = front.splitOn slash ++ name :: rest := by simp [joined]
    · rw [whole, List.splitOn_append_cons_self]
      simp

/-- The pieces of a path below a base are pieces of the base, up to some that mean nothing, and the
names below it. -/
theorem parts_descend {path : Path} (written : path.bytes ≠ []) {place : Place}
    (legal : ∀ name ∈ place, Tree.Legal name) :
    ∃ front, (path.descend place).parts = ⟨path.parts.anchor, front ++ place⟩ ∧
      front.filterMap component? = path.parts.pieces.filterMap component? := by
  cases place with
  | nil => exact ⟨path.parts.pieces, by simp, rfl⟩
  | cons name rest =>
    obtain ⟨pieces, some, whole, base⟩ := splitOn_descend_cons written legal
    obtain ⟨first, others, rfl⟩ := List.exists_cons_of_ne_nil some
    have bare : path.bytes.splitOn slash ≠ [[]] := fun same => written (by
      have back : [slash].intercalate (path.bytes.splitOn slash) = path.bytes :=
        List.intercalate_splitOn slash
      simpa [same] using back.symm)
    have idle : component? [] = none := by simp [component?]
    by_cases rooted : first = []
    · subst rooted
      refine ⟨others, ?_, ?_⟩
      · rcases base with base | base <;> rw [base] at bare <;> simp_all [parts]
      · rcases base with base | base <;> rw [base] at bare <;> simp_all [parts]
    · by_cases here : first = dot
      · subst here
        refine ⟨[] :: others, ?_, ?_⟩
        · rcases base with base | base <;> simp [parts, whole, base, dot]
        · rcases base with base | base
          · by_cases last : others = [] <;> simp [parts, base, dot, idle, last]
          · simp [parts, base, dot, idle]
      · refine ⟨first :: others, ?_, ?_⟩
        · rcases base with base | base <;> simp [parts, whole, base, rooted, here]
        · rcases base with base | base <;>
            simp [parts, base, rooted, here, idle, List.filterMap_cons]

theorem components_of_whole {place : Place} (whole : ∀ name ∈ place, Whole name) :
    place.filterMap component? = place.map .name := by
  induction place with
  | nil => rfl
  | cons name rest ih =>
    rw [List.filterMap_cons, (whole name (by simp)).1, ih fun other member =>
      whole other (by simp [member])]
    rfl

/-- Only the empty path has no components. -/
theorem components_ne_nil {path : Path} (written : path.bytes ≠ []) : path.components ≠ [] := by
  unfold components parts
  split
  · rename_i none
    exact absurd none (List.splitOn_ne_nil _ _)
  · rename_i first rest pieces
    split
    · simp [Anchor.components]
    · rename_i bare
      split
      · simp [Anchor.components]
      · rename_i notHere
        have some : first ≠ [] := by
          rintro rfl
          have last : rest = [] := by simpa using bare
          have back : [slash].intercalate (path.bytes.splitOn slash) = path.bytes :=
            List.intercalate_splitOn slash
          rw [pieces, last] at back
          exact written (by simpa using back.symm)
        have meant : component? first ≠ none := by
          unfold component?
          rw [if_neg (by simp [some, notHere])]
          split <;> simp
        obtain ⟨component, given⟩ := Option.ne_none_iff_exists'.1 meant
        simp [given]

/-- Only the root has no parent. -/
theorem root_of_parent?_eq_none {path : Path} (written : path.bytes ≠ [])
    (top : path.parent? = none) :
    path.isAbsolute = true ∧ Idle path.openSteps := by
  rcases parent?_cases path with ⟨idle, _⟩ | ⟨parent, _, _, _, given, _⟩
  · refine ⟨(isAbsolute_iff_anchor path).2 ?_, idle⟩
    unfold parent? at top
    simp only at top
    split at top
    · rename_i none
      obtain ⟨dropped, whole, trivial⟩ := trimmed_append path.parts.pieces
      rw [none, List.nil_append] at whole
      have pieces : path.parts.pieces.filterMap component? = [] :=
        List.filterMap_eq_nil_iff.2 (whole ▸ trivial)
      have some := components_ne_nil written
      cases anchor : path.parts.anchor with
      | root => rfl
      | here => simp [anchor] at top
      | none => simp [components, anchor, pieces, Anchor.components] at some
    · cases top
  · rw [given] at top
    cases top

/-- Taking the components of some pieces off the front leaves what follows, behind pieces that mean
nothing. -/
theorem dropComponents_front (front tail : List Bytes) :
    ∃ idle, dropComponents (front.filterMap component?) (front ++ tail) = some (idle ++ tail) ∧
      ∀ piece ∈ idle, component? piece = none := by
  induction front with
  | nil => exact ⟨[], by simp [dropComponents], by simp⟩
  | cons piece rest ih =>
    cases given : component? piece with
    | some component =>
      obtain ⟨idle, dropped, trivial⟩ := ih
      exact ⟨idle, by simpa [dropComponents, given] using dropped, trivial⟩
    | none =>
      rw [List.filterMap_cons, given]
      obtain ⟨idle, dropped, trivial⟩ := ih
      cases rest' : rest.filterMap component? with
      | nil =>
        refine ⟨piece :: rest, by simp [dropComponents], ?_⟩
        simpa [given] using List.filterMap_eq_nil_iff.1 rest'
      | cons component others =>
        rw [rest'] at dropped
        exact ⟨idle, by simpa [dropComponents, given] using dropped, trivial⟩

theorem trimmed_idle_append {idle place : List Bytes}
    (trivial : ∀ piece ∈ idle, component? piece = none)
    (legal : ∀ name ∈ place, Tree.Legal name) :
    ((trimmed (idle ++ place)).dropWhile fun piece => (component? piece).isNone) = place := by
  have skipped : ∀ piece ∈ idle, (component? piece).isNone = true :=
    fun piece member => by simp [trivial piece member]
  cases List.eq_nil_or_concat' place with
  | inl none =>
    subst none
    have all : trimmed (idle ++ []) = [] := List.rdropWhile_eq_nil_iff.2 (by simpa using skipped)
    rw [all]
    rfl
  | inr some =>
    obtain ⟨front, last, rfl⟩ := some
    have lastMeant : component? last ≠ none := by simp [(legal last (by simp)).1]
    rw [← List.append_assoc, trimmed_concat lastMeant, List.append_assoc,
      List.dropWhile_append_of_pos skipped]
    cases front with
    | nil => simp [(legal last (by simp)).1]
    | cons first rest => simp [(legal first (by simp)).1]

/-- Seen from its base, a path below it is the names in between. -/
theorem relativeTo_descend {path : Path} (written : path.bytes ≠ []) {place : Place}
    (legal : ∀ name ∈ place, Tree.Legal name) :
    (path.descend place).relativeTo path = ⟨[slash].intercalate place⟩ := by
  obtain ⟨front, parts, same⟩ := parts_descend written legal
  obtain ⟨idle, dropped, trivial⟩ := dropComponents_front front place
  rw [relativeTo, stripBase?, if_neg (components_ne_nil written), parts, ← same, dropped]
  simp [trimmed_idle_append trivial legal, Parts.path, Anchor.bytes]

/-! ## The same place below another path -/

theorem openSteps_place {place : Place} (whole : ∀ name ∈ place, Whole name) :
    openSteps ⟨[slash].intercalate place⟩ = place.map .into := by
  rw [openSteps_intercalate fun name member => (whole name member).2]
  induction place with
  | nil => rfl
  | cons name rest ih =>
    rw [List.filterMap_cons, (whole name (by simp)).step?, ih fun other member =>
      whole other (by simp [member])]
    rfl

theorem isAbsolute_place {place : Place} (legal : ∀ name ∈ place, Tree.Legal name) :
    isAbsolute ⟨[slash].intercalate place⟩ = false := by
  cases place with
  | nil => simp [isAbsolute]
  | cons name rest =>
    have nameLegal := legal name (by simp)
    obtain ⟨byte, more, rfl⟩ := List.exists_cons_of_ne_nil nameLegal.ne_nil
    have apart : byte ≠ slash := by simpa using nameLegal.head_ne_slash
    cases rest <;> simp [isAbsolute, apart]

/-- The path to the copy of what stands below a base. -/
theorem openSteps_join_place (target : Path) {place : Place}
    (legal : ∀ name ∈ place, Tree.Legal name) :
    (target.join ⟨[slash].intercalate place⟩).openSteps = target.openSteps ++ place.map .into := by
  rw [openSteps_join target (isAbsolute_place legal),
    openSteps_place fun name member => (legal name member).whole]

end Retarget.Path
