import Retarget.Proofs.Path.Base

/-!
A path with another name at its end. What is above the name keeps its components, so seen from a base
the path is the names in between with the other name behind them.
-/
namespace Retarget.Path

/-! ## Pieces put together -/

/-- Where a path is not anchored, its first piece is no dot. -/
theorem head?_parts_ne_dot {path : Path} (relative : path.parts.anchor = .none) :
    path.parts.pieces.head? ≠ some dot := by
  unfold parts at relative ⊢
  generalize path.bytes.splitOn slash = pieces at relative ⊢
  cases pieces with
  | nil => simp
  | cons first rest =>
    dsimp only at relative ⊢
    by_cases rooted : first = [] ∧ rest ≠ []
    · rw [if_pos rooted] at relative
      cases relative
    · rw [if_neg rooted] at relative ⊢
      by_cases here : first = dot
      · rw [if_pos here] at relative
        cases relative
      · rw [if_neg here]
        simpa using here

/-- Pieces that are put together keep their anchor and what they mean. -/
theorem Parts.Sound.parts {parts : Parts} (sound : parts.Sound)
    (named : parts.anchor = .none → parts.pieces.head? ≠ some dot) :
    parts.path.parts.anchor = parts.anchor ∧
      parts.path.parts.pieces.filterMap component? = parts.pieces.filterMap component? := by
  obtain ⟨anchor, pieces⟩ := parts
  have idle : component? [] = none := by simp [component?]
  have cut : ∀ {others : List Bytes}, (∀ piece ∈ others, slash ∉ piece) → others ≠ [] →
      ([slash].intercalate others).splitOn slash = others :=
    fun slashless some => List.splitOn_intercalate slash slashless some
  have behind : ∀ front : Bytes, slash ∉ front → ∀ {others : List Bytes},
      (∀ piece ∈ others, slash ∉ piece) → others ≠ [] →
      (front ++ slash :: [slash].intercalate others).splitOn slash = front :: others := by
    intro front free others slashless some
    rw [List.splitOn_append_cons_self, cut slashless some, List.splitOn_eq_singleton free]
    rfl
  cases anchor with
  | none =>
    cases pieces with
    | nil => simp [Parts.path, Anchor.bytes, Path.parts, dot, idle]
    | cons first rest =>
      have opening : first ≠ dot := by simpa using named rfl
      have bare : ¬(first = [] ∧ rest ≠ []) := by
        rintro ⟨rfl, more⟩
        exact more (sound.relative rfl rest rfl)
      simp [Parts.path, Anchor.bytes, Path.parts, cut sound.slashless (List.cons_ne_nil _ _), bare,
        opening]
  | root =>
    cases pieces with
    | nil => simp [Parts.path, Anchor.bytes, Path.parts, idle, List.splitOn_cons_eq_if_modifyHead]
    | cons first rest =>
      have pieces := behind [] (by simp) sound.slashless (List.cons_ne_nil first rest)
      rw [List.nil_append] at pieces
      simp [Parts.path, Anchor.bytes, Path.parts, pieces]
  | here =>
    cases pieces with
    | nil => simp [Parts.path, Anchor.bytes, Path.parts, dot, slash, List.splitOn_cons_eq_if_modifyHead]
    | cons first rest =>
      obtain rfl : first = [] := sound.opened rfl first (by simp)
      cases rest with
      | nil =>
        simp [Parts.path, Anchor.bytes, Path.parts, dot, slash, idle,
          List.splitOn_cons_eq_if_modifyHead]
      | cons second others =>
        have pieces := behind dot (by decide)
          (fun piece member => sound.slashless piece (List.mem_cons_of_mem _ member))
          (List.cons_ne_nil second others)
        have whole : Parts.path ⟨.here, [] :: second :: others⟩ =
            ⟨dot ++ slash :: [slash].intercalate (second :: others)⟩ := by
          simp [Parts.path, Anchor.bytes]
        simp [whole, Path.parts, pieces, show dot ≠ [] by decide]

/-! ## Another name at the end -/

/-- What a path is seen from a base depends on the anchor of the base and on what its pieces mean. -/
theorem relativeTo_congr {base other : Path} (anchor : base.parts.anchor = other.parts.anchor)
    (pieces : base.parts.pieces.filterMap component? = other.parts.pieces.filterMap component?)
    (path : Path) : path.relativeTo base = path.relativeTo other := by
  have stripped : path.stripBase? base = path.stripBase? other := by
    simp only [stripBase?, components, anchor, pieces]
    rfl
  rw [relativeTo, stripped, relativeTo]

/-- With another name at its end, a path has that name behind a path that means the same as what was
above. -/
theorem withFileName_joinName_parts {path : Path} (written : path.bytes ≠ []) {name : Bytes}
    (legal : Tree.Legal name) (other : Bytes) :
    ∃ parent : Path, (path.joinName name).withFileName other = parent.joinName other ∧
      parent.bytes ≠ [] ∧ parent.parts.anchor = path.parts.anchor ∧
      parent.parts.pieces.filterMap component? = path.parts.pieces.filterMap component? := by
  have below : ∀ first ∈ [name], Tree.Legal first := by simpa using legal
  obtain ⟨front, parts, same⟩ := parts_descend written below
  have joined : path.descend [name] = path.joinName name := rfl
  rw [joined] at parts
  have meant : component? name ≠ none := by simp [legal.1]
  have last := @trimmed_concat front name meant
  obtain ⟨dropped, whole, trivial⟩ := trimmed_append front
  have before : trimmed front <+: front ++ [name] :=
    ⟨dropped ++ [name], by rw [← List.append_assoc, ← whole]⟩
  have sound := Parts.Sound.of_prefix (parts ▸ (path.joinName name).parts_sound) before
  obtain ⟨anchor, pieces⟩ := sound.parts fun relative dotted => by
    have none := @head?_parts_ne_dot (path.joinName name) (by rw [parts]; exact relative)
    rw [parts] at none
    obtain ⟨rest, opening⟩ : ∃ rest, trimmed front = dot :: rest := List.head?_eq_some_iff.1 dotted
    obtain ⟨more, longer⟩ := before
    exact none (by rw [← longer, opening]; rfl)
  have meaning : (trimmed front).filterMap component? = path.parts.pieces.filterMap component? := by
    rw [← same]
    conv_rhs => rw [whole, List.filterMap_append, List.filterMap_eq_nil_iff.2 trivial]
    rw [List.append_nil]
  have named : (path.joinName name).fileName? = some name := by
    have notUp : name ≠ dots := by
      rintro rfl
      have up := legal.1
      simp [component?, dots, dot] at up
    simp [fileName?, parts, last, notUp]
  have parent : (path.joinName name).parent? = some (Parts.path ⟨path.parts.anchor, trimmed front⟩) := by
    simp [parent?, parts, last]
  refine ⟨Parts.path ⟨path.parts.anchor, trimmed front⟩, by simp [withFileName, named, parent],
    fun none => components_ne_nil written ?_, anchor, pieces.trans meaning⟩
  have empty : Parts.path ⟨path.parts.anchor, trimmed front⟩ = ⟨[]⟩ := congrArg Path.mk none
  rw [components, ← anchor, ← meaning, ← pieces, empty]
  rfl

/-- Above a name behind another name is just the path with the other name at its end. -/
theorem withFileName_descend {path : Path} (written : path.bytes ≠ []) {above : Place}
    {last name : Bytes} (legal : ∀ first ∈ above ++ [last] ++ [name], Tree.Legal first)
    (other : Bytes) :
    (path.descend (above ++ [last] ++ [name])).withFileName other =
      (path.descend (above ++ [last])).joinName other := by
  have lastLegal : Tree.Legal last := legal last (by simp)
  have nameLegal : Tree.Legal name := legal name (by simp)
  obtain ⟨front, parts, _⟩ := parts_descend written legal
  have whole : front ++ (above ++ [last] ++ [name]) = front ++ above ++ [last] ++ [name] := by simp
  rw [whole] at parts
  have meant : ∀ {piece : Bytes}, Tree.Legal piece → component? piece ≠ none := by
    intro piece fine
    simp [fine.1]
  have notUp : name ≠ dots := by
    rintro rfl
    have up := nameLegal.1
    simp [component?, dots, dot] at up
  have named : (path.descend (above ++ [last] ++ [name])).fileName? = some name := by
    simp only [fileName?, parts, trimmed_concat (meant nameLegal), List.getLast?_concat,
      if_neg notUp]
  have parent : (path.descend (above ++ [last] ++ [name])).parent? =
      some (Parts.path ⟨path.parts.anchor, front ++ above ++ [last]⟩) := by
    simp only [parent?, parts, trimmed_concat (meant nameLegal), List.dropLast_concat,
      trimmed_concat (meant lastLegal)]
    simp
  have upper : Parts.path ⟨path.parts.anchor, front ++ above ++ [last]⟩ =
      path.descend (above ++ [last]) := by
    have back := parts_path (path.descend (above ++ [last] ++ [name]))
    have some := bytes_joinName_ne_nil (path.descend above) lastLegal
    have opened := endsWithSlash_joinName (path.descend above) lastLegal
    rw [← descend_concat] at some opened
    rw [parts, descend_concat, joinName, join_relative _ (isAbsolute_name nameLegal)] at back
    rw [Parts.path, intercalate_concat (List.concat_ne_nil last (front ++ above)), seam,
      if_neg (by simp [some, opened]), ← List.append_assoc, List.append_assoc _ [slash]] at back
    have same := List.append_cancel_right (congrArg Path.bytes back)
    exact congrArg Path.mk same
  simp only [withFileName, named, parent, Option.getD_some, upper]

/-- Seen from its base, a path with another name at its end is the names in between with the other
name behind them. -/
theorem relativeTo_withFileName {path : Path} (written : path.bytes ≠ []) {above : Place}
    {name other : Bytes} (legal : ∀ first ∈ above ++ [name], Tree.Legal first)
    (otherLegal : Tree.Legal other) :
    ((path.descend (above ++ [name])).withFileName other).relativeTo path =
      ⟨[slash].intercalate (above ++ [other])⟩ := by
  have named : Tree.Legal name := legal name (by simp)
  have upper : ∀ first ∈ above, Tree.Legal first := fun first member =>
    legal first (List.mem_append_left _ member)
  have below : ∀ first ∈ above ++ [other], Tree.Legal first := by
    simpa [or_imp, forall_and] using ⟨upper, otherLegal⟩
  rw [descend_concat]
  cases List.eq_nil_or_concat' above with
  | inl none =>
    subst none
    obtain ⟨parent, same, some, anchor, pieces⟩ := withFileName_joinName_parts written named other
    rw [descend_nil, same, relativeTo_congr anchor.symm pieces.symm]
    exact relativeTo_descend some below
  | inr more =>
    obtain ⟨front, last, rfl⟩ := more
    rw [← descend_concat, withFileName_descend written legal, ← descend_concat]
    exact relativeTo_descend written below

end Retarget.Path
