import Mathlib.Data.List.DropRight
import Retarget.Proofs.Path.Steps

/-!
Taking a path apart by its pieces. The parent of a path takes the steps of the path but the last, up
to steps that stay; a path below a base, seen from the base, is the names in between.
-/
namespace Retarget.Path

def Anchor.steps : Anchor → List Step
  | none => []
  | root => []
  | here => [.stay]

/-- Pieces as they come from a path: what they hold is read back when they are put together. -/
structure Parts.Sound (parts : Parts) : Prop where
  slashless : ∀ piece ∈ parts.pieces, slash ∉ piece
  opened : parts.anchor = .here → ∀ piece ∈ parts.pieces.head?, piece = []
  relative : parts.anchor = .none → ∀ rest, parts.pieces = [] :: rest → rest = []

theorem slash_not_mem_of_mem_splitOn {bytes piece : Bytes} (inside : piece ∈ bytes.splitOn slash) :
    slash ∉ piece := by
  induction bytes generalizing piece with
  | nil =>
    have same : piece = [] := by simpa using inside
    simp [same]
  | cons byte rest ih =>
    rw [List.splitOn_cons_eq_if_modifyHead] at inside
    split at inside
    · rcases List.mem_cons.1 inside with rfl | later
      · simp
      · exact ih later
    · rename_i other
      have apart : slash ≠ byte := fun same => other (by simp [same])
      cases pieces : rest.splitOn slash with
      | nil => exact absurd pieces (List.splitOn_ne_nil _ _)
      | cons first others =>
        rw [pieces] at inside ih
        simp only [List.modifyHead_cons, List.mem_cons] at inside
        rcases inside with rfl | later
        · simp [apart, ih]
        · exact ih (by simp [later])

theorem mem_of_mem_splitOn {bytes piece : Bytes} (inside : piece ∈ bytes.splitOn slash)
    {byte : UInt8} (member : byte ∈ piece) :
    byte ∈ bytes := by
  induction bytes generalizing piece with
  | nil =>
    have same : piece = [] := by simpa using inside
    simp [same] at member
  | cons first rest ih =>
    rw [List.splitOn_cons_eq_if_modifyHead] at inside
    split at inside
    · rcases List.mem_cons.1 inside with rfl | later
      · cases member
      · exact List.mem_cons_of_mem _ (ih later member)
    · cases pieces : rest.splitOn slash with
      | nil => exact absurd pieces (List.splitOn_ne_nil _ _)
      | cons head others =>
        rw [pieces] at inside ih
        simp only [List.modifyHead_cons, List.mem_cons] at inside
        rcases inside with rfl | later
        · rcases List.mem_cons.1 member with rfl | further
          · exact List.mem_cons_self
          · exact List.mem_cons_of_mem _ (ih List.mem_cons_self further)
        · exact List.mem_cons_of_mem _ (ih (List.mem_cons_of_mem _ later) member)

/-- A name that a path steps into is one of its pieces. -/
theorem piece_of_mem_openSteps {path : Path} {name : Bytes}
    (member : .into name ∈ path.openSteps) :
    name ∈ path.bytes.splitOn slash ∧ component? name = some (.name name) := by
  obtain ⟨piece, inside, given⟩ := List.mem_filterMap.1 member
  obtain ⟨some, notHere, notUp, rfl⟩ : piece ≠ [] ∧ piece ≠ dot ∧ piece ≠ dots ∧ piece = name := by
    unfold step? at given
    split at given
    · cases given
    · split at given
      · cases given
      · split at given
        · cases given
        · rename_i some notHere notUp
          exact ⟨some, notHere, notUp, by simpa using given⟩
  refine ⟨inside, ?_⟩
  rw [component?, if_neg (by simp [some, notHere]), if_neg notUp]

theorem whole_of_mem_openSteps {path : Path} {name : Bytes}
    (member : .into name ∈ path.openSteps) : Whole name := by
  obtain ⟨inside, meant⟩ := piece_of_mem_openSteps member
  exact ⟨meant, slash_not_mem_of_mem_splitOn inside⟩

/-- A name that a path steps into can be held by a directory. -/
theorem legal_of_mem_openSteps {path : Path} (accepted : 0 ∉ path.bytes) {name : Bytes}
    (member : .into name ∈ path.openSteps) :
    Tree.Legal name := by
  obtain ⟨inside, meant⟩ := piece_of_mem_openSteps member
  exact ⟨meant, slash_not_mem_of_mem_splitOn inside, fun zero =>
    accepted (mem_of_mem_splitOn inside zero)⟩

theorem not_mem_intercalate {byte : UInt8} (other : byte ≠ slash) {place : Place}
    (outside : ∀ name ∈ place, byte ∉ name) :
    byte ∉ [slash].intercalate place := by
  induction place with
  | nil => simp
  | cons name rest ih =>
    have later := ih fun other member => outside other (by simp [member])
    by_cases last : rest = []
    · simpa [last] using outside name
    · rw [List.intercalate_cons_of_ne_nil last]
      simp [outside name, other, later]

theorem parts_sound (path : Path) : path.parts.Sound := by
  have pure : ∀ piece ∈ path.bytes.splitOn slash, slash ∉ piece :=
    fun _ => slash_not_mem_of_mem_splitOn
  unfold parts
  split
  · exact ⟨by simp, by simp, by simp⟩
  · rename_i first rest pieces
    rw [pieces] at pure
    have later : ∀ piece ∈ rest, slash ∉ piece := fun piece member => pure piece (by simp [member])
    split
    · exact ⟨later, by simp, by simp⟩
    · rename_i bare
      split
      · refine ⟨?_, ?_, by simp⟩
        · by_cases last : rest = []
          · simp [last]
          · simpa [last] using later
        · by_cases last : rest = [] <;> simp [last]
      · refine ⟨pure, by simp, ?_⟩
        intro _ others same
        obtain ⟨rfl, rfl⟩ := List.cons.inj same
        simpa using bare

/-! ## Reading back -/

theorem openSteps_intercalate {pieces : List Bytes} (slashless : ∀ piece ∈ pieces, slash ∉ piece) :
    openSteps ⟨[slash].intercalate pieces⟩ = pieces.filterMap step? := by
  cases pieces with
  | nil => simp [openSteps, step?]
  | cons first rest =>
    simp only [openSteps, List.splitOn_intercalate slash slashless (List.cons_ne_nil _ _)]

@[simp] theorem openSteps_dot : openSteps ⟨dot⟩ = [.stay] := by
  simp [openSteps, dot, slash, step?, List.splitOn_cons_eq_if_modifyHead]

theorem Parts.Sound.openSteps {parts : Parts} (sound : parts.Sound) :
    parts.path.openSteps = parts.anchor.steps ++ parts.pieces.filterMap step? := by
  obtain ⟨anchor, pieces⟩ := parts
  cases anchor with
  | none =>
    simpa [Parts.path, Anchor.bytes, Anchor.steps] using openSteps_intercalate sound.slashless
  | root =>
    have cut := openSteps_slash [] ([slash].intercalate pieces)
    rw [openSteps_intercalate sound.slashless] at cut
    simpa [Parts.path, Anchor.bytes, Anchor.steps] using cut
  | here =>
    cases pieces with
    | nil => simp [Parts.path, Anchor.bytes, Anchor.steps]
    | cons first rest =>
      have empty : first = [] := sound.opened rfl first (by simp)
      subst empty
      cases rest with
      | nil => simp [Parts.path, Anchor.bytes, Anchor.steps, step?]
      | cons second others =>
        have later : ∀ piece ∈ second :: others, slash ∉ piece := fun piece member =>
          sound.slashless piece (List.mem_cons_of_mem _ member)
        have cut := openSteps_slash dot ([slash].intercalate (second :: others))
        rw [openSteps_intercalate later] at cut
        have whole : Parts.path ⟨.here, [] :: second :: others⟩ =
            ⟨dot ++ slash :: [slash].intercalate (second :: others)⟩ := by
          simp [Parts.path, Anchor.bytes]
        rw [whole, cut]
        simp [Anchor.steps, step?]

theorem Parts.Sound.isAbsolute {parts : Parts} (sound : parts.Sound) :
    parts.path.isAbsolute = true ↔ parts.anchor = .root := by
  obtain ⟨anchor, pieces⟩ := parts
  cases anchor with
  | root => simp [Parts.path, Anchor.bytes, Path.isAbsolute]
  | here => simp [Parts.path, Anchor.bytes, Path.isAbsolute, dot, slash]
  | none =>
    cases pieces with
    | nil => simp [Parts.path, Anchor.bytes, Path.isAbsolute]
    | cons first rest =>
      cases first with
      | nil =>
        have last := sound.relative rfl rest rfl
        simp [Parts.path, Anchor.bytes, Path.isAbsolute, last]
      | cons byte more =>
        have apart : byte ≠ slash :=
          fun same => sound.slashless (byte :: more) (by simp) (by simp [same])
        cases rest <;> simp [Parts.path, Anchor.bytes, Path.isAbsolute, apart]

/-- The pieces of a path give the path back, byte for byte. -/
theorem parts_path (path : Path) : path.parts.path = path := by
  have whole : [slash].intercalate (path.bytes.splitOn slash) = path.bytes :=
    List.intercalate_splitOn slash
  obtain ⟨bytes⟩ := path
  simp only at whole
  unfold parts
  split
  · rename_i pieces
    exact absurd pieces (List.splitOn_ne_nil _ _)
  · rename_i first rest pieces
    simp only at pieces
    rw [pieces] at whole
    split
    · rename_i rooted
      obtain ⟨rfl, more⟩ := rooted
      cases rest with
      | nil => exact absurd rfl more
      | cons second others => simpa [Parts.path, Anchor.bytes] using whole
    · split
      · rename_i here
        subst here
        cases rest with
        | nil => simpa [Parts.path, Anchor.bytes] using whole
        | cons second others => simpa [Parts.path, Anchor.bytes] using whole
      · simpa [Parts.path, Anchor.bytes] using whole

theorem openSteps_eq_parts (path : Path) :
    path.openSteps = path.parts.anchor.steps ++ path.parts.pieces.filterMap step? := by
  conv_lhs => rw [← parts_path path]
  exact path.parts_sound.openSteps

/-- A step leads up where a component does. -/
theorem up_mem_openSteps_iff (path : Path) :
    Step.up ∈ path.openSteps ↔ Component.up ∈ path.components := by
  have pieces : ∀ piece, step? piece = some .up ↔ component? piece = some .up := by
    intro piece
    unfold step? component?
    by_cases empty : piece = []
    · simp [empty]
    · by_cases here : piece = dot <;> by_cases above : piece = dots <;> simp [empty, here, above]
  have anchored : Step.up ∉ path.parts.anchor.steps ∧ Component.up ∉ path.parts.anchor.components := by
    cases path.parts.anchor <;> simp [Anchor.steps, Anchor.components]
  rw [openSteps_eq_parts, components, List.mem_append, List.mem_append,
    or_iff_right anchored.1, or_iff_right anchored.2]
  simp only [List.mem_filterMap, pieces]

theorem isAbsolute_iff_anchor (path : Path) :
    path.isAbsolute = true ↔ path.parts.anchor = .root := by
  conv_lhs => rw [← parts_path path]
  exact path.parts_sound.isAbsolute

/-! ## Trimming -/

/-- A piece that means nothing: it gives no component, and at most a step that stays. -/
theorem step?_of_component?_eq_none {piece : Bytes} (idle : component? piece = none) :
    step? piece = none ∨ step? piece = some .stay := by
  unfold component? at idle
  unfold step?
  split at idle
  · rename_i trivial
    rcases trivial with rfl | rfl
    · simp
    · simp [dot]
  · split at idle <;> cases idle

theorem step?_of_component?_ne_none {piece : Bytes} (meant : component? piece ≠ none) :
    ∃ step, step? piece = some step ∧ step ≠ .stay := by
  unfold component? at meant
  unfold step?
  by_cases empty : piece = []
  · simp [empty] at meant
  · by_cases here : piece = dot
    · simp [here] at meant
    · rw [if_neg empty, if_neg here]
      split <;> simp

theorem filterMap_step?_idle {pieces : List Bytes}
    (idle : ∀ piece ∈ pieces, component? piece = none) :
    ∀ step ∈ pieces.filterMap step?, step = .stay := by
  intro step member
  obtain ⟨piece, inside, given⟩ := List.mem_filterMap.1 member
  rcases step?_of_component?_eq_none (idle piece inside) with none | stay
  · rw [none] at given
    cases given
  · rw [stay] at given
    exact (Option.some.inj given).symm

/-- Trimming takes pieces off the end that mean nothing. -/
theorem trimmed_append (pieces : List Bytes) :
    ∃ dropped, pieces = trimmed pieces ++ dropped ∧ ∀ piece ∈ dropped, component? piece = none := by
  refine ⟨pieces.rtakeWhile fun piece => (component? piece).isNone, ?_, ?_⟩
  · exact List.rdropWhile_append_rtakeWhile.symm
  · intro piece member
    simpa using List.mem_rtakeWhile_imp member

theorem trimmed_concat {pieces : List Bytes} {last : Bytes} (meant : component? last ≠ none) :
    trimmed (pieces ++ [last]) = pieces ++ [last] := by
  have keeps : (component? last).isNone = false := by simpa using Option.isSome_iff_ne_none.2 meant
  simp [trimmed, keeps]

theorem component?_getLast_trimmed {pieces : List Bytes} {last : Bytes}
    (given : (trimmed pieces).getLast? = some last) :
    component? last ≠ none := by
  intro idle
  have first : (pieces.reverse.dropWhile fun piece =>
      (component? piece).isNone).head? = some last := by
    simpa [trimmed] using given
  have stopped := List.head?_dropWhile_not (fun piece => (component? piece).isNone) pieces.reverse
  rw [first] at stopped
  simp [idle] at stopped

/-! ## Parent and last step -/

/-- Steps that only ask for a directory where they start. -/
def Idle (steps : List Step) : Prop := ∀ step ∈ steps, step = .stay

theorem Idle.eq_nil_of_concat {steps front idle : List Step} {name : Bytes} (last : Idle idle)
    (whole : steps ++ [.into name] = front ++ idle) : idle = [] := by
  cases List.eq_nil_or_concat' idle with
  | inl none => exact none
  | inr some =>
    obtain ⟨before, step, rfl⟩ := some
    have stays := last step (by simp)
    rw [← List.append_assoc] at whole
    have same := (List.append_inj' whole rfl).2
    rw [stays] at same
    cases same

theorem Parts.Sound.of_prefix {anchor : Anchor} {pieces front : List Bytes}
    (sound : Parts.Sound ⟨anchor, pieces⟩)
    (before : front <+: pieces) : Parts.Sound ⟨anchor, front⟩ := by
  obtain ⟨more, rfl⟩ := before
  refine ⟨fun piece member => sound.slashless piece (by simp [member]), ?_, ?_⟩
  · intro here piece first
    refine sound.opened here piece ?_
    cases front with
    | nil => cases first
    | cons other rest => simpa using first
  · rintro relative rest rfl
    have last := sound.relative relative (rest ++ more) rfl
    exact (List.append_eq_nil_iff.1 last).1

/-- The file name is what the last piece that means anything steps into. -/
theorem fileName?_iff {path : Path} {front : List Bytes} {last name : Bytes} {step : Step}
    (pieces : trimmed path.parts.pieces = front ++ [last]) (meant : component? last ≠ none)
    (stepped : step? last = some step) : path.fileName? = some name ↔ step = .into name := by
  simp only [fileName?, pieces, List.getLast?_concat]
  unfold step? at stepped
  unfold component? at meant
  by_cases up : last = dots
  · simp only [up, if_true]
    have : step = .up := by simpa [up, dots, dot] using stepped.symm
    simp [this]
  · have trivial : ¬(last = [] ∨ last = dot) := fun trivial => meant (if_pos trivial)
    rw [not_or] at trivial
    rw [if_neg trivial.1, if_neg trivial.2, if_neg up] at stepped
    rw [← Option.some.inj stepped]
    simp [up]

/-- What `parent?` and `fileName?` give, said of steps: either no step leads anywhere, or the parent
takes all steps but the last that leads on. -/
theorem parent?_cases (path : Path) :
    (Idle path.openSteps ∧ path.fileName? = none ∧ ∀ parent, path.parent? = some parent →
      parent = ⟨[]⟩ ∧ path.isAbsolute = false) ∨
    ∃ parent last before after, path.parent? = some parent ∧ parent.isAbsolute = path.isAbsolute ∧
      path.openSteps = parent.openSteps ++ (before ++ last :: after) ∧ Idle before ∧
      Idle after ∧ last ≠ .stay ∧
      ∀ name, path.fileName? = some name ↔ last = .into name := by
  obtain ⟨dropped, whole, idle⟩ := trimmed_append path.parts.pieces
  have taken := openSteps_eq_parts path
  have sound := path.parts_sound
  cases List.eq_nil_or_concat' (trimmed path.parts.pieces) with
  | inl none =>
    left
    rw [none, List.nil_append] at whole
    refine ⟨?_, by simp [fileName?, none], ?_⟩
    · intro step member
      rw [taken] at member
      rcases List.mem_append.1 member with anchored | later
      · cases anchor : path.parts.anchor <;> simp [anchor, Anchor.steps] at anchored
        exact anchored
      · exact filterMap_step?_idle (whole ▸ idle) step later
    · intro parent given
      simp only [parent?, none, if_true] at given
      split at given
      · rename_i here
        refine ⟨(Option.some.inj given).symm, ?_⟩
        rw [Bool.eq_false_iff, Ne, isAbsolute_iff_anchor, here]
        simp
      · cases given
  | inr more =>
    right
    obtain ⟨front, last, pieces⟩ := more
    have meant : component? last ≠ Option.none :=
      component?_getLast_trimmed (pieces ▸ List.getLast?_concat)
    obtain ⟨step, stepped, moves⟩ := step?_of_component?_ne_none meant
    obtain ⟨between, frontWhole, betweenIdle⟩ := trimmed_append front
    have above : trimmed front <+: path.parts.pieces := by
      refine ⟨between ++ last :: dropped, ?_⟩
      conv_rhs => rw [whole, pieces, frontWhole]
      simp
    have parentSound : Parts.Sound ⟨path.parts.anchor, trimmed front⟩ :=
      Parts.Sound.of_prefix sound above
    refine ⟨Parts.path ⟨path.parts.anchor, trimmed front⟩, step, between.filterMap step?,
      dropped.filterMap step?, ?_, ?_, ?_,
      filterMap_step?_idle betweenIdle, filterMap_step?_idle idle, moves,
      fun name => fileName?_iff pieces meant stepped⟩
    · simp [parent?, pieces]
    · rw [Bool.eq_iff_iff, parentSound.isAbsolute, isAbsolute_iff_anchor]
    · rw [taken, parentSound.openSteps]
      conv_lhs => rw [whole, pieces, frontWhole]
      simp [stepped]

theorem openSteps_parent {path parent : Path} (given : path.parent? = some parent) :
    parent.isAbsolute = path.isAbsolute ∧ parent.openSteps <+: path.openSteps := by
  rcases parent?_cases path with
      ⟨_, _, only⟩ | ⟨found, last, before, after, same, absolute, steps, _⟩
  · obtain ⟨rfl, relative⟩ := only parent given
    rw [relative]
    exact ⟨rfl, by simp⟩
  · obtain rfl : found = parent := Option.some.inj (same.symm.trans given)
    exact ⟨absolute, _, steps.symm⟩

theorem openSteps_parent_name {path parent : Path} {name : Bytes}
    (given : path.parent? = some parent)
    (named : path.fileName? = some name) :
    ∃ before after, Idle before ∧ Idle after ∧
    path.openSteps = parent.openSteps ++ (before ++ .into name :: after) := by
  rcases parent?_cases path with
      ⟨_, none, _⟩ | ⟨found, last, before, after, same, _, steps, idle, more, _, file⟩
  · rw [none] at named
    cases named
  · obtain rfl : found = parent := Option.some.inj (same.symm.trans given)
    obtain rfl := (file name).1 named
    exact ⟨before, after, idle, more, steps⟩

theorem intercalate_prefix {front pieces : List Bytes} (before : front <+: pieces) :
    [slash].intercalate front <+: [slash].intercalate pieces := by
  obtain ⟨more, rfl⟩ := before
  induction front with
  | nil => exact List.nil_prefix
  | cons piece rest ih =>
    by_cases last : rest = []
    · subst last
      cases more with
      | nil => simp
      | cons next others => simp [List.intercalate_cons_cons]
    · rw [List.cons_append, List.intercalate_cons_of_ne_nil last,
        List.intercalate_cons_of_ne_nil (by simp [last])]
      exact (List.prefix_append_right_inj _).2 ih

theorem intercalate_concat {pieces : List Bytes} (some : pieces ≠ []) (last : Bytes) :
    [slash].intercalate (pieces ++ [last]) = [slash].intercalate pieces ++ slash :: last := by
  induction pieces with
  | nil => exact absurd rfl some
  | cons piece rest ih =>
    by_cases more : rest = []
    · simp [more, List.intercalate_cons_cons]
    · rw [List.cons_append, List.intercalate_cons_of_ne_nil (by simp),
        List.intercalate_cons_of_ne_nil more, ih more]
      simp

/-- The bytes of the parent are the first of those of the path. -/
theorem bytes_parent_prefix {path parent : Path} (given : path.parent? = some parent) :
    parent.bytes <+: path.bytes := by
  unfold parent? at given
  simp only at given
  split at given
  · split at given
    · cases given
      exact List.nil_prefix
    · cases given
  · cases given
    obtain ⟨dropped, whole, _⟩ := trimmed_append path.parts.pieces
    obtain ⟨between, front, _⟩ := trimmed_append (trimmed path.parts.pieces).dropLast
    have first : trimmed (trimmed path.parts.pieces).dropLast <+: path.parts.pieces := by
      refine .trans ⟨between, front.symm⟩ (.trans (List.dropLast_prefix _) ⟨dropped, whole.symm⟩)
    conv_rhs => rw [← parts_path path]
    exact (List.prefix_append_right_inj _).2 (Path.intercalate_prefix first)

/-- The parent of a path that leads on is shorter. -/
theorem parent?_shorter {path parent : Path} (given : path.parent? = some parent)
    (goes : ¬Idle path.openSteps) : parent.bytes.length < path.bytes.length := by
  have before := bytes_parent_prefix given
  refine lt_of_le_of_ne before.length_le fun same => ?_
  obtain rfl : parent = path := congrArg Path.mk (before.eq_of_length same)
  rcases parent?_cases parent with ⟨idle, _⟩ | ⟨found, last, front, back, again, _, steps, _⟩
  · exact goes idle
  · obtain rfl : found = parent := Option.some.inj (again.symm.trans given)
    simpa using congrArg List.length steps

/-- A path to a name, with another name in its place. -/
theorem withFileName_joinName (path : Path) {name : Bytes} (legal : Tree.Legal name)
    (other : Bytes) :
    ∃ (parent : Path) (idle : List Step),
    (path.joinName name).withFileName other = parent.joinName other ∧
      path.openSteps = parent.openSteps ++ idle ∧ Idle idle ∧
      parent.isAbsolute = (path.joinName name).isAbsolute := by
  have steps := openSteps_joinName path legal
  rcases parent?_cases (path.joinName name) with
      ⟨idle, _, _⟩ | ⟨parent, last, before, after, given, absolute, whole, idle, more, _, file⟩
  · have stays := idle (.into name) (by simp [steps])
    cases stays
  · rw [steps] at whole
    obtain rfl : after = [] := by
      have regrouped : path.openSteps ++ [.into name] =
          (parent.openSteps ++ (before ++ [last])) ++ after := by
        rw [whole]
        simp
      exact more.eq_nil_of_concat regrouped
    rw [← List.append_assoc] at whole
    obtain ⟨same, ends⟩ := List.append_inj' whole rfl
    obtain rfl : Step.into name = last := List.cons.inj ends |>.1
    refine ⟨parent, before, ?_, same, idle, absolute⟩
    simp [withFileName, (file name).2 rfl, given]

end Retarget.Path
