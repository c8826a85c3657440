import Retarget.Proofs.Resolution.Lexical

/-!
A directory made with all that is missing above it, where there are no links and the path only goes
down. The directories on the way are there afterwards and nothing else is other than before. It can
always be done where nothing but directories stands on the way, names are short enough and the path
ends with the name of the directory.
-/
namespace Retarget

namespace Path

/-- The last step of a parent leads on, if any does. -/
theorem parent?_ends {path parent : Path} (given : path.parent? = some parent) :
    Idle parent.openSteps ∨
      ∃ before step, parent.openSteps = before ++ [step] ∧ step ≠ .stay := by
  unfold parent? at given
  simp only at given
  split at given
  · split at given
    · obtain rfl := Option.some.inj given
      exact .inl (by simp [Idle])
    · cases given
  · obtain rfl := Option.some.inj given
    obtain ⟨dropped, whole, _⟩ := trimmed_append path.parts.pieces
    obtain ⟨between, front, _⟩ := trimmed_append (trimmed path.parts.pieces).dropLast
    have above : trimmed (trimmed path.parts.pieces).dropLast <+: path.parts.pieces :=
      .trans ⟨between, front.symm⟩ (.trans (List.dropLast_prefix _) ⟨dropped, whole.symm⟩)
    have sound : Parts.Sound ⟨path.parts.anchor, path.parts.pieces⟩ := path.parts_sound
    rw [(Parts.Sound.of_prefix sound above).openSteps]
    cases List.eq_nil_or_concat' (trimmed (trimmed path.parts.pieces).dropLast) with
    | inl none =>
      left
      cases path.parts.anchor <;> simp [none, Anchor.steps, Idle]
    | inr more =>
      right
      obtain ⟨pieces, last, ends⟩ := more
      have meant : component? last ≠ .none :=
        component?_getLast_trimmed (ends ▸ List.getLast?_concat)
      obtain ⟨step, stepped, moves⟩ := step?_of_component?_ne_none meant
      refine ⟨path.parts.anchor.steps ++ pieces.filterMap step?, step, ?_, moves⟩
      rw [ends]
      simp [stepped]

/-- A parent that spells a name takes it last. -/
theorem parent?_names {path parent : Path} {names : Place} {name : Bytes}
    (given : path.parent? = some parent) (spelled : Spelled parent.openSteps (names ++ [name])) :
    ∃ steps, parent.openSteps = steps ++ [.into name] := by
  rcases parent?_ends given with idle | ⟨steps, step, whole, moves⟩
  · have none := spelled.symm.trans idle.filter
    simp at none
  · have taken : Spelled (steps ++ [step]) (names ++ [name]) := whole ▸ spelled
    have ends := congrArg List.getLast? taken
    rw [List.filter_append, List.filter_cons_of_pos (by simpa using moves)] at ends
    refine ⟨steps, ?_⟩
    rw [whole]
    simpa using ends

/-- What goes before the last name of a path, and what its parent does. -/
theorem parent?_of_spelled {path : Path} {names : Place} {name : Bytes} {before : List Step}
    (spelled : Spelled path.openSteps (names ++ [name]))
    (ends : path.openSteps = before ++ [.into name]) :
    ∃ parent, path.parent? = some parent ∧ parent.isAbsolute = path.isAbsolute ∧
      Spelled before names ∧ Spelled parent.openSteps names ∧
      parent.bytes.length < path.bytes.length := by
  rcases parent?_cases path with
    ⟨idle, _⟩ | ⟨parent, last, between, after, given, absolute, steps, stays, more, moves, _⟩
  · have stays := idle (.into name) (by simp [ends])
    cases stays
  · have first : Spelled before names := by
      rw [ends] at spelled
      obtain ⟨front, rest, whole, spells, none⟩ := spelled.split
      obtain rfl : rest = [] := List.map_eq_nil_iff.1 none.symm
      rwa [List.append_cancel_right whole]
    obtain rfl : after = [] := by
      have regrouped : before ++ [.into name] =
          (parent.openSteps ++ (between ++ [last])) ++ after := by
        rw [← ends, steps]
        simp
      exact more.eq_nil_of_concat regrouped
    have cut : before = parent.openSteps ++ between := by
      have regrouped : before ++ [.into name] = parent.openSteps ++ between ++ [last] := by
        rw [← ends, steps]
        simp
      exact (List.append_inj' regrouped rfl).1
    have second : Spelled parent.openSteps names := by
      rw [cut] at first
      obtain ⟨front, back, rfl, spells, none⟩ := first.cut
      obtain rfl : back = [] := List.map_eq_nil_iff.1 (none.symm.trans stays.filter)
      rwa [List.append_nil]
    refine ⟨parent, given, absolute, first, second, parent?_shorter given fun idle => ?_⟩
    have stays := idle (.into name) (by simp [ends])
    cases stays

end Path

/-- Names that lead down past directories and on into nothing lead nowhere. -/
theorem Tree.advance_lost {tree : Tree} {follow : Bool} {place names : Place} {steps : List Step}
    (spelled : Path.Spelled steps names) (short : ∀ name ∈ names, name.length ≤ nameLimit)
    (here : tree.entry? place = some .directory)
    (free : ∀ front, front <+: names → tree.entry? (place ++ front) = none ∨
      tree.entry? (place ++ front) = some .directory)
    (lost : tree.entry? (place ++ names) = none) :
    tree.advance follow place (steps ++ [.stay]) = .error .notFound := by
  induction spelled using Path.Spelled.induction generalizing place with
  | nil =>
    rw [List.append_nil, here] at lost
    cases lost
  | stay _ ih =>
    rw [List.cons_append, advance_stay here]
    exact ih short here free lost
  | @into rest others name _ ih =>
    rw [List.cons_append, advance_into here (short name List.mem_cons_self)]
    rcases free [name] ⟨others, rfl⟩ with none | next
    · rw [none]
      simp
    · rw [next]
      refine ih (fun other member => short other (List.mem_cons_of_mem _ member)) next
        (fun front before => ?_) (by simpa using lost)
      simpa using free (name :: front) ((List.prefix_cons_inj name).2 before)

/-- Steps that lead somewhere take no name that is too long for an entry. -/
theorem Leads.short {tree : Tree} {follow : Bool} {budget : Nat} {place : Place}
    {steps : List Step} {spot : Spot} (led : Leads tree follow budget place steps spot)
    (linkless : tree.Linkless []) {name : Bytes} (taken : .into name ∈ steps) :
    name.length ≤ nameLimit := by
  induction led with
  | arrived => cases taken
  | stay _ _ ih => exact ih (by simpa using taken)
  | up _ _ ih => exact ih (by simpa using taken)
  | into _ short _ _ _ ih =>
    rcases List.mem_cons.1 taken with same | later
    · obtain rfl := Step.into.inj same
      exact short
    · exact ih later
  | vacant _ short =>
    obtain rfl := Step.into.inj (List.mem_singleton.1 taken)
    exact short
  | atLink _ _ held => exact absurd held (linkless _ _)
  | through _ _ held => exact absurd held (linkless _ _)

namespace FileSystem

variable {files now after : FileSystem} {path : Path} {place names goal : Place} {name : Bytes}

/-- A later state in which directories that were missing on the way to a place were made, and nothing
else. -/
structure Paved (files : FileSystem) (goal : Place) (now : FileSystem) : Prop where
  sound : now.Sound
  cwd : now.cwd = files.cwd
  linkless : now.root.Linkless []
  entries : ∀ query, now.root.entry? query = files.root.entry? query ∨
    query <+: goal ∧ files.root.entry? query = none ∧ now.root.entry? query = some .directory

theorem Paved.refl (sound : files.Sound) (linkless : files.root.Linkless []) (goal : Place) :
    files.Paved goal files :=
  ⟨sound, rfl, linkless, fun _ => .inl rfl⟩

theorem Paved.makeDirectory (paved : files.Paved goal now)
    (onWay : path.placeFrom files.cwd <+: goal) (made : now.makeDirectory path = .ok after) :
    files.Paved goal after := by
  obtain ⟨above, last, named, free, cwd, entries⟩ := FileSystem.makeDirectory_ok made
  have here := named.place_eq paved.linkless
  rw [paved.cwd] at here
  rw [here] at entries
  refine ⟨paved.sound.makeDirectory made, cwd.trans paved.cwd,
    paved.linkless.of_new fun query entry held => ?_, fun query => ?_⟩
  · rw [entries] at held
    split at held
    · obtain rfl := Option.some.inj held
      exact .inr (by simp)
    · exact .inl held
  · rw [entries]
    split
    · rename_i same
      subst same
      refine .inr ⟨onWay, ?_, rfl⟩
      rcases paved.entries (path.placeFrom files.cwd) with same | ⟨_, absent, _⟩
      · rw [← same, ← here, free]
      · exact absent
    · exact paved.entries query

/-- Once the place itself is a directory, all that stands above it is. -/
theorem Paved.entry_eq (paved : files.Paved goal now)
    (directory : now.root.entry? goal = some .directory) (query : Place) :
    now.root.entry? query =
      if query <+: goal then some .directory else files.root.entry? query := by
  split
  · rename_i above
    obtain ⟨rest, rfl⟩ := above
    exact Tree.directory_of_append directory
  · rename_i apart
    exact (paved.entries query).resolve_right fun both => apart both.1

theorem placeFrom_of_spelled {cwd : Place} (spelled : Path.Spelled path.openSteps names) :
    path.placeFrom cwd = path.start cwd ++ names :=
  spelled.foldl_from _

/-- On the way of a path that only goes down lie places above its own. -/
theorem placeFrom_onWay {parent : Path} (onWay : parent.OnWay path)
    (spelled : Path.Spelled path.openSteps names) (cwd : Place) :
    parent.placeFrom cwd <+: path.placeFrom cwd := by
  obtain ⟨tail, steps⟩ := onWay.steps
  rw [← steps] at spelled
  obtain ⟨front, back, rfl, first, second⟩ := spelled.cut
  rw [Path.placeFrom, Path.placeFrom, ← steps, List.foldl_append, onWay.start,
    second.foldl_from]
  exact List.prefix_append _ _

theorem paved_of_makeDirectories (sound : files.Sound) (linkless : files.root.Linkless [])
    (spelled : Path.Spelled path.openSteps names) :
    files.Paved (path.placeFrom files.cwd) (files.makeDirectories path).2 :=
  makeDirectories_keeps (files.Paved (path.placeFrom files.cwd))
    (fun _ _ _ onWay held made => held.makeDirectory (placeFrom_onWay onWay spelled _) made)
    (.refl sound linkless _)

/-- Nothing but directories stands on the way of a path that only goes down. -/
structure Unblocked (files : FileSystem) (path : Path) (names : Place) : Prop where
  accepted : path.check = .ok ()
  spelled : Path.Spelled path.openSteps names
  short : ∀ name ∈ names, name.length ≤ nameLimit
  start : files.root.entry? (path.start files.cwd) = some .directory
  free : ∀ front, front <+: names → files.root.entry? (path.start files.cwd ++ front) = none ∨
    files.root.entry? (path.start files.cwd ++ front) = some .directory

theorem Unblocked.paved (unblocked : files.Unblocked path names) (paved : files.Paved goal now) :
    now.Unblocked path names := by
  refine ⟨unblocked.accepted, unblocked.spelled, unblocked.short, ?_, fun front before => ?_⟩
  · rw [paved.cwd]
    rcases paved.entries (path.start files.cwd) with same | ⟨_, _, directory⟩
    · rw [same, unblocked.start]
    · exact directory
  · rw [paved.cwd]
    rcases paved.entries (path.start files.cwd ++ front) with same | ⟨_, _, directory⟩
    · rw [same]
      exact unblocked.free front before
    · exact .inr directory

/-- One directory on the way is made, is there, or has to wait for the one above it. -/
theorem Unblocked.makeDirectory_cases (unblocked : files.Unblocked path (names ++ [name]))
    {before : List Step} (ends : path.openSteps = before ++ [.into name]) :
    (files.root.entry? (path.start files.cwd ++ names) = none ∧
        files.makeDirectory path = .error .notFound) ∨
      files.root.entry? (path.start files.cwd ++ names) = some .directory ∧
        ((∃ after, files.makeDirectory path = .ok after) ∨
          files.makeDirectory path = .error .alreadyExists ∧ files.isDirectory path = true ∧
            files.root.entry? (path.start files.cwd ++ names ++ [name]) = some .directory) := by
  obtain ⟨_, _, _, first, _⟩ := Path.parent?_of_spelled unblocked.spelled ends
  have short : ∀ other ∈ names, other.length ≤ nameLimit := fun other member =>
    unblocked.short other (by simp [member])
  rcases unblocked.free names (List.prefix_append _ _) with lost | directory
  · left
    refine ⟨lost, ?_⟩
    have reached : files.spot true path (path.openSteps.dropLast ++ [.stay]) =
        .error .notFound := by
      rw [ends, List.dropLast_concat]
      unfold FileSystem.spot
      rw [unblocked.accepted]
      have moved : files.root.advance true (path.start files.cwd) (before ++ [.stay]) =
          .error .notFound :=
        Tree.advance_lost first short unblocked.start
          (fun front begins => unblocked.free front (begins.trans (List.prefix_append _ _))) lost
      show files.root.reach true linkLimit _ _ = _
      unfold Tree.reach
      rw [moved]
    simp [FileSystem.makeDirectory, create, lastStep, reached, bind, Except.bind]
  · right
    refine ⟨directory, ?_⟩
    have named : files.Names path (path.start files.cwd ++ names) name :=
      ⟨unblocked.accepted, ⟨before, ends, leads_of_spelled first short directory⟩, directory,
        unblocked.short name (by simp)⟩
    obtain ⟨inner, found, taken⟩ := named.lastStep
    have held := Tree.entry?_concat found name
    rcases unblocked.free (names ++ [name]) (List.prefix_refl _) with none | there
    · left
      rw [← List.append_assoc, held, Option.map_eq_none_iff] at none
      simp [FileSystem.makeDirectory, create, taken, entryNamed, Nat.not_lt.2 named.short, none,
        bind, Except.bind, pure, Except.pure]
    · right
      rw [← List.append_assoc] at there
      obtain ⟨node, some, _⟩ := Option.map_eq_some_iff.1 (held.symm.trans there)
      refine ⟨?_, isDirectory_iff.2 ⟨_, named.opens there⟩, there⟩
      simp [FileSystem.makeDirectory, create, taken, entryNamed, Nat.not_lt.2 named.short, some,
        bind, Except.bind]

/-- A path whose turn has come is made, and then those that waited for it. -/
theorem Unblocked.makeAll_cons (unblocked : files.Unblocked path (names ++ [name]))
    (paved : files.Paved goal now) {before : List Step}
    (ends : path.openSteps = before ++ [.into name]) (onWay : path.placeFrom files.cwd <+: goal)
    (above : now.root.entry? (path.start files.cwd ++ names) = some .directory)
    {waiting : List Path}
    (onward : ∀ later, files.Paved goal later →
      later.root.entry? (path.placeFrom files.cwd) = some .directory →
      (FileSystem.makeAll waiting later).1 = .ok ()) :
    (FileSystem.makeAll (path :: waiting) now).1 = .ok () := by
  have here : path.placeFrom files.cwd = path.start files.cwd ++ names ++ [name] := by
    rw [placeFrom_of_spelled unblocked.spelled, List.append_assoc]
  unfold FileSystem.makeAll
  rcases (unblocked.paved paved).makeDirectory_cases ends with ⟨lost, _⟩ |
    ⟨_, ⟨after, made⟩ | ⟨refused, isDirectory, there⟩⟩
  · rw [paved.cwd, above] at lost
    cases lost
  · rw [made]
    obtain ⟨elsewhere, last, named, _, _, entries⟩ := FileSystem.makeDirectory_ok made
    have spelled := named.place_eq paved.linkless
    rw [paved.cwd] at spelled
    exact onward after (paved.makeDirectory onWay made) (by rw [entries, spelled, if_pos rfl])
  · rw [refused]
    simp only [isDirectory, and_self, if_true]
    rw [paved.cwd, ← here] at there
    exact onward now paved there

/-- Where the way of a path is clear, so is that of its parent. -/
theorem Unblocked.parent (unblocked : files.Unblocked path (names ++ [name])) {parent : Path}
    (given : path.parent? = some parent) (absolute : parent.isAbsolute = path.isAbsolute)
    (spelled : Path.Spelled parent.openSteps names) (some : names ≠ []) :
    files.Unblocked parent names := by
  have start : parent.start files.cwd = path.start files.cwd := by
    rw [Path.start, absolute, Path.start]
  have written : parent.bytes ≠ [] := by
    intro none
    have empty : parent = ⟨[]⟩ := congrArg Path.mk none
    rw [empty, Path.openSteps_empty] at spelled
    exact some (List.map_eq_nil_iff.1 spelled.symm)
  refine ⟨Path.check_of_prefix unblocked.accepted (Path.bytes_parent_prefix given) written, spelled,
    fun other member => unblocked.short other (List.mem_append_left _ member), ?_,
    fun other begins => ?_⟩
  · rw [start]
    exact unblocked.start
  · rw [start]
    exact unblocked.free other (begins.trans (List.prefix_append _ _))

/-- However many of the directories on its way are missing, a path is made. -/
theorem Unblocked.missing (sound : files.Sound) (linkless : files.root.Linkless []) {count : Nat}
    {waiting : List Path} {before : List Step}
    (unblocked : files.Unblocked path (names ++ [name]))
    (ends : path.openSteps = before ++ [.into name]) (enough : path.bytes.length < count)
    (onWay : path.placeFrom files.cwd <+: goal)
    (onward : ∀ later, files.Paved goal later →
      later.root.entry? (path.placeFrom files.cwd) = some .directory →
      (FileSystem.makeAll waiting later).1 = .ok ()) :
    ∃ left middle, files.missing (Path.ancestorsFrom count path) waiting = .ok (left, middle) ∧
      (FileSystem.makeAll left middle).1 = .ok () := by
  induction count generalizing path names name before waiting with
  | zero => cases enough
  | succ count ih =>
    obtain ⟨parent, given, absolute, first, second, shorter⟩ :=
      Path.parent?_of_spelled unblocked.spelled ends
    have here : path.placeFrom files.cwd = path.start files.cwd ++ names ++ [name] := by
      rw [placeFrom_of_spelled unblocked.spelled, List.append_assoc]
    have written : path.bytes ≠ [] := (Path.check_eq_ok_iff.1 unblocked.accepted).2.1
    have start : parent.start files.cwd = path.start files.cwd := by
      rw [Path.start, absolute, Path.start]
    unfold Path.ancestorsFrom FileSystem.missing
    rw [given, if_neg (by simp [written])]
    rcases unblocked.makeDirectory_cases ends with ⟨lost, refused⟩ |
      ⟨_, ⟨after, made⟩ | ⟨refused, isDirectory, there⟩⟩
    · rw [refused]
      -- The parent names something, since the start of the path is there.
      cases List.eq_nil_or_concat' names with
      | inl none =>
        rw [none, List.append_nil, unblocked.start] at lost
        cases lost
      | inr more =>
        obtain ⟨front, last, rfl⟩ := more
        obtain ⟨steps, whole⟩ := Path.parent?_names given second
        have onParent := unblocked.parent given absolute second (by simp)
        have parentPlace : parent.placeFrom files.cwd = path.start files.cwd ++ (front ++ [last]) := by
          rw [placeFrom_of_spelled second, start]
        refine ih onParent whole (by omega) ?_ fun later paved directory => ?_
        · rw [parentPlace]
          exact .trans ⟨[name], here.symm⟩ onWay
        · rw [parentPlace] at directory
          exact unblocked.makeAll_cons paved ends onWay directory onward
    · rw [made]
      obtain ⟨elsewhere, last, named, _, _, entries⟩ := FileSystem.makeDirectory_ok made
      have spelled := named.place_eq linkless
      exact ⟨waiting, after, rfl, onward after
        ((Paved.refl sound linkless goal).makeDirectory onWay made)
        (by rw [entries, spelled, if_pos rfl])⟩
    · rw [refused]
      rw [← here] at there
      exact ⟨waiting, files, by simp [isDirectory], onward files (.refl sound linkless goal) there⟩

theorem Unblocked.makeDirectories (sound : files.Sound) (linkless : files.root.Linkless [])
    {before : List Step} (unblocked : files.Unblocked path (names ++ [name]))
    (ends : path.openSteps = before ++ [.into name]) :
    (files.makeDirectories path).1 = .ok () := by
  have written : path.bytes ≠ [] := (Path.check_eq_ok_iff.1 unblocked.accepted).2.1
  have onward : ∀ later, files.Paved (path.placeFrom files.cwd) later →
      later.root.entry? (path.placeFrom files.cwd) = some .directory →
      (FileSystem.makeAll [] later).1 = .ok () := fun _ _ _ => rfl
  obtain ⟨left, middle, found, made⟩ :=
    unblocked.missing sound linkless ends (Nat.lt_succ_self _) (List.prefix_refl _) onward
  unfold FileSystem.makeDirectories
  rw [if_neg (Path.components_ne_nil written), Path.ancestors, found]
  exact made

/-! ## What a success tells -/

/-- A directory that was missing and was made is where the path leads. -/
theorem opens_of_makeDirectories (sound : files.Sound) (linkless : files.root.Linkless [])
    (written : path.bytes ≠ []) (spelled : Path.Spelled path.openSteps names)
    (absent : files.root.entry? (path.placeFrom files.cwd) = none)
    (made : files.makeDirectories path = (.ok (), after)) :
    after.Opens path (path.placeFrom files.cwd) := by
  have paved := paved_of_makeDirectories sound linkless spelled
  rw [made] at paved
  rcases makeDirectories_ok written made with ⟨place, opens⟩ | ⟨absolute, idle⟩
  · have here := opens.place_eq paved.linkless
    rw [paved.cwd] at here
    exact here ▸ opens
  · have none : Path.Spelled path.openSteps [] := idle.filter
    have root : path.placeFrom files.cwd = [] := by
      rw [placeFrom_of_spelled none, Path.start, absolute]
      rfl
    rw [root] at absent
    simp at absent

/-- The place of a path is missing still, or the path ends with its name. -/
structure Waits (files : FileSystem) (path : Path) (now : FileSystem) : Prop where
  paved : files.Paved (path.placeFrom files.cwd) now
  ends : now.root.entry? (path.placeFrom files.cwd) = none ∨
    ∃ before name, path.openSteps = before ++ [.into name]

/-- Only the path itself makes its place, and it does so by the name at its end. -/
theorem Waits.makeDirectory (waits : files.Waits path now)
    (spelled : Path.Spelled path.openSteps names) {parent : Path} (member : parent ∈ path.ancestors)
    (made : now.makeDirectory parent = .ok after) : files.Waits path after := by
  have onWay := Path.onWay_of_mem_ancestorsFrom member
  refine ⟨waits.paved.makeDirectory (placeFrom_onWay onWay spelled _) made, ?_⟩
  obtain ⟨above, last, named, _, _, entries⟩ := FileSystem.makeDirectory_ok made
  have fresh := named.place_eq waits.paved.linkless
  rw [waits.paved.cwd] at fresh
  obtain ⟨before, taken, _⟩ := named.steps
  have goes : ¬Path.Idle path.openSteps := fun idle => by
    have stays := idle (.into last) (onWay.steps.subset (by simp [taken]))
    cases stays
  rcases Path.steps_of_mem_ancestors member goes with rfl | ⟨tail, whole, moves⟩
  · exact .inr ⟨before, last, taken⟩
  · refine waits.ends.imp_left fun none => ?_
    rw [entries, if_neg, none]
    intro same
    obtain ⟨front, back, rfl, first, second⟩ := (whole ▸ spelled).cut
    have below : path.placeFrom files.cwd = parent.placeFrom files.cwd ++ back := by
      rw [placeFrom_of_spelled spelled, placeFrom_of_spelled first, onWay.start,
        List.append_assoc]
    obtain rfl : back = [] := by simpa [fresh, below] using same
    exact moves second.idle

/-- What was missing and was made is made by the path itself, which so ends with its name. -/
theorem names_of_makeDirectories (sound : files.Sound) (linkless : files.root.Linkless [])
    (written : path.bytes ≠ []) (spelled : Path.Spelled path.openSteps names)
    (absent : files.root.entry? (path.placeFrom files.cwd) = none)
    (made : files.makeDirectories path = (.ok (), after)) :
    ∃ before front name, names = front ++ [name] ∧ path.openSteps = before ++ [.into name] ∧
      ∀ name ∈ names, name.length ≤ nameLimit := by
  have opens := opens_of_makeDirectories sound linkless written spelled absent made
  have waits : files.Waits path (files.makeDirectories path).2 :=
    makeDirectories_keeps_ancestors (files.Waits path)
      (fun _ _ _ member held done => held.makeDirectory spelled member done)
      ⟨.refl sound linkless _, .inl absent⟩
  rw [made] at waits
  obtain ⟨before, name, taken⟩ := waits.ends.resolve_left (by rw [opens.directory]; simp)
  have cut : Path.Spelled (before ++ [.into name]) names := taken ▸ spelled
  obtain ⟨front, rest, rfl, _, none⟩ := cut.split
  obtain rfl : rest = [] := List.map_eq_nil_iff.1 none.symm
  exact ⟨before, front, name, rfl, taken, fun other member =>
    opens.leads.short waits.paved.linkless (spelled.mem member)⟩

end FileSystem
end Retarget
