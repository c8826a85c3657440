import Retarget.FileSystem.Change
import Retarget.Proofs.Resolution.Paths
import Retarget.Proofs.Session.Except

/-!
What the operations do where they succeed: each changes the entry at the place its path names, and
the new state is written out. Nothing is said of why an operation fails.
-/
namespace Retarget.FileSystem

variable {files after : FileSystem} {path : Path} {place : Place}

@[simp] theorem put_root (files : FileSystem) (place : Place) (node : Node) :
    (files.put place node).root = files.root.set place node := rfl

@[simp] theorem drop_root (files : FileSystem) (place : Place) :
    (files.drop place).root = files.root.remove place := rfl

/-- What stands at a name goes with all that is below it. -/
theorem entry?_drop {name : Bytes} (directory : files.root.entry? place = some .directory)
    (query : Place) : (files.drop (place ++ [name])).root.entry? query =
      if place ++ [name] <+: query then none else files.root.entry? query := by
  obtain ⟨inner, found⟩ := Tree.entry?_eq_directory.1 directory
  rw [drop_root]
  split
  · rename_i inside
    obtain ⟨below, rfl⟩ := inside
    exact Tree.entry?_remove_inside found name below
  · rename_i outside
    exact Tree.entry?_remove_outside found outside

theorem less_drop {name : Bytes} (directory : files.root.entry? place = some .directory)
    {query : Place} {entry : Entry}
    (held : (files.drop (place ++ [name])).root.entry? query = some entry) :
    files.root.entry? query = some entry := by
  rw [entry?_drop directory] at held
  split at held
  · cases held
  · exact held

/-! ## The last step -/

theorem lastStep_ok {inner : Tree} {step : Option Step}
    (taken : files.lastStep path = .ok (place, inner, step)) :
    path.check = .ok () ∧ files.root.at? place = some (.branch inner) ∧
    step = path.openSteps.getLast? ∧
      Leads files.root true linkLimit (path.start files.cwd) path.openSteps.dropLast
      (.found place) := by
  unfold lastStep at taken
  cases reached : files.spot true path (path.openSteps.dropLast ++ [.stay]) with
  | error cause =>
    rw [reached] at taken
    cases taken
  | ok spot =>
    rw [reached] at taken
    obtain ⟨accepted, leads⟩ := spot_iff.1 reached
    obtain ⟨found, rfl, directory, leads⟩ := Leads.concat_stay_iff.1 leads
    cases held : files.nodeAt (.found found) with
    | error cause => simp [bind, Except.bind, held] at taken
    | ok pair =>
      obtain ⟨at_, node⟩ := pair
      obtain ⟨same, node_at⟩ := nodeAt_iff.1 held
      cases same
      cases node with
      | leaf content => simp [bind, Except.bind, held] at taken
      | branch tree =>
        simp only [bind, Except.bind, held, pure, Except.pure, Except.ok.injEq,
          Prod.mk.injEq] at taken
        obtain ⟨rfl, rfl, rfl⟩ := taken
        exact ⟨accepted, node_at, rfl, leads⟩

theorem names_of_lastStep {inner : Tree} {name : Bytes}
    (taken : files.lastStep path = .ok (place, inner, some (.into name)))
    (short : name.length ≤ nameLimit) :
    files.Names path place name ∧ files.root.at? place = some (.branch inner) := by
  obtain ⟨accepted, held, last, leads⟩ := lastStep_ok taken
  obtain ⟨before, whole⟩ := List.getLast?_eq_some_iff.1 last.symm
  rw [whole, List.dropLast_concat] at leads
  exact ⟨⟨accepted, ⟨before, whole, leads⟩, Tree.entry?_eq_directory.2 ⟨inner, held⟩, short⟩, held⟩

theorem entryNamed_ok {inner : Tree} {name : Bytes} {node : Option Node}
    (held : entryNamed inner name = .ok node) :
    name.length ≤ nameLimit ∧ inner.find? name = node := by
  unfold entryNamed at held
  split at held
  · cases held
  · rename_i short
    exact ⟨Nat.le_of_not_lt short, Except.ok.inj held⟩

/-! ## Making and taking away -/

theorem create_ok {node : Node} (made : files.create path node = .ok after) :
    ∃ place name, files.Names path place name ∧ files.root.entry? (place ++ [name]) = none ∧
      after = files.put (place ++ [name]) node := by
  obtain ⟨⟨place, inner, step⟩, taken, made⟩ := bind_eq_ok.1 made
  split at made
  · rename_i found tree name same
    cases same
    obtain ⟨held, looked, made⟩ := bind_eq_ok.1 made
    obtain ⟨short, looked⟩ := entryNamed_ok looked
    obtain ⟨names, here⟩ := names_of_lastStep taken short
    cases held with
    | some _ => cases made
    | none =>
      refine ⟨place, name, names, ?_, (Except.ok.inj made).symm⟩
      rw [Tree.entry?_concat here, looked]
      rfl
  · cases made

theorem unlink_ok (removed : files.unlink path = .ok after) :
    ∃ place name content, files.Names path place name ∧ path.endsWithSlash = false ∧
      files.root.entry? (place ++ [name]) = some (.leaf content) ∧
      after = files.drop (place ++ [name]) := by
  obtain ⟨⟨place, inner, step⟩, taken, removed⟩ := bind_eq_ok.1 removed
  split at removed
  · rename_i found tree name same
    cases same
    obtain ⟨held, looked, removed⟩ := bind_eq_ok.1 removed
    obtain ⟨short, looked⟩ := entryNamed_ok looked
    obtain ⟨names, here⟩ := names_of_lastStep taken short
    cases held with
    | none => cases removed
    | some node =>
      cases node with
      | branch inner => cases removed
      | leaf content =>
        simp only at removed
        split at removed
        · cases removed
        · rename_i closed
          refine ⟨place, name, content,
            names, by simpa using closed, ?_, (Except.ok.inj removed).symm⟩
          rw [Tree.entry?_concat here, looked]
          rfl
  · cases removed

theorem removeDirectory_ok (removed : files.removeDirectory path = .ok after) :
    ∃ place name, files.Names path place name ∧
    files.root.at? (place ++ [name]) = some (.branch .empty) ∧
      after = files.drop (place ++ [name]) := by
  obtain ⟨⟨place, inner, step⟩, taken, removed⟩ := bind_eq_ok.1 removed
  split at removed
  · cases removed
  · cases removed
  · cases removed
  · rename_i found tree name same
    cases same
    obtain ⟨held, looked, removed⟩ := bind_eq_ok.1 removed
    obtain ⟨short, looked⟩ := entryNamed_ok looked
    obtain ⟨names, here⟩ := names_of_lastStep taken short
    split at removed
    · cases removed
    · refine ⟨place, name, names, ?_, (Except.ok.inj removed).symm⟩
      rw [Tree.at?_append, here]
      simp [Tree.at?_cons, looked]
    · cases removed
    · cases removed

theorem Names.lastStep {name : Bytes} (names : files.Names path place name) :
    ∃ inner, files.root.at? place = some (.branch inner) ∧
      files.lastStep path = .ok (place, inner, some (.into name)) := by
  obtain ⟨before, steps, led⟩ := names.steps
  obtain ⟨inner, found⟩ := Tree.entry?_eq_directory.1 names.directory
  have reached : files.spot true path (before ++ [.stay]) = .ok (.found place) :=
    spot_iff.2 ⟨names.accepted, Leads.concat_stay_iff.2 ⟨place, rfl, names.directory, led⟩⟩
  have here : files.nodeAt (.found place) = .ok (place, .branch inner) :=
    nodeAt_iff.2 ⟨rfl, found⟩
  refine ⟨inner, found, ?_⟩
  simp [FileSystem.lastStep, steps, reached, here, bind, Except.bind, pure, Except.pure]

/-- An empty directory is removed by a path that names it. -/
theorem Names.removeDirectory {name : Bytes} (names : files.Names path place name)
    (empty : files.root.at? (place ++ [name]) = some (.branch .empty)) :
    files.removeDirectory path = .ok (files.drop (place ++ [name])) := by
  obtain ⟨inner, found, taken⟩ := names.lastStep
  have held : inner.find? name = some (.branch .empty) := by
    rw [Tree.at?_append, found] at empty
    simpa [Tree.at?_cons] using empty
  simp [FileSystem.removeDirectory, taken, entryNamed, Nat.not_lt.2 names.short, held, bind,
    Except.bind, pure, Except.pure]

/-! ## Writing and renaming -/

/-- A file is written where the path leads: under a free name, or over the file that is there. -/
theorem write_ok {contents : Bytes} (written : files.write path contents = .ok after) :
    path.check = .ok () ∧ ∃ spot,
    Leads files.root true linkLimit (path.start files.cwd) path.openSteps spot ∧
      ((∃ directory name, spot = .vacant directory name ∧
          after = files.put (directory ++ [name]) (.leaf (.file contents))) ∨
        (∃ place before, spot = .found place ∧
          files.root.entry? place = some (.leaf (.file before)) ∧
          after = files.put place (.leaf (.file contents))) ∨
        ∃ place content, spot = .found place ∧ files.root.entry? place = some (.leaf content) ∧
          (∀ before, content ≠ .file before) ∧ after = files) := by
  obtain ⟨spot, reached, written⟩ := bind_eq_ok.1 written
  obtain ⟨accepted, leads⟩ := spot_iff.1 reached
  refine ⟨accepted, spot, leads, ?_⟩
  cases spot with
  | vacant directory name =>
    left
    simp only at written
    split at written
    · cases written
    · exact ⟨directory, name, rfl, (Except.ok.inj written).symm⟩
  | found place =>
    right
    simp only [FileSystem.at?] at written
    split at written
    · rename_i before held
      split at written
      · cases written
      · exact .inl ⟨place, before, rfl, Tree.entry?_eq_leaf.2 held, (Except.ok.inj written).symm⟩
    · rename_i content held special
      exact .inr ⟨place, content, rfl, Tree.entry?_eq_leaf.2 special, fun before same =>
        held before (same ▸ rfl),
        (Except.ok.inj written).symm⟩
    · cases written

theorem rename_ok {target : Path} (renamed : files.rename path target = .ok after) :
    ∃ place name elsewhere other content, files.Names path place name ∧
    files.Names target elsewhere other ∧
      files.root.entry? (place ++ [name]) = some (.leaf content) ∧
      ((place ++ [name] = elsewhere ++ [other] ∧ after = files) ∨
        (place ++ [name] ≠ elsewhere ++ [other] ∧
          files.root.entry? (elsewhere ++ [other]) ≠ some .directory ∧
          after = (files.drop (place ++ [name])).put (elsewhere ++ [other]) (.leaf content))) := by
  by_cases zero : 0 ∈ path.bytes ∨ 0 ∈ target.bytes
  · simp only [rename, zero, if_true, bind, Except.bind] at renamed
    cases renamed
  · simp only [rename, zero, if_false] at renamed
    obtain ⟨_, _, renamed⟩ := bind_eq_ok.1 renamed
    obtain ⟨_, _, renamed⟩ := bind_eq_ok.1 renamed
    obtain ⟨⟨place, held, step⟩, taken, renamed⟩ := bind_eq_ok.1 renamed
    obtain ⟨⟨elsewhere, others, otherStep⟩, otherTaken, renamed⟩ := bind_eq_ok.1 renamed
    simp only at renamed
    split at renamed
    · rename_i name other _
      obtain ⟨source, looked, renamed⟩ := bind_eq_ok.1 renamed
      obtain ⟨short, looked⟩ := entryNamed_ok looked
      obtain ⟨names, here⟩ := names_of_lastStep taken short
      cases source with
      | none => cases renamed
      | some node =>
        obtain ⟨replaced, otherLooked, renamed⟩ := bind_eq_ok.1 renamed
        obtain ⟨otherShort, otherLooked⟩ := entryNamed_ok otherLooked
        obtain ⟨otherNames, there⟩ := names_of_lastStep otherTaken otherShort
        cases node with
        | branch inner => cases renamed
        | leaf content =>
          have found : files.root.entry? (place ++ [name]) = some (.leaf content) := by
            rw [Tree.entry?_concat here, looked]
            rfl
          refine ⟨place, name, elsewhere, other, content, names, otherNames, found, ?_⟩
          simp only at renamed
          split at renamed
          · cases renamed
          · split at renamed
            · rename_i same
              exact .inl ⟨same, (Except.ok.inj renamed).symm⟩
            · rename_i apart
              split at renamed
              · cases renamed
              · rename_i plain
                refine .inr ⟨apart, ?_, (Except.ok.inj renamed).symm⟩
                rw [Tree.entry?_concat there, otherLooked]
                intro directory
                obtain ⟨node, present, isDirectory⟩ := Option.map_eq_some_iff.1 directory
                obtain ⟨inner, rfl⟩ := Node.entry_eq_directory.1 isDirectory
                exact plain inner present
    · cases renamed

/-- A leaf put under a name, over no directory, is the only change. -/
theorem entry?_put_leaf {name : Bytes} {content : Leaf}
    (directory : files.root.entry? place = some .directory)
    (free : files.root.entry? (place ++ [name]) ≠ some .directory) (query : Place) :
    (files.put (place ++ [name]) (.leaf content)).root.entry? query =
      if query = place ++ [name] then some (.leaf content) else files.root.entry? query := by
  obtain ⟨inner, found⟩ := Tree.entry?_eq_directory.1 directory
  have alone : ∀ below, below ≠ [] → Node.entry? (.leaf content) below = none :=
    fun below more => by
    rw [Node.entry?_leaf, if_neg more]
  rw [put_root, Tree.entry?_set_alone found (Tree.bare_of_ne_directory free) alone]
  rfl

/-- An empty directory put under a name, where nothing stands below, is the only change. -/
theorem entry?_put_directory {name : Bytes} (directory : files.root.entry? place = some .directory)
    (bare : files.root.Bare (place ++ [name])) (query : Place) :
    (files.put (place ++ [name]) (.branch .empty)).root.entry? query =
      if query = place ++ [name] then some .directory else files.root.entry? query := by
  obtain ⟨inner, found⟩ := Tree.entry?_eq_directory.1 directory
  have alone : ∀ below, below ≠ [] → Node.entry? (.branch .empty) below = none :=
    fun below more => by
    rw [Node.entry?_branch, Tree.entry?_empty, if_neg more]
  rw [put_root, Tree.entry?_set_alone found bare alone]
  rfl

/-- Moving a leaf changes the entries at the two names and no other. -/
theorem entry?_moved {name other : Bytes} {elsewhere : Place} {content : Leaf}
    (directory : files.root.entry? place = some .directory)
    (otherDirectory : files.root.entry? elsewhere = some .directory)
    (held : files.root.entry? (place ++ [name]) = some (.leaf content))
    (apart : place ++ [name] ≠ elsewhere ++ [other])
    (free : files.root.entry? (elsewhere ++ [other]) ≠ some .directory) (query : Place) :
    ((files.drop (place ++ [name])).put (elsewhere ++ [other]) (.leaf content)).root.entry? query =
      if query = elsewhere ++ [other] then some (.leaf content)
      else if query = place ++ [name] then none else files.root.entry? query := by
  obtain ⟨inner, found⟩ := Tree.entry?_eq_directory.1 directory
  have dropped := Tree.entry?_remove_bare found (Tree.bare_of_leaf held)
  have still : (files.drop (place ++ [name])).root.entry? elsewhere = some .directory := by
    rw [drop_root, dropped, if_neg, otherDirectory]
    rintro rfl
    rw [otherDirectory] at held
    cases held
  rw [entry?_put_leaf still, drop_root, dropped]
  rwa [drop_root, dropped, if_neg (Ne.symm apart)]

/-- The files once a directory was emptied. -/
def emptied (files : FileSystem) (place : Place) :
    FileSystem := { files with root := files.root.modify (fun _ => .empty) place }

/-- In a directory that was emptied only the directory itself is left. -/
theorem entry?_emptied {inner : Tree} (found : files.root.at? place = some (.branch inner))
    (query : Place) :
    (files.emptied place).root.entry? query =
      if place <+: query ∧ query ≠ place then none else files.root.entry? query := by
  by_cases inside : place <+: query
  · obtain ⟨below, rfl⟩ := inside
    rw [emptied, Tree.entry?_modify_inside found, Tree.entry?_empty]
    by_cases top : below = []
    · simp [top, Tree.entry?_eq_directory.2 ⟨inner, found⟩]
    · simp [top]
  · rw [emptied, Tree.entry?_modify_outside inside, if_neg fun both => inside both.1]

theorem less_emptied {inner : Tree} (found : files.root.at? place = some (.branch inner))
    {query : Place} {entry : Entry} (held : (files.emptied place).root.entry? query = some entry) :
    files.root.entry? query = some entry := by
  rw [entry?_emptied found] at held
  split at held
  · cases held
  · exact held

/-- Removing a tree: a link goes alone, a directory is emptied first and stays empty if it cannot
go. -/
theorem removeTree_cases (path : Path) :
    (∃ cause, files.removeTree path = (.error cause, files)) ∨
    (∃ place target, files.lstat path = .ok (place, .leaf (.link target)) ∧
      files.removeTree path = (.ok (), files.drop place)) ∨
    ∃ place inner, files.lstat path = .ok (place, .branch inner) ∧
      ((files.emptied place).removeDirectory path = .ok (files.removeTree path).2 ∨
        (files.removeTree path).2 = files.emptied place) := by
  unfold removeTree
  split
  · exact .inl ⟨_, rfl⟩
  · rename_i place target found
    exact .inr (.inl ⟨place, target, found, rfl⟩)
  · exact .inl ⟨_, rfl⟩
  · rename_i place inner found
    refine .inr (.inr ⟨place, inner, found, ?_⟩)
    simp only
    split
    · rename_i removed
      exact .inl removed
    · exact .inr rfl
    · exact .inr rfl

end Retarget.FileSystem
