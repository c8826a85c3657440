import Retarget.Proofs.Pass.Renaming
import Retarget.Proofs.Pass.Replacing
import Retarget.Proofs.Pass.Rewriting
import Retarget.Proofs.Tree.Rebuilding

/-!
A directory that is filled. What the passes do once the target is made they do below its place, so
emptying the directory at that place brings back, tree for tree, what it was when it was made.
-/
namespace Retarget

namespace FileSystem

open Pass Act

variable {files made now after : FileSystem} {source target : Path} {place above : Place}
  {name : Bytes} {node : Node}

/-! ## What emptying forgets -/

theorem emptied_put (files : FileSystem) (place above : Place) (name : Bytes) (node : Node) :
    (files.put (place ++ above ++ [name]) node).emptied place = files.emptied place := by
  have same := Tree.modify_modify files.root (·.put name node) (fun _ => .empty) place above
  unfold emptied
  rw [put_root, Tree.set_concat, same]
  rfl

theorem emptied_drop (files : FileSystem) (place above : Place) (name : Bytes) :
    (files.drop (place ++ above ++ [name])).emptied place = files.emptied place := by
  have same := Tree.modify_modify files.root (·.erase name) (fun _ => .empty) place above
  unfold emptied
  rw [drop_root, Tree.remove_concat, same]
  rfl

theorem emptied_of_empty (empty : files.root.at? place = some (.branch .empty)) :
    files.emptied place = files := by
  unfold emptied
  rw [Tree.modify_eq_self fun inner found => ?_]
  rw [empty] at found
  cases found
  rfl

/-- What was put under a free name is taken out without a trace. -/
theorem drop_put (free : files.root.entry? (place ++ [name]) = none) (node : Node) :
    (files.put (place ++ [name]) node).drop (place ++ [name]) = files := by
  have same := Tree.modify_modify files.root (·.put name node) (·.erase name) place []
  rw [List.append_nil] at same
  have root : ((files.put (place ++ [name]) node).drop (place ++ [name])).root = files.root := by
    rw [drop_root, put_root, Tree.set_concat, Tree.remove_concat, same]
    refine Tree.modify_eq_self fun inner found => Tree.erase_put ?_ node
    rw [Tree.entry?_concat found] at free
    simpa using free
  exact congrArg (FileSystem.mk · files.cwd) root

/-! ## Steps that fill -/

/-- A later state in which a directory was filled: emptied, it is as it was made. No directory and
no link was taken away, and there is no link in it. -/
structure Filled (made : FileSystem) (place : Place) (now : FileSystem) : Prop where
  sound : now.Sound
  cwd : now.cwd = made.cwd
  ways : made.root.WaysIn now.root
  linkless : now.root.Linkless place
  emptied : now.emptied place = made.emptied place

theorem Filled.refl (sound : made.Sound) (linkless : made.root.Linkless place) :
    made.Filled place made :=
  ⟨sound, rfl, fun _ _ held _ => held, linkless, rfl⟩

theorem Filled.opens (filled : made.Filled place now) (opens : made.Opens target place) :
    now.Opens target place :=
  opens.carry filled.ways filled.cwd

/-- A node that stands alone is put below, over nothing or over a file. -/
theorem Filled.put (filled : made.Filled place now)
    (directory : now.root.entry? (place ++ above) = some .directory) (legal : Tree.Legal name)
    (idle : ∀ entry, now.root.entry? (place ++ above ++ [name]) = some entry →
      entry.passable = false)
    (formed : node.WellFormed) (alone : ∀ below, below ≠ [] → node.entry? below = none)
    (plain : ∀ link, node.entry ≠ .leaf (.link link)) :
    made.Filled place (now.put (place ++ above ++ [name]) node) := by
  obtain ⟨inner, found⟩ := Tree.entry?_eq_directory.1 directory
  have bare : now.root.Bare (place ++ above ++ [name]) :=
    Tree.bare_of_ne_directory fun held => by cases idle _ held
  have entries := Tree.entry?_set_alone found bare alone
  have sound : (now.put (place ++ above ++ [name]) node).Sound := by
    refine filled.sound.put directory legal formed fun below link held => ?_
    by_cases top : below = []
    · rw [top, Node.entry?_nil] at held
      exact absurd (Option.some.inj held) (plain link)
    · rw [alone below top] at held
      cases held
  refine ⟨sound, filled.cwd, fun query entry held passable => ?_, fun below link held => ?_,
    (emptied_put now place above name node).trans filled.emptied⟩
  · have there := filled.ways query entry held passable
    rw [put_root, entries, if_neg, there]
    rintro rfl
    rw [idle entry there] at passable
    cases passable
  · rw [put_root, entries] at held
    split at held
    · exact plain link (Option.some.inj held)
    · exact filled.linkless below link held

theorem Filled.put_file (filled : made.Filled place now)
    (directory : now.root.entry? (place ++ above) = some .directory) (legal : Tree.Legal name)
    (idle : ∀ entry, now.root.entry? (place ++ above ++ [name]) = some entry →
      entry.passable = false) {content : Leaf} (plain : ∀ link, content ≠ .link link) :
    made.Filled place (now.put (place ++ above ++ [name]) (.leaf content)) := by
  refine filled.put directory legal idle trivial (fun below more => ?_) fun link same => ?_
  · rw [Node.entry?_leaf, if_neg more]
  · exact plain link (Entry.leaf.inj same)

theorem Filled.drop (filled : made.Filled place now) {content : Leaf}
    (held : now.root.entry? (place ++ above ++ [name]) = some (.leaf content)) :
    made.Filled place (now.drop (place ++ above ++ [name])) := by
  have directory : now.root.entry? (place ++ above) = some .directory :=
    Tree.directory_above held (by simp)
  obtain ⟨inner, found⟩ := Tree.entry?_eq_directory.1 directory
  have entries := Tree.entry?_remove_bare found (Tree.bare_of_leaf held)
  refine ⟨filled.sound.drop directory, filled.cwd, fun query entry there passable => ?_,
    fun below link there => ?_, (emptied_drop now place above name).trans filled.emptied⟩
  · have there := filled.ways query entry there passable
    rw [drop_root, entries, if_neg, there]
    rintro rfl
    obtain rfl := Option.some.inj (held.symm.trans there)
    cases content with
    | link link =>
      rw [List.append_assoc] at held
      exact filled.linkless _ link held
    | file contents => cases passable
    | special => cases passable
  · rw [drop_root, entries] at there
    split at there
    · cases there
    · exact filled.linkless below link there

/-! ## Copying -/

theorem Filled.underway (filled : made.Filled place now) (opens : made.Opens target place) :
    now.Underway target place now :=
  ⟨(Confined.refl filled.sound place).spares, filled.opens opens, filled.linkless⟩

theorem Filled.makeDirectory (filled : made.Filled place now) (opens : made.Opens target place)
    {names : Place} (legal : ∀ name ∈ names, Tree.Legal name) {parent : Path}
    (onWay : parent.OnWay (copyPath target names)) (done : now.makeDirectory parent = .ok after) :
    made.Filled place after := by
  obtain ⟨directory, name, named, free, rfl⟩ := create_ok done
  obtain ⟨above, rfl, _⟩ := (filled.underway opens).names_onWay legal onWay named free
  refine filled.put named.directory named.legal (fun entry held => ?_) trivial
    (fun below more => ?_) fun link same => ?_
  · rw [free] at held
    cases held
  · rw [Node.entry?_branch, Tree.entry?_empty, if_neg more]
  · cases same

theorem Filled.write (filled : made.Filled place now) (opens : made.Opens target place)
    {names : Place} (legal : ∀ name ∈ names, Tree.Legal name) {contents : Bytes}
    (written : now.write (copyPath target names) contents = .ok after) :
    made.Filled place after := by
  have underway := filled.underway opens
  obtain ⟨_, spot, led, outcome⟩ := write_ok written
  rw [start_copyPath target legal, copyPath, Path.openSteps_join_place target legal] at led
  have here := underway.leads_below led
  -- The place itself is a directory, so what is written has a name below it.
  have put : ∀ directory last, directory ++ [last] = place ++ names →
      now.root.entry? directory = some .directory →
      (∀ entry, now.root.entry? (directory ++ [last]) = some entry → entry.passable = false) →
      made.Filled place (now.put (directory ++ [last]) (.leaf (.file contents))) := by
    intro directory last same stands idle
    rcases List.eq_nil_or_concat' names with rfl | ⟨above, name, rfl⟩
    · rw [List.append_nil] at same
      cases idle _ (same ▸ underway.opens.directory)
    · rw [← List.append_assoc] at same
      obtain ⟨rfl, ends⟩ := List.append_inj' same rfl
      obtain rfl : last = name := by simpa using ends
      exact filled.put_file stands (legal last (by simp)) idle (by simp)
  rcases outcome with ⟨directory, last, rfl, rfl⟩ | ⟨reached, old, rfl, file, rfl⟩ |
    ⟨_, _, _, _, _, rfl⟩
  · refine put directory last here led.of_vacant.1 fun entry held => ?_
    rw [led.of_vacant.2] at held
    cases held
  · obtain ⟨above, last, rfl, directory, _⟩ := filled.sound.of_leaf file
    refine put above last here directory fun entry held => ?_
    obtain rfl := Option.some.inj (file.symm.trans held)
    rfl
  · exact filled

/-- Copying the entries of the source fills the target. -/
theorem Filled.copyEntries (filled : made.Filled place now) (opens : made.Opens target place)
    (written : source.bytes ≠ []) {depth : Nat} {ancestors : List Ancestor}
    {entries : List (Bytes × Entry)} (legal : ∀ item ∈ entries, Tree.Legal item.1) :
    (copyEntries source target depth ancestors source entries).Ensures now
      (fun _ => made.Filled place) (made.Filled place) := by
  refine copyEntries_keeps _ (fun name entry state named kept => ?_) legal filled
  exact copyFrom_keeps (made.Filled place) written (fun _ held => held.sound)
    (fun _ _ legal held => makeDirectories_keeps _
      (fun _ _ _ onWay state done => state.makeDirectory opens legal onWay done) held)
    (fun _ _ _ _ legal held done => held.write opens legal done) depth ancestors [name]
    (by simpa using named) entry kept

/-! ## Renaming and rewriting -/

theorem Filled.renameFiles (filled : made.Filled place now) (opens : made.Opens target place)
    {naming : Naming} (marked : naming.target ≠ "")
    (slashless : Path.slash ∉ utf8 naming.target) :
    (renameFiles target naming).Ensures now (fun _ => made.Filled place) (made.Filled place) := by
  refine renameFiles_keeps (made.Filled place) filled.sound marked slashless ?_ filled
  intro reached above old fresh content _ _ state after found kept names otherNames _ leaf outcome
  obtain rfl := found.unique (filled.opens opens)
  rcases outcome with ⟨_, rfl⟩ | ⟨apart, free, rfl⟩
  · exact kept
  · have entries := Tree.entry?_remove_bare names.at?.choose_spec (Tree.bare_of_leaf leaf)
    refine (kept.drop leaf).put_file ?_ otherNames.legal (fun entry held => ?_) fun link same => ?_
    · rw [drop_root, entries, if_neg (by simp), names.directory]
    · rw [drop_root, entries] at held
      split at held
      · cases held
      · cases entry with
        | directory => exact absurd held free
        | leaf other =>
          cases other with
          | link link =>
            rw [List.append_assoc] at held
            exact absurd held (kept.linkless _ link)
          | file contents => rfl
          | special => rfl
    · rw [same, List.append_assoc] at leaf
      exact kept.linkless _ link leaf

theorem Filled.rewriteFiles (filled : made.Filled place now) (opens : made.Opens target place)
    {naming : Naming} {table : Table} :
    (rewriteFiles target naming table).Ensures now (fun _ => made.Filled place)
      (made.Filled place) := by
  refine rewriteFiles_keeps (made.Filled place) filled.sound ?_ filled
  intro reached above name old fresh state found kept file
  obtain rfl := found.unique (filled.opens opens)
  refine kept.put_file (Tree.directory_above file (by simp))
    (kept.sound.wellFormed.legal file name (by simp)) (fun entry held => ?_) (by simp)
  obtain rfl := Option.some.inj (file.symm.trans held)
  rfl

end FileSystem
end Retarget
