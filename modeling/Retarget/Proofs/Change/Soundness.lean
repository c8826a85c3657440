import Retarget.Proofs.Change.Directories
import Retarget.Proofs.Tree.Walk

/-!
What every file system has and every operation keeps: names are legal and stand once in their
directory, and no link target holds a zero byte.
-/
namespace Retarget

/-- Names in a link target are bounded by slashes and hold no zero byte, as everywhere else. -/
def Tree.LinksAccepted (tree : Tree) : Prop :=
  ∀ place target, tree.entry? place = some (.leaf (.link target)) → 0 ∉ target.bytes

theorem Tree.linksAccepted_of_walk {tree : Tree} (wellFormed : tree.WellFormed)
    (accepted : ∀ visit ∈ tree.walk, ∀ target, visit.2 = .leaf (.link target) → 0 ∉ target.bytes) :
    tree.LinksAccepted := by
  intro place target held
  by_cases top : place = []
  · simp [top] at held
  · exact accepted (place, _) ((mem_walk wellFormed).2 ⟨top, held⟩) target rfl

structure FileSystem.Sound (files : FileSystem) : Prop where
  wellFormed : files.root.WellFormed
  links : files.root.LinksAccepted

/-! ## Deciding whether a file system is sound -/

instance (name : Bytes) : Decidable (Tree.Legal name) :=
  inferInstanceAs (Decidable (_ ∧ _))

instance Tree.decidableWellFormed : (tree : Tree) → Decidable tree.WellFormed
  | .empty => .isTrue trivial
  | .leaf name _ rest =>
    have := decidableWellFormed rest
    inferInstanceAs (Decidable (Legal name ∧ rest.find? name = none ∧ rest.WellFormed))
  | .branch name inner rest =>
    have := decidableWellFormed inner
    have := decidableWellFormed rest
    inferInstanceAs (Decidable
      (Legal name ∧ rest.find? name = none ∧ inner.WellFormed ∧ rest.WellFormed))

def Entry.linkAccepted : Entry → Bool
  | .leaf (.link target) => 0 ∉ target.bytes
  | _ => true

theorem FileSystem.sound_iff {files : FileSystem} : files.Sound ↔
    files.root.WellFormed ∧ ∀ visit ∈ files.root.walk, visit.2.linkAccepted = true := by
  constructor
  · rintro ⟨wellFormed, links⟩
    refine ⟨wellFormed, fun visit member => ?_⟩
    have held := ((Tree.mem_walk wellFormed).1 member).2
    unfold Entry.linkAccepted
    split
    · rename_i target same
      exact decide_eq_true (links visit.1 target (same ▸ held))
    · rfl
  · rintro ⟨wellFormed, accepted⟩
    refine ⟨wellFormed, Tree.linksAccepted_of_walk wellFormed fun visit member target same => ?_⟩
    have given := accepted visit member
    rw [same] at given
    exact of_decide_eq_true given

instance (files : FileSystem) : Decidable files.Sound :=
  decidable_of_iff _ FileSystem.sound_iff.symm

/-- A name found free at the end of a path is legal, whether the path or a link on the way gives it.
-/
theorem Leads.legal {tree : Tree} (links : tree.LinksAccepted) {follow : Bool} {budget : Nat}
    {place : Place}
    {steps : List Step} {directory : Place} {name : Bytes}
    (led : Leads tree follow budget place steps (.vacant directory name))
    (legal : ∀ other, .into other ∈ steps → Tree.Legal other) : Tree.Legal name := by
  generalize ended : Spot.vacant directory name = spot at led
  induction led with
  | arrived => cases ended
  | stay _ _ ih => exact ih (fun other member => legal other (List.mem_cons_of_mem _ member)) ended
  | up _ _ ih => exact ih (fun other member => legal other (List.mem_cons_of_mem _ member)) ended
  | into _ _ _ _ _ ih =>
    exact ih (fun other member => legal other (List.mem_cons_of_mem _ member)) ended
  | vacant =>
    cases ended
    exact legal name (by simp)
  | atLink => cases ended
  | @through _ _ _ target rest _ _ _ held _ _ _ ih =>
    refine ih (fun other member => ?_) ended
    rcases List.mem_append.1 member with inTarget | later
    · refine Path.legal_of_mem_openSteps (links _ _ held) ?_
      unfold Path.steps at inTarget
      rcases List.mem_append.1 inTarget with named | closing
      · exact named
      · split at closing <;> simp at closing
    · exact legal other (List.mem_cons_of_mem _ later)

namespace FileSystem

variable {files after : FileSystem} {path : Path}

theorem not_mem_of_check (accepted : path.check = .ok ()) : 0 ∉ path.bytes := by
  intro zero
  simp [Path.check, zero] at accepted

theorem Names.legal {place : Place} {name : Bytes} (names : files.Names path place name) :
    Tree.Legal name := by
  obtain ⟨before, steps, _⟩ := names.steps
  exact Path.legal_of_mem_openSteps (not_mem_of_check names.accepted) (by simp [steps])

theorem Names.at? {place : Place} {name : Bytes} (names : files.Names path place name) :
    ∃ inner, files.root.at? place = some (.branch inner) :=
    Tree.entry?_eq_directory.1 names.directory

theorem Sound.put (sound : files.Sound) {place : Place} {name : Bytes}
    (directory : files.root.entry? place = some .directory)
    (legal : Tree.Legal name) {node : Node} (formed : node.WellFormed)
    (links : ∀ below target, node.entry? below = some (.leaf (.link target)) → 0 ∉ target.bytes) :
    (files.put (place ++ [name]) node).Sound := by
  refine ⟨sound.wellFormed.set legal formed, fun query target held => ?_⟩
  obtain ⟨inner, found⟩ := Tree.entry?_eq_directory.1 directory
  rw [put_root] at held
  by_cases inside : place ++ [name] <+: query
  · obtain ⟨below, rfl⟩ := inside
    rw [Tree.entry?_set_inside found] at held
    exact links below target held
  · rw [Tree.entry?_set_outside found inside] at held
    exact sound.links query target held

theorem Sound.put_leaf (sound : files.Sound) {place : Place} {name : Bytes}
    (directory : files.root.entry? place = some .directory) (legal : Tree.Legal name)
    {content : Leaf}
    (links : ∀ target, content = .link target → 0 ∉ target.bytes) :
    (files.put (place ++ [name]) (.leaf content)).Sound := by
  refine sound.put directory legal trivial fun below target held => ?_
  rw [Node.entry?_leaf] at held
  split at held
  · exact links target (by simpa using held)
  · cases held

theorem Sound.put_directory (sound : files.Sound) {place : Place} {name : Bytes}
    (directory : files.root.entry? place = some .directory) (legal : Tree.Legal name) :
    (files.put (place ++ [name]) (.branch .empty)).Sound := by
  refine sound.put directory legal trivial fun below target held => ?_
  rw [Node.entry?_branch, Tree.entry?_empty] at held
  split at held <;> cases held

theorem Sound.drop (sound : files.Sound) {place : Place} {name : Bytes}
    (directory : files.root.entry? place = some .directory) :
    (files.drop (place ++ [name])).Sound :=
  ⟨sound.wellFormed.remove _,
    fun query target held => sound.links query target (less_drop directory held)⟩

theorem Sound.emptied (sound : files.Sound) {place : Place} {inner : Tree}
    (found : files.root.at? place = some (.branch inner)) :
    (files.emptied place).Sound :=
  ⟨sound.wellFormed.modify fun _ _ => trivial,
    fun query target held => sound.links query target (less_emptied found held)⟩

/-! ## Operations -/

theorem Sound.makeDirectory (sound : files.Sound) (made : files.makeDirectory path = .ok after) :
    after.Sound := by
  obtain ⟨place, name, names, _, rfl⟩ := create_ok made
  exact sound.put_directory names.directory names.legal

theorem Sound.unlink (sound : files.Sound) (removed : files.unlink path = .ok after) :
    after.Sound := by
  obtain ⟨place, name, content, names, _, _, rfl⟩ := unlink_ok removed
  exact sound.drop names.directory

theorem Sound.removeDirectory (sound : files.Sound)
    (removed : files.removeDirectory path = .ok after) : after.Sound := by
  obtain ⟨place, name, names, _, rfl⟩ := removeDirectory_ok removed
  exact sound.drop names.directory

/-- A leaf stands under a name in a directory, both of which its place tells. -/
theorem Sound.of_leaf (sound : files.Sound) {place : Place} {content : Leaf}
    (held : files.root.entry? place = some (.leaf content)) :
    ∃ above name, place = above ++ [name] ∧ files.root.entry? above = some .directory ∧
    Tree.Legal name := by
  cases List.eq_nil_or_concat' place with
  | inl top => simp [top] at held
  | inr below =>
    obtain ⟨above, name, rfl⟩ := below
    exact ⟨above, name, rfl, Tree.directory_above held (by simp),
      sound.wellFormed.legal held name (by simp)⟩

theorem Sound.write (sound : files.Sound) {contents : Bytes}
    (written : files.write path contents = .ok after) : after.Sound := by
  obtain ⟨accepted, spot, leads, made | replaced | special⟩ := write_ok written
  · obtain ⟨directory, name, rfl, rfl⟩ := made
    have legal := leads.legal sound.links fun other =>
      Path.legal_of_mem_openSteps (not_mem_of_check accepted)
    exact sound.put_leaf leads.of_vacant.1 legal (by simp)
  · obtain ⟨place, before, rfl, held, rfl⟩ := replaced
    obtain ⟨above, name, rfl, directory, legal⟩ := sound.of_leaf held
    exact sound.put_leaf directory legal (by simp)
  · obtain ⟨_, _, _, _, _, rfl⟩ := special
    exact sound

/-- What writing changes: the file is where the path leads, free or a file before, or nothing
happens because something else is there. -/
theorem Sound.write_cases (sound : files.Sound) {contents : Bytes}
    (written : files.write path contents = .ok after) :
    ∃ spot, Leads files.root true linkLimit (path.start files.cwd) path.openSteps spot ∧
      ((after = files ∧ ∃ content, files.root.entry? spot.place = some (.leaf content) ∧ ∀ old,
        content ≠ .file old) ∨
        (∀ entry, files.root.entry? spot.place = some entry → ∃ old, entry = .leaf (.file old)) ∧
        after.cwd = files.cwd ∧
          ∀ query, after.root.entry? query =
            if query = spot.place then some (.leaf (.file contents)) else
                files.root.entry? query) := by
  obtain ⟨_, spot, leads, made | replaced | special⟩ := write_ok written
  · obtain ⟨directory, name, rfl, rfl⟩ := made
    obtain ⟨directory, free⟩ := leads.of_vacant
    refine ⟨_, leads, .inr
      ⟨fun entry held => ?_, rfl, entry?_put_leaf directory (by simp [free])⟩⟩
    rw [Spot.place, free] at held
    cases held
  · obtain ⟨place, old, rfl, held, rfl⟩ := replaced
    refine ⟨_, leads, .inr ⟨fun entry same => ⟨old, ?_⟩, rfl, ?_⟩⟩
    · rw [Spot.place, held] at same
      exact (Option.some.inj same).symm
    · obtain ⟨above, name, rfl, directory, _⟩ := sound.of_leaf held
      exact entry?_put_leaf directory (by simp [held])
  · obtain ⟨place, content, rfl, held, other, rfl⟩ := special
    exact ⟨_, leads, .inl ⟨rfl, content, held, other⟩⟩

/-- Writing takes no directory and no link away. -/
theorem Sound.ways_of_write (sound : files.Sound) {contents : Bytes}
    (written : files.write path contents = .ok after) :
    files.root.WaysIn after.root ∧ after.cwd = files.cwd := by
  obtain ⟨spot, _, ⟨rfl, _⟩ | ⟨idle, cwd, entries⟩⟩ := sound.write_cases written
  · exact ⟨fun _ _ held _ => held, rfl⟩
  · refine ⟨fun query entry held passable => ?_, cwd⟩
    rw [entries, if_neg, held]
    rintro rfl
    obtain ⟨old, rfl⟩ := idle entry held
    cases passable

theorem Sound.rename (sound : files.Sound) {target : Path}
    (renamed : files.rename path target = .ok after) : after.Sound := by
  obtain ⟨place, name, elsewhere, other, content, names, otherNames, held, same | moved⟩ :=
    rename_ok renamed
  · exact same.2 ▸ sound
  · obtain ⟨_, _, rfl⟩ := moved
    have dropped : (files.drop (place ++ [name])).Sound := sound.drop names.directory
    obtain ⟨inner, found⟩ := names.at?
    have still : (files.drop (place ++ [name])).root.entry? elsewhere = some .directory := by
      rw [drop_root, Tree.entry?_remove_bare found (Tree.bare_of_leaf held), if_neg]
      · exact otherNames.directory
      · rintro rfl
        rw [otherNames.directory] at held
        cases held
    refine dropped.put_leaf still otherNames.legal ?_
    rintro target rfl
    exact sound.links _ _ held

theorem Sound.removeTree (sound : files.Sound) (path : Path) : (files.removeTree path).2.Sound := by
  rcases removeTree_cases path with
      ⟨cause, same⟩ | ⟨place, target, found, whole⟩ | ⟨place, inner, found, removed | kept⟩
  · rwa [same]
  · rw [whole]
    obtain ⟨_, _, held⟩ := lstat_iff.1 found
    obtain ⟨above, name, rfl, directory, _⟩ := sound.of_leaf (Tree.entry?_eq_leaf.2 held)
    exact sound.drop directory
  · exact (sound.emptied (lstat_iff.1 found).2.2).removeDirectory removed
  · rw [kept]
    exact sound.emptied (lstat_iff.1 found).2.2

theorem Sound.makeDirectories (sound : files.Sound) (path : Path) :
    (files.makeDirectories path).2.Sound :=
  makeDirectories_keeps FileSystem.Sound (fun _ _ _ _ held made => held.makeDirectory made) sound

/-! ## The working directory -/

/-- A later state in which names, links and the working directory are in order as they were. -/
structure Continues (before now : FileSystem) : Prop where
  sound : now.Sound
  cwd : now.cwd = before.cwd

section Continues

variable {before now after : FileSystem} {path : Path}

theorem Continues.refl (sound : before.Sound) : before.Continues before := ⟨sound, rfl⟩

theorem Continues.makeDirectory (continues : before.Continues now)
    (made : now.makeDirectory path = .ok after) : before.Continues after := by
  refine ⟨continues.sound.makeDirectory made, ?_⟩
  obtain ⟨_, _, _, _, rfl⟩ := create_ok made
  exact continues.cwd

theorem Continues.makeDirectories (continues : before.Continues now) (path : Path) :
    before.Continues (now.makeDirectories path).2 :=
  makeDirectories_keeps before.Continues (fun _ _ _ _ held made => held.makeDirectory made) continues

theorem Continues.unlink (continues : before.Continues now)
    (removed : now.unlink path = .ok after) : before.Continues after := by
  refine ⟨continues.sound.unlink removed, ?_⟩
  obtain ⟨_, _, _, _, _, _, rfl⟩ := unlink_ok removed
  exact continues.cwd

theorem Continues.removeTree (continues : before.Continues now) (path : Path) :
    before.Continues (now.removeTree path).2 := by
  refine ⟨continues.sound.removeTree path, ?_⟩
  rcases removeTree_cases path with
      ⟨cause, same⟩ | ⟨place, target, found, whole⟩ | ⟨place, inner, found, removed | kept⟩
  · rw [same, continues.cwd]
  · rw [whole]
    exact continues.cwd
  · obtain ⟨_, _, _, _, whole⟩ := removeDirectory_ok removed
    rw [whole]
    exact continues.cwd
  · rw [kept]
    exact continues.cwd

theorem Continues.write (continues : before.Continues now) {contents : Bytes}
    (written : now.write path contents = .ok after) : before.Continues after :=
  ⟨continues.sound.write written,
    (continues.sound.ways_of_write written).2.trans continues.cwd⟩

theorem Continues.rename (continues : before.Continues now) {target : Path}
    (renamed : now.rename path target = .ok after) : before.Continues after := by
  refine ⟨continues.sound.rename renamed, ?_⟩
  obtain ⟨_, _, _, _, _, _, _, _, ⟨_, rfl⟩ | ⟨_, _, rfl⟩⟩ := rename_ok renamed
  · exact continues.cwd
  · exact continues.cwd

end Continues

end FileSystem
end Retarget
