import Retarget.Proofs.Pass.Remaking

/-!
Copying a second time. After whatever was done to fill the directory at the place of a copy, copying
over it gives what it gave the first time: clearing the way leads back to a state from which the
target is made as it was made before, and from there on copying does the same again.
-/
namespace Retarget

namespace FileSystem

open Pass Act

variable {files before now goal made : FileSystem} {source target : Path}
  {place opened above top names : Place} {name : Bytes} {front tail : List Step}

/-! ## The way cleared -/

/-- The way for a copy is clear, and if the target can be made, it can be cleared and made again. -/
structure Cleared (before : FileSystem) (source target : Path) (opened place : Place)
    (now : FileSystem) : Prop where
  sound : now.Sound
  cwd : now.cwd = before.cwd
  less : ∀ query entry, now.root.entry? query = some entry → before.root.entry? query = some entry
  remade : ∀ entries, now.Sourced source opened entries →
    (now.makeDirectories (copyPath target [])).1 = .ok () →
    before.Remade source target place now (now.makeDirectories (copyPath target [])).2

/-- The way is clear once the name that the path takes at its end was taken out. -/
theorem Names.cleared (names : now.Names target above name)
    (bare : now.root.Bare (above ++ [name]))
    (plain : ∀ link, now.root.entry? (above ++ [name]) ≠ some (.leaf (.link link)))
    (stood : before.root.entry? (above ++ [name]) ≠ none)
    (prepared : before.Prepared target (above ++ [name]) (now.drop (above ++ [name])) goal) :
    before.Cleared source target opened (above ++ [name]) (now.drop (above ++ [name])) := by
  obtain ⟨inner, found⟩ := names.at?
  have dropped := Tree.entry?_remove_bare found bare
  refine ⟨prepared.confined.sound, prepared.confined.cwd, prepared.less, fun entries _ made =>
    prepared.remade names.accepted made stood ?_ ?_ (names.put_drop bare plain)⟩
  · rw [drop_root, dropped, if_pos rfl]
  · rw [drop_root, dropped, if_neg (by simp), names.directory]

theorem Opens.cleared (sound : files.Sound) (opens : files.Opens target place)
    (plain : ∀ place link, files.lstat target ≠ .ok (place, .leaf (.link link)))
    (direct : files.Direct target) (done : (files.removeTree target).1 = .ok ()) :
    files.Cleared source target opened place (files.removeTree target).2 := by
  obtain ⟨inner, found⟩ := Tree.entry?_eq_directory.1 opens.directory
  have less : ∀ query entry, (files.emptied place).root.entry? query = some entry →
      files.root.entry? query = some entry := fun _ _ held => less_emptied found held
  rcases opens.removeTree_ok plain done with removed | ⟨failed, same⟩
  · obtain ⟨above, name, names, empty, whole⟩ := removeDirectory_ok removed
    have stands := Tree.entry?_eq_directory.2 ⟨_, empty⟩
    have still := names.opens stands
    obtain rfl := (still.carry (fun query entry held _ => less query entry held) rfl).unique opens
    have steady : files.Steady target := fun other reaches => reaches.unique opens ▸ still
    have prepared := prepared_emptied sound opens steady (.inl removed)
    rw [whole] at prepared ⊢
    refine names.cleared (fun below more => ?_) (fun link held => ?_) ?_ prepared
    · rw [entry?_emptied found, if_pos ⟨List.prefix_append _ _, by simpa using more⟩]
    · rw [stands] at held
      cases held
    · simp [opens.directory]
  · rw [same]
    exact ⟨sound.emptied found, rfl, less,
      fun entries _ made => opens.remade sound direct plain failed made⟩

theorem clear_cleared (sound : files.Sound) (written : source.bytes ≠ [])
    (accepted : target.check = .ok ())
    (plain : ∀ place link, files.lstat target ≠ .ok (place, .leaf (.link link)))
    (direct : files.Direct target) (foretold : files.Foretold target top names front tail)
    (apart : Apart opened (top ++ names)) :
    (clear target).Ensures files
      (fun _ now => files.Cleared source target opened (top ++ names) now) fun _ => True := by
  refine clear_ensures (fun directory => ?_) (fun other present => ?_) fun absent => ?_
  · obtain ⟨place, opens⟩ := isDirectory_iff.1 directory
    obtain ⟨inner, stat⟩ := opens_iff.1 opens
    obtain ⟨rfl, rfl⟩ := foretold.of_stat stat
    rw [List.append_nil]
    exact ⟨opens.cleared sound plain direct, fun _ _ => trivial⟩
  · obtain ⟨place, node, stat⟩ := isPresent_iff.1 present
    obtain ⟨rfl, rfl⟩ := foretold.of_stat stat
    rw [List.append_nil]
    refine ⟨fun after removed => ?_, trivial⟩
    cases node with
    | leaf content =>
      obtain ⟨goal, prepared⟩ := prepared_unlinked sound stat plain removed
      obtain ⟨above, name, held, rfl, named, leaf, plainHere, rfl⟩ := unlink_here stat plain removed
      refine named.cleared (Tree.bare_of_leaf leaf) (fun link same => ?_) (by simp [leaf]) prepared
      rw [leaf] at same
      exact plainHere link (Entry.leaf.inj (Option.some.inj same))
    | branch inner =>
      have directory := isDirectory_iff.2 ⟨place, opens_iff.2 ⟨inner, stat⟩⟩
      rw [other] at directory
      cases directory
  · refine ⟨sound, rfl, fun _ _ held => held, fun entries sourced made =>
      foretold.remade sound (fun none => ?_) accepted apart written sourced made⟩
    obtain ⟨node, given⟩ := foretold.present none
    have present := isPresent_iff.2 ⟨top, node, given⟩
    rw [absent] at present
    cases present

/-! ## The copy made -/

/-- The target was made where it leads, and over whatever it is filled with, replacing gives what it
gave before. -/
structure Founded (before : FileSystem) (source target : Path) (opened place : Place)
    (made : FileSystem) : Prop where
  cwd : made.cwd = before.cwd
  origin : made.Opens source opened
  opens : made.Opens target place
  again : ∀ later, made.Filled place later →
    (replaceTree source target).outcome later = (replaceTree source target).outcome before

theorem replaceTree_founded (sound : files.Sound) (opens : files.Opens source opened)
    (accepted : target.check = .ok ())
    (plain : ∀ place link, files.lstat target ≠ .ok (place, .leaf (.link link)))
    (direct : files.Direct target) (foretold : files.Foretold target top names front tail)
    (apart : Apart opened (top ++ names)) :
    (replaceTree source target).Ensures files
      (fun _ now => ∃ made, files.Founded source target opened (top ++ names) made ∧
        made.Filled (top ++ names) now)
      fun _ => True := by
  have written := (Path.check_eq_ok_iff.1 opens.accepted).2.1
  rw [replaceTree_eq]
  refine Ensures.bind (((clear_cleared sound written accepted plain direct foretold apart).and
    (blind_clear target).ensures).imp (fun _ now held => ?_) fun _ _ => trivial)
  obtain ⟨cleared, emptied⟩ := held
  refine copyInto_ensures written opens cleared.less cleared.cwd fun entries sourced made => ?_
  have remade := cleared.remade entries sourced made
  have grows : now.Grows (now.makeDirectories (copyPath target [])).2 := grows_of_makeDirectories
  generalize (now.makeDirectories (copyPath target [])).2 = base at remade grows ⊢
  have founded : files.Founded source target opened (top ++ names) base := by
    refine ⟨grows.cwd.trans cleared.cwd, sourced.opens.carry grows.ways grows.cwd,
      remade.underway.opens, fun later filled => ?_⟩
    obtain ⟨other, first, second⟩ := remade.again later filled
    rw [replaceTree_eq, outcome_bind fun _ => blind_copyInto source target,
      outcome_bind fun _ => blind_copyInto source target, first, emptied]
    exact second
  exact ((Filled.refl remade.underway.sound remade.underway.linkless).copyEntries
    remade.underway.opens written fun item member =>
      legal_of_opened cleared.sound sourced.opened member).imp
    (fun _ _ filled => ⟨base, founded, filled⟩) fun _ _ => trivial

/-- Copying over what was made of a copy gives what copying gave. -/
theorem copyTree_again (standing : files.Standing) (opens : files.Opens source opened)
    (short : (files.absolute source).bytes.length < pathLimit) (written : target.bytes ≠ [])
    (targetShort : (files.absolute target).bytes.length < pathLimit)
    (plain : ∀ place link, files.lstat target ≠ .ok (place, .leaf (.link link)))
    (direct : files.Direct target) :
    (copyTree source target).Ensures files
      (fun _ now => ∃ (place : Place) (made : FileSystem), made.Opens target place ∧
        made.Filled place now ∧ ∀ later, made.Filled place later →
          (copyTree source target).outcome later = (copyTree source target).outcome files)
      fun _ => True := by
  refine copyTree_replaces standing opens short written targetShort trivial
    fun top names front tail accepted foretold apart replaces => ?_
  refine (replaceTree_founded standing.sound opens accepted plain direct foretold apart).imp ?_
    fun _ _ => trivial
  rintro _ now ⟨made, founded, filled⟩
  refine ⟨top ++ names, made, founded.opens, filled, fun later again => ?_⟩
  have cwd := again.cwd.trans founded.cwd
  have sourceLater := founded.origin.carry again.ways again.cwd
  have namesShort : ∀ name ∈ later.cwd, name.length ≤ nameLimit := cwd ▸ standing.short
  have same : ∀ path, later.absolute path = files.absolute path := fun path => by
    unfold absolute
    rw [cwd]
  obtain ⟨first, seen, firstPlace⟩ :=
    sourceLater.forecast again.sound namesShort (same source ▸ short)
  obtain ⟨second, foreseen, secondPlace⟩ :=
    (again.opens founded.opens).forecast again.sound namesShort (same target ▸ targetShort)
  rw [outcome_copyTree (isDirectory_iff.2 ⟨opened, sourceLater⟩) seen foreseen ?_,
    founded.again later again, replaces]
  exact (overlapping_eq_false_iff firstPlace secondPlace).2 apart

end FileSystem
end Retarget
