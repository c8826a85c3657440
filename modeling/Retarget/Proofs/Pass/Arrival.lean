import Retarget.Proofs.Pass.Renaming
import Retarget.Proofs.Pass.Replacing
import Retarget.Proofs.Resolution.Lexical

/-!
After a copy has been made the target leads to a directory, however its path is written. Clearing
the way only takes things away, so the source, where it can still be listed, is the directory that it
was; the directory made for it stays on the way of the path until the end.
-/
namespace Retarget

namespace FileSystem

variable {files middle after : FileSystem} {path source target : Path} {place above : Place}
  {name : Bytes}

/-- A later state in which things are only missing. -/
structure Shrinks (files after : FileSystem) : Prop where
  sound : after.Sound
  cwd : after.cwd = files.cwd
  less : ∀ query entry, after.root.entry? query = some entry → files.root.entry? query = some entry

theorem Shrinks.refl (sound : files.Sound) : files.Shrinks files := ⟨sound, rfl, fun _ _ held => held⟩

theorem Shrinks.trans (first : files.Shrinks middle) (second : middle.Shrinks after) :
    files.Shrinks after :=
  ⟨second.sound, second.cwd.trans first.cwd, fun query entry held =>
    first.less query entry (second.less query entry held)⟩

theorem shrinks_drop (sound : files.Sound) (directory : files.root.entry? above = some .directory) :
    files.Shrinks (files.drop (above ++ [name])) :=
  ⟨sound.drop directory, rfl, fun _ _ held => less_drop directory held⟩

theorem shrinks_unlink (sound : files.Sound) (removed : files.unlink path = .ok after) :
    files.Shrinks after := by
  obtain ⟨above, name, _, names, _, _, rfl⟩ := unlink_ok removed
  exact shrinks_drop sound names.directory

theorem shrinks_removeTree (sound : files.Sound) (path : Path) :
    files.Shrinks (files.removeTree path).2 := by
  rcases files.removeTree_cases path with ⟨cause, failed⟩ | ⟨place, link, found, removed⟩ |
    ⟨place, inner, found, outcome⟩
  · rw [failed]
    exact .refl sound
  · obtain ⟨above, name, rfl, directory, _⟩ :=
      sound.of_leaf (Tree.entry?_eq_leaf.2 (lstat_iff.1 found).2.2)
    rw [removed]
    exact shrinks_drop sound directory
  · have held := (lstat_iff.1 found).2.2
    have emptied : files.Shrinks (files.emptied place) :=
      ⟨sound.emptied held, rfl, fun _ _ stands => less_emptied held stands⟩
    rcases outcome with removed | same
    · obtain ⟨above, name, names, _, whole⟩ := removeDirectory_ok removed
      rw [whole]
      exact emptied.trans (shrinks_drop emptied.sound names.directory)
    · rw [same]
      exact emptied

end FileSystem

namespace Pass

open Act FileSystem

variable {files : FileSystem} {source target directory : Path} {naming : Naming}

theorem clear_shrinks (sound : files.Sound) (target : Path) :
    (clear target).Ensures files (fun _ => files.Shrinks) files.Shrinks :=
  clear_ensures (fun _ => ⟨fun _ => shrinks_removeTree sound target,
      fun _ _ => shrinks_removeTree sound target⟩)
    (fun _ _ => ⟨fun _ removed => shrinks_unlink sound removed, .refl sound⟩) fun _ => .refl sound

/-! ## Copying takes nothing off a way -/

section Carrying

variable (keeps : FileSystem → Prop) {depth : Nat} {above : List Ancestor}

/-- What stays with every way that stays is kept by copying. -/
theorem copyFrom_carries
    (carries : ∀ now after : FileSystem, keeps now → now.root.WaysIn after.root →
      after.cwd = now.cwd → keeps after)
    (written : source.bytes ≠ []) (place : Place) (legal : ∀ name ∈ place, Tree.Legal name)
    (listed : Entry) (start : files.Sound ∧ keeps files) :
    (copyFrom source target depth above (source.descend place) listed).Ensures files
      (fun _ after => after.Sound ∧ keeps after) fun after => after.Sound ∧ keeps after := by
  refine copyFrom_keeps (fun now => now.Sound ∧ keeps now) written (fun _ held => held.1) ?_ ?_
    depth above place legal listed start
  · rintro now place _ ⟨sound, kept⟩
    have grows : now.Grows (now.makeDirectories (copyPath target place)).2 :=
      grows_of_makeDirectories
    exact ⟨sound.makeDirectories _, carries _ _ kept grows.ways grows.cwd⟩
  · rintro now place contents after _ ⟨sound, kept⟩ done
    obtain ⟨ways, cwd⟩ := sound.ways_of_write done
    exact ⟨sound.write done, carries _ _ kept ways cwd⟩

theorem copyEntries_carries
    (carries : ∀ now after : FileSystem, keeps now → now.root.WaysIn after.root →
      after.cwd = now.cwd → keeps after)
    (written : source.bytes ≠ []) {entries : List (Bytes × Entry)}
    (legal : ∀ item ∈ entries, Tree.Legal item.1) (start : files.Sound ∧ keeps files) :
    (copyEntries source target depth above source entries).Ensures files
      (fun _ after => after.Sound ∧ keeps after) fun after => after.Sound ∧ keeps after := by
  refine copyEntries_keeps (fun now => now.Sound ∧ keeps now) (fun name entry now named kept => ?_)
    legal start
  rw [← Path.descend_nil source, ← Path.descend_concat]
  exact copyFrom_carries keeps carries written _ (by simpa using named) entry kept

end Carrying

/-- A target that was made after a forecast of it is no path that is refused outright. -/
theorem accepted_of_made {now : FileSystem} {seen : Path} (written : target.bytes ≠ [])
    (foreseen : files.forecast target = .ok seen)
    (made : (now.makeDirectories (copyPath target [])).1 = .ok ()) : target.check = .ok () := by
  rcases makeDirectories_ok (bytes_copyPath_nil written) (by rw [← made]) with
    ⟨_, opens⟩ | ⟨absolute, idle⟩
  · cases checked : target.check with
    | ok _ => rfl
    | error cause =>
      obtain ⟨other, refused, _⟩ := check_copyPath_nil written checked
      rw [opens.accepted] at refused
      cases refused
  · rw [openSteps_copyPath_nil] at idle
    rw [copyPath, Path.isAbsolute_join target (Path.isAbsolute_place (by simp))] at absolute
    exact check_of_forecast absolute idle foreseen

/-- A copy that was made is a directory that the target leads to. -/
theorem copyTree_opens (sound : files.Sound) (written : target.bytes ≠ []) :
    (copyTree source target).Ensures files
      (fun _ after => after.Sound ∧ ∃ place, after.Opens target place) fun _ => True := by
  refine copyTree_ensures trivial fun _ _ isDirectory _ foreseen _ => ?_
  obtain ⟨opened, opens⟩ := isDirectory_iff.1 isDirectory
  have some := (Path.check_eq_ok_iff.1 opens.accepted).2.1
  refine Ensures.bind ((clear_shrinks sound target).imp (fun _ now shrinks => ?_) fun _ _ => trivial)
  refine Ensures.bind ((ensures_note _).2
    (Ensures.bind ((ensures_examine _).2 ⟨fun top listed => ?_, fun _ _ => trivial⟩)))
  have known : ∀ {entry}, followed now [] source top.2.entry = .ok entry → entry = .directory :=
    directory_of_followed opens shrinks.less shrinks.cwd (mapError_eq_ok.1 listed)
  refine copyFrom_ensures 4095 [] some (by simp) trivial (fun _ => trivial)
    (fun reached entries _ listing made => ?_) (fun _ _ _ seen => nomatch known seen)
    fun _ seen => nomatch known seen
  have accepted := accepted_of_made written foreseen made
  refine (copyEntries_carries _ ?_ some (fun _ member => legal_of_opened shrinks.sound listing member)
    ⟨shrinks.sound.makeDirectories _, opens_of_made accepted (by rw [← made])⟩).imp
      (fun _ _ held => held) fun _ _ => trivial
  rintro now after ⟨place, there⟩ ways cwd
  exact ⟨place, there.carry ways cwd⟩

/-- What every renaming of a file keeps, the pass keeps. -/
theorem renameFiles_invariant (keeps : FileSystem → Prop)
    (step : ∀ now source target after, keeps now → now.rename source target = .ok after →
      keeps after) (start : keeps files) :
    (renameFiles directory naming).Ensures files (fun _ => keeps) keeps := by
  refine Ensures.bind ((ensures_note _).2
    (Ensures.bind ((ensures_examine _).2 ⟨fun listed found => ?_, fun _ _ => start⟩)))
  exact ensures_mapM (fun _ _ => keeps) (fun _ _ _ now kept =>
    renameFile_ensures (fun after done => step now _ _ after kept done) kept) _ start

/-- Where there is no link, renaming a file makes none and takes no directory off the way of a
path. -/
theorem linkless_of_rename {after : FileSystem} {first second : Path}
    (linkless : files.root.Linkless []) (renamed : files.rename first second = .ok after) :
    after.root.Linkless [] ∧ files.root.WaysIn after.root ∧ after.cwd = files.cwd := by
  obtain ⟨place, name, elsewhere, other, content, names, otherNames, held,
    ⟨_, rfl⟩ | ⟨apart, free, rfl⟩⟩ := rename_ok renamed
  · exact ⟨linkless, fun _ _ held _ => held, rfl⟩
  · have entries := entry?_moved names.directory otherNames.directory held apart free
    refine ⟨fun query link there => ?_, fun query entry there passes => ?_, rfl⟩
    · rw [entries] at there
      split at there
      · rw [Option.some.inj there] at held
        exact linkless _ _ held
      · split at there
        · cases there
        · exact linkless _ _ there
    · have directory : entry = .directory := by
        cases entry with
        | directory => rfl
        | leaf content =>
          cases content with
          | link link => exact absurd there (linkless query link)
          | file contents => cases passes
          | special => cases passes
      subst directory
      rw [entries, if_neg, if_neg, there]
      · rintro rfl
        rw [held] at there
        cases there
      · rintro rfl
        exact free there

/-- Where there is no link, the directory that was gone through is there after renaming. -/
theorem renameFiles_opens (linkless : files.root.Linkless []) :
    (renameFiles directory naming).Ensures files
      (fun _ after => ∃ place, after.Opens directory place) fun _ => True := by
  by_cases opens : ∃ place, files.Opens directory place
  · obtain ⟨place, opens⟩ := opens
    refine (renameFiles_invariant (fun now => now.root.Linkless [] ∧
      now.Opens directory place) ?_ ⟨linkless, opens⟩).imp (fun _ _ held => ⟨place, held.2⟩)
        fun _ _ => trivial
    rintro now first second after ⟨none, there⟩ done
    obtain ⟨still, ways, cwd⟩ := linkless_of_rename none done
    exact ⟨still, there.carry ways cwd⟩
  · refine Ensures.bind ((ensures_note _).2
      (Ensures.bind ((ensures_examine _).2 ⟨fun listed found => ?_, fun _ _ => trivial⟩)))
    rw [filesBelow, if_neg fun directory => opens (isDirectory_iff.1 directory)] at found
    cases found

end Pass
end Retarget
