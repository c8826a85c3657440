import Retarget.Proofs.Pass.Vacating
import Retarget.Proofs.Run.Repetition

/-!
The source of a copy. The overlap of the two paths is looked at where they lead, but what is taken away
is what stands under the target as it is written: where that is a link inside the source, the source
loses the link and gets a directory in its stead. Any other target that does not lead through what is
replaced leaves the source as it is.
-/
namespace Retarget

namespace FileSystem

open Pass

variable {files now after : FileSystem} {source target : Path} {place reached : Place}

/-- A path that leads somewhere, though not where it ends: it ends at a link below a place. -/
def LinkBelow (files : FileSystem) (path : Path) (place : Place) : Prop :=
  ∃ reached link, files.isPresent path = true ∧
    files.lstat path = .ok (reached, .leaf (.link link)) ∧ place <+: reached

/-- A directory does not lie in a leaf, so a leaf that is not in it lies apart from it. -/
theorem apart_of_leaf (directory : files.root.entry? place = some .directory) {content : Leaf}
    (leaf : files.root.entry? reached = some (.leaf content)) (outside : ¬place <+: reached) :
    Apart place reached := by
  refine ⟨outside, ?_⟩
  rintro ⟨below, rfl⟩
  by_cases top : below = []
  · exact outside (by simp [top])
  · rw [Tree.bare_of_leaf leaf below top] at directory
    cases directory

/-- Where the place a target was forecast to lead to is apart from a directory, the copy will stand
apart from it, if the target is no link in the directory. -/
theorem Foretold.exists_lands {top names : Place} {front tail : List Step}
    (foretold : files.Foretold target top names front tail)
    (directory : files.root.entry? place = some .directory) (apart : Apart place (top ++ names))
    (outside : ¬files.LinkBelow target place) :
    ∃ reached, files.Lands target reached ∧ Apart place reached := by
  by_cases none : names = []
  · obtain ⟨_, stat⟩ := foretold.present none
    have present := isPresent_iff.2 ⟨_, _, stat⟩
    obtain ⟨reached, node, found⟩ := exists_lstat present
    refine ⟨reached, .there present found, ?_⟩
    by_cases linked : ∃ link, node = .leaf (.link link)
    · obtain ⟨link, rfl⟩ := linked
      exact apart_of_leaf directory (Tree.entry?_eq_leaf.2 (lstat_iff.1 found).2.2)
        fun below => outside ⟨reached, link, present, found, below⟩
    · obtain ⟨_, rfl⟩ := foretold.of_stat
        (stat_of_lstat found fun link same => linked ⟨link, same⟩)
      simpa [none] using apart
  · exact ⟨_, .missing none foretold, apart⟩

end FileSystem

namespace Pass

open Act FileSystem

variable {files : FileSystem} {source target : Path} {place reached : Place}

/-- A copy that replaces what stands under a target changes nothing beside the place where it stands,
and leaves the target leading there. -/
theorem replaceTree_lands (sound : files.Sound) (opens : files.Opens source place)
    (accepted : target.check = .ok ()) (grounded : files.Grounded target)
    (lands : files.Lands target reached) :
    (replaceTree source target).Ensures files (fun _ => files.Underway target reached)
      (files.Spares reached) :=
  replaceTree_stays opens accepted
    ((clear_frees sound grounded lands).imp (fun _ _ freed => freed) fun _ stopped => stopped.spares)

/-- A target that is no link in the source leaves the source as it was, however copying ends. -/
theorem copyTree_protects (standing : files.Standing) (opens : files.Opens source place)
    (short : (files.absolute source).bytes.length < pathLimit) (written : target.bytes ≠ [])
    (targetShort : (files.absolute target).bytes.length < pathLimit)
    (grounded : files.Grounded target) (outside : ¬files.LinkBelow target place) :
    (copyTree source target).Ensures files (fun _ => files.Keeps place) (files.Keeps place) := by
  have unchanged : files.Keeps place files := ⟨standing.sound, fun _ _ => rfl⟩
  refine copyTree_replaces standing opens short written targetShort unchanged
    fun top names front tail accepted foretold apart _ => ?_
  obtain ⟨reached, lands, beside⟩ := foretold.exists_lands opens.directory apart outside
  exact (replaceTree_lands standing.sound opens accepted grounded lands).imp
    (fun _ _ underway => underway.toSpares.keeps beside) fun _ spared => spared.keeps beside

/-- A copy that succeeds has put a directory in the place of what stood under its target. -/
theorem copyTree_supplants (standing : files.Standing) (opens : files.Opens source place)
    (short : (files.absolute source).bytes.length < pathLimit) (written : target.bytes ≠ [])
    (targetShort : (files.absolute target).bytes.length < pathLimit)
    (grounded : files.Grounded target) {node : Node} (present : files.isPresent target = true)
    (found : files.lstat target = .ok (reached, node)) :
    (copyTree source target).Ensures files
      (fun _ now => now.root.entry? reached = some .directory) fun _ => True := by
  refine copyTree_replaces standing opens short written targetShort trivial
    fun _ _ _ _ accepted _ _ _ => ?_
  exact (replaceTree_lands standing.sound opens accepted grounded (.there present found)).imp
    (fun _ _ underway => underway.opens.directory) fun _ _ => trivial

/-- Copying to a target that does not lead through what it replaces, with both paths below the limit
as whole paths, leaves every entry of the source as it was, whether it succeeds or fails, unless the
target is a link in the source that leads somewhere; and a copy that succeeds does so exactly then. -/
theorem copyTree_keeps_source (standing : files.Standing) (opens : files.Opens source place)
    (short : (files.absolute source).bytes.length < pathLimit) (written : target.bytes ≠ [])
    (targetShort : (files.absolute target).bytes.length < pathLimit)
    (grounded : files.Grounded target) (log : List Event) :
    (¬files.LinkBelow target place → ∀ query, place <+: query →
      ((copyTree source target).runOn ⟨files, log⟩).2.files.root.entry? query =
        files.root.entry? query) ∧
    ∀ count after, (copyTree source target).runOn ⟨files, log⟩ = (.ok count, after) →
      ((∀ query, place <+: query → after.files.root.entry? query = files.root.entry? query) ↔
        ¬files.LinkBelow target place) := by
  have protects := copyTree_protects standing opens short written targetShort grounded
  refine ⟨fun outside => ((protects outside).always log).kept, fun count after ran =>
    ⟨fun kept => ?_, fun outside => ((protects outside).ok ran).kept⟩⟩
  rintro ⟨reached, link, present, found, below⟩
  have made := (copyTree_supplants standing opens short written targetShort grounded present
    found).ok ran
  rw [kept reached below, Tree.entry?_eq_leaf.2 (lstat_iff.1 found).2.2] at made
  cases made

/-- A link outside the source is replaced, and the source stays. -/
theorem copyTree_keeps_source_linked :
    ∃ count after, (copyTree ⟨utf8 "b/b"⟩ ⟨utf8 "a/l"⟩).runOn ⟨LinkedTrees.before, []⟩ =
        (.ok count, after) ∧
      after.files.root.entry? [utf8 "a", utf8 "l"] = some .directory ∧
      ∀ query, [utf8 "b", utf8 "b"] <+: query →
        after.files.root.entry? query = LinkedTrees.before.root.entry? query := by
  have found : LinkedTrees.before.lstat ⟨utf8 "a/l"⟩ =
      .ok ([utf8 "a", utf8 "l"], .leaf (.link ⟨utf8 "../b/o"⟩)) := by rfl
  have grounded : LinkedTrees.before.Grounded ⟨utf8 "a/l"⟩ := by
    rintro place node _ also
    obtain ⟨rfl, rfl⟩ := Prod.mk.inj (Except.ok.inj (found.symm.trans also))
    decide +kernel
  obtain ⟨count, after, ran, made⟩ := yields_iff.1 (by decide +kernel :
    (copyTree ⟨utf8 "b/b"⟩ ⟨utf8 "a/l"⟩).yields ⟨LinkedTrees.before, []⟩ (fun _ after =>
      after.files.root.entry? [utf8 "a", utf8 "l"] = some .directory) = true)
  refine ⟨count, after, ran, of_decide_eq_true made, ?_⟩
  refine ((copyTree_keeps_source LinkedTrees.standing
    (by decide +kernel : LinkedTrees.before.Opens _ [utf8 "b", utf8 "b"]) (by decide) (by decide)
    (by decide) grounded []).2 count after ran).2 ?_
  rintro ⟨place, link, _, also, below⟩
  obtain ⟨rfl, _⟩ := Prod.mk.inj (Except.ok.inj (found.symm.trans also))
  exact absurd below (by decide)

/-- A target that is a link in the source leads out of it and is taken for a place beside it, but
what is replaced is the link. A target that leads through a link in what is taken away, made
again, may lead into the source. -/
theorem copyTree_reaches_into_source :
    (∃ count after, (copyTree ⟨utf8 "a"⟩ ⟨utf8 "a/l"⟩).runOn ⟨LinkedTrees.before, []⟩ =
        (.ok count, after) ∧
      LinkedTrees.before.Opens ⟨utf8 "a"⟩ [utf8 "a"] ∧
      LinkedTrees.before.root.entry? [utf8 "a", utf8 "l"] =
        some (.leaf (.link ⟨utf8 "../b/o"⟩)) ∧
      after.files.root.entry? [utf8 "a", utf8 "l"] = some .directory) ∧
    ∃ count after, (copyTree ⟨utf8 "b/b"⟩ ⟨utf8 "b/t/m/../../b/t"⟩).runOn
        ⟨LinkedTrees.before, []⟩ = (.ok count, after) ∧
      LinkedTrees.before.Opens ⟨utf8 "b/b"⟩ [utf8 "b", utf8 "b"] ∧
      LinkedTrees.before.root.entry? [utf8 "b", utf8 "b", utf8 "t", utf8 "t"] = none ∧
      after.files.root.entry? [utf8 "b", utf8 "b", utf8 "t", utf8 "t"] = some .directory := by
  constructor
  · obtain ⟨count, after, ran, made⟩ := yields_iff.1 (by decide +kernel :
      (copyTree ⟨utf8 "a"⟩ ⟨utf8 "a/l"⟩).yields ⟨LinkedTrees.before, []⟩ (fun _ after =>
        after.files.root.entry? [utf8 "a", utf8 "l"] = some .directory) = true)
    exact ⟨count, after, ran, by decide +kernel, by decide, of_decide_eq_true made⟩
  · obtain ⟨count, after, ran, made⟩ := yields_iff.1 (by decide +kernel :
      (copyTree ⟨utf8 "b/b"⟩ ⟨utf8 "b/t/m/../../b/t"⟩).yields ⟨LinkedTrees.before, []⟩
        (fun _ after => after.files.root.entry? [utf8 "b", utf8 "b", utf8 "t", utf8 "t"] =
          some .directory) = true)
    exact ⟨count, after, ran, by decide +kernel, by decide, of_decide_eq_true made⟩

end Pass

end Retarget
