import Retarget.Proofs.Pass.Following
import Retarget.Proofs.Run.Repetition

/-!
A copy is what its source was. Whatever stood where the copy is made, and whatever links the source
holds, copying that succeeds leaves there what the source led to under each name, if neither the
source nor a link in it comes by the copy. A target that leads through what it replaces is the
exception: what is on its way is made again and stays.
-/
namespace Retarget

open Act FileSystem

namespace Pass

variable {files : FileSystem} {source target : Path} {log : List Event} {count : Nat}
  {after : Session}

/-- A copy to a target that is no link and does not lead through what it replaces has exactly the
directories and the regular files that names lead to from the source, if nothing in the source comes
by the copy. The files are counted, and outside the copy nothing changes but that directories above it
that were missing are made. -/
theorem copyTree_reproduces (standing : files.Standing) (written : target.bytes ≠ [])
    (plain : ∀ place link, files.lstat target ≠ .ok (place, .leaf (.link link)))
    (steady : files.Steady target)
    (undisturbed : ∀ copy, files.Lands target copy → files.Undisturbed source copy)
    (ran : (copyTree source target).runOn ⟨files, log⟩ = (.ok count, after)) :
    ∃ copy, files.Lands target copy ∧ after.files.Opens target copy ∧
      files.Reproduces source copy after.files ∧ (files.filesFrom source).encard = count := by
  obtain ⟨_, place, there⟩ := (copyTree_opens standing.sound written).ok ran
  have accepted := there.accepted
  refine (copyTree_ensures trivial fun first second isDirectory _ foreseen _ => ?_ :
    (copyTree source target).Ensures files (fun count after => ∃ copy, files.Lands target copy ∧
      after.Opens target copy ∧ files.Reproduces source copy after ∧
        (files.filesFrom source).encard = count) fun _ => True).ok ran
  obtain ⟨opened, opens⟩ := isDirectory_iff.1 isDirectory
  obtain ⟨copy, lands⟩ := standing.exists_lands accepted foreseen
  exact (replaceTree_follows standing opens accepted plain steady lands
    (undisturbed copy lands)).imp (fun _ _ done => ⟨copy, lands, done⟩) fun _ _ => trivial

end Pass

namespace LinkedTrees

theorem entry?_source {name : Bytes} {entry : Entry}
    (held : before.root.entry? [utf8 "a", name] = some entry) :
    name = utf8 "D" ∧ entry = .leaf (.file (utf8 "1")) ∨
      name = utf8 "l" ∧ entry = .leaf (.link ⟨utf8 "../b/o"⟩) := by
  have visited := (Tree.mem_walk wellFormed).2 ⟨by simp, held⟩
  rw [walk_before] at visited
  have apart : utf8 "a" ≠ utf8 "b" := by decide
  simpa [apart] using visited

theorem entry?_linked {name : Bytes} {entry : Entry}
    (held : before.root.entry? [utf8 "b", utf8 "o", name] = some entry) :
    entry = .leaf (.file (utf8 "3")) := by
  have visited := (Tree.mem_walk wellFormed).2 ⟨by simp, held⟩
  rw [walk_before] at visited
  have first : utf8 "b" ≠ utf8 "a" := by decide
  have second : utf8 "o" ≠ utf8 "b" := by decide
  have third : utf8 "o" ≠ utf8 "t" := by decide
  simp only [List.mem_cons, Prod.mk.injEq, List.cons.injEq, first, second, third, false_and,
    and_false, List.cons_ne_nil, reduceCtorEq, false_or, List.not_mem_nil, or_false, true_and] at visited
  exact visited.2

/-- Names from the source that end at a link lead there from the directory. -/
theorem leads_of_lstat {names reached : Place} {link : Path}
    (legal : ∀ name ∈ names, Tree.Legal name)
    (found : before.lstat ((⟨utf8 "a"⟩ : Path).descend names) =
      .ok (reached, .leaf (.link link))) :
    Leads before.root false linkLimit [utf8 "a"] (names.map .into) (.found reached) ∧
      before.root.entry? reached = some (.leaf (.link link)) := by
  obtain ⟨_, led, held⟩ := lstat_iff.1 found
  have opened : ((⟨utf8 "a"⟩ : Path).descend names).endsWithSlash = false := by
    rcases List.eq_nil_or_concat' names with rfl | ⟨above, last, rfl⟩
    · decide
    · rw [Path.descend_concat]
      exact Path.endsWithSlash_joinName _ (legal last (by simp))
  have steps : (⟨utf8 "a"⟩ : Path).openSteps = [.into (utf8 "a")] := by decide
  have start : (⟨utf8 "a"⟩ : Path).start before.cwd = [] := by decide
  rw [Path.steps, opened, Path.openSteps_descend _ legal, Path.start_descend _ legal, steps,
    start, if_neg (by decide), List.append_nil, List.singleton_append,
    Leads.into_directory_iff (by decide)] at led
  exact ⟨led.2, Tree.entry?_eq_leaf.2 held⟩

/-- Names from the source that end at a link are those of the link in the source. -/
theorem names_of_link {names reached : Place} {link : Path}
    (legal : ∀ name ∈ names, Tree.Legal name)
    (found : before.lstat ((⟨utf8 "a"⟩ : Path).descend names) =
      .ok (reached, .leaf (.link link))) : names = [utf8 "l"] := by
  obtain ⟨led, linked⟩ := leads_of_lstat legal found
  cases names with
  | nil =>
    cases led
    cases linked
  | cons first rest =>
    rw [List.map_cons] at led
    obtain ⟨entry, stands⟩ := Option.ne_none_iff_exists'.1 led.stands
    rcases entry?_source stands with ⟨_, rfl⟩ | ⟨rfl, rfl⟩
    · rw [led.found_file stands, stands] at linked
      cases linked
    · generalize more : rest.map Step.into = left at led
      cases led with
      | into _ _ held plain => exact absurd (Option.some.inj (held.symm.trans stands)) (plain _)
      | atLink => rw [List.map_eq_nil_iff.1 more]
      | through _ _ held go _ onward =>
        obtain rfl := Leaf.link.inj (Entry.leaf.inj (Option.some.inj (stands.symm.trans held)))
        have climbs : (⟨utf8 "../b/o"⟩ : Path).steps =
          [.up, .into (utf8 "b"), .into (utf8 "o")] := by decide
        have here : (⟨utf8 "../b/o"⟩ : Path).start [utf8 "a"] = [utf8 "a"] := by decide
        rw [climbs, here] at onward
        cases onward with
        | up _ onward =>
          replace onward := ((Leads.into_directory_iff (by decide)).1 onward).2
          replace onward := ((Leads.into_directory_iff (by decide)).1 onward).2
          cases rest with
          | nil => exact absurd ⟨more.symm, rfl⟩ go
          | cons second others =>
            rw [← more, List.map_cons] at onward
            obtain ⟨entry, stands⟩ := Option.ne_none_iff_exists'.1 onward.stands
            obtain rfl := entry?_linked stands
            rw [onward.found_file stands, stands] at linked
            cases linked

theorem undisturbed : before.Undisturbed ⟨utf8 "a"⟩ [utf8 "b", utf8 "b"] := by
  refine ⟨by decide, fun names reached link legal found => ?_⟩
  obtain rfl := names_of_link legal found
  decide

/-- What replaces something stands where that was found. -/
theorem lands_eq {target : Path} {copy place : Place} (lands : before.Lands target copy)
    (present : before.isPresent target = true)
    (found : (before.lstat target).toOption.map (·.1) = some place) : copy = place := by
  cases lands with
  | missing some foretold =>
    rw [foretold.absent some] at present
    cases present
  | there _ also =>
    rw [also] at found
    exact Option.some.inj found

end LinkedTrees

namespace Pass

theorem copyTree_reproduces_linked :
    ∃ count after, (copyTree ⟨utf8 "a"⟩ ⟨utf8 "b/b"⟩).runOn ⟨LinkedTrees.before, []⟩ =
        (.ok count, after) ∧
      after.files.root.entry? [utf8 "b", utf8 "b", utf8 "l", utf8 "E"] =
        some (.leaf (.file (utf8 "3"))) ∧
      LinkedTrees.before.Reproduces ⟨utf8 "a"⟩ [utf8 "b", utf8 "b"] after.files ∧
      (LinkedTrees.before.filesFrom ⟨utf8 "a"⟩).encard = count := by
  obtain ⟨count, after, ran, copied⟩ := yields_iff.1 (by decide +kernel :
    (copyTree ⟨utf8 "a"⟩ ⟨utf8 "b/b"⟩).yields ⟨LinkedTrees.before, []⟩ (fun _ after =>
      after.files.root.entry? [utf8 "b", utf8 "b", utf8 "l", utf8 "E"] =
        some (.leaf (.file (utf8 "3")))) = true)
  refine ⟨count, after, ran, of_decide_eq_true copied, ?_⟩
  have steady : LinkedTrees.before.Steady ⟨utf8 "b/b"⟩ := by
    intro place opens
    obtain rfl := opens.unique (by decide +kernel : LinkedTrees.before.Opens _ [utf8 "b", utf8 "b"])
    decide +kernel
  have only : ∀ copy, LinkedTrees.before.Lands ⟨utf8 "b/b"⟩ copy → copy = [utf8 "b", utf8 "b"] :=
    fun copy lands => LinkedTrees.lands_eq lands (by decide +kernel) (by decide +kernel)
  obtain ⟨copy, lands, _, reproduces⟩ := copyTree_reproduces LinkedTrees.standing (by decide)
    (LinkedTrees.plain (by decide +kernel)) steady
    (fun copy lands => only copy lands ▸ LinkedTrees.undisturbed) ran
  exact only copy lands ▸ reproduces

/-- A target that leads through a directory in what it replaces is made again with that directory,
which the source does not have. The empty path leads nowhere, so nothing is taken away for it, and the
copy comes to what is in the working directory. -/
theorem copyTree_leaves_directory_on_way :
    LinkedTrees.before.Standing ∧
    (∀ place link, LinkedTrees.before.lstat ⟨utf8 "b/b/t/.."⟩ ≠ .ok (place, .leaf (.link link))) ∧
    (∀ copy, LinkedTrees.before.Lands ⟨utf8 "b/b/t/.."⟩ copy →
      LinkedTrees.before.Undisturbed ⟨utf8 "a"⟩ copy) ∧
    (∃ count after, (copyTree ⟨utf8 "a"⟩ ⟨utf8 "b/b/t/.."⟩).runOn ⟨LinkedTrees.before, []⟩ =
        (.ok count, after) ∧
      after.files.root.entry? [utf8 "b", utf8 "b", utf8 "t"] = some .directory ∧
      LinkedTrees.before.isPresent ⟨utf8 "a/t"⟩ = false ∧
      ∀ copy, LinkedTrees.before.Lands ⟨utf8 "b/b/t/.."⟩ copy →
        ¬LinkedTrees.before.Reproduces ⟨utf8 "a"⟩ copy after.files) ∧
    ∃ count after, (copyTree ⟨utf8 "/a"⟩ ⟨[]⟩).runOn
        ⟨{ LinkedTrees.before with cwd := [utf8 "b", utf8 "b", utf8 "t"] }, []⟩ =
          (.ok count, after) ∧
      after.files.root.entry? [utf8 "b", utf8 "b", utf8 "t", utf8 "D"] =
        some (.leaf (.file (utf8 "1"))) ∧
      after.files.root.entry? [utf8 "b", utf8 "b", utf8 "t", utf8 "old"] =
        some (.leaf (.file (utf8 "2"))) := by
  have only : ∀ copy, LinkedTrees.before.Lands ⟨utf8 "b/b/t/.."⟩ copy →
      copy = [utf8 "b", utf8 "b"] :=
    fun copy lands => LinkedTrees.lands_eq lands (by decide +kernel) (by decide +kernel)
  obtain ⟨count, after, ran, made⟩ := yields_iff.1 (by decide +kernel :
    (copyTree ⟨utf8 "a"⟩ ⟨utf8 "b/b/t/.."⟩).yields ⟨LinkedTrees.before, []⟩ (fun _ after =>
      after.files.root.entry? [utf8 "b", utf8 "b", utf8 "t"] = some .directory) = true)
  have made := of_decide_eq_true made
  have absent : LinkedTrees.before.isPresent ⟨utf8 "a/t"⟩ = false := by decide +kernel
  refine ⟨LinkedTrees.standing, LinkedTrees.plain (by decide +kernel),
    fun copy lands => only copy lands ▸ LinkedTrees.undisturbed, ⟨count, after, ran, made, absent,
      fun copy lands reproduces => ?_⟩, ?_⟩
  · obtain rfl := only copy lands
    obtain ⟨_, reached, opens⟩ := (reproduces.directory_iff [utf8 "t"]).1 made
    obtain ⟨inner, found⟩ := opens_iff.1 opens
    have present : LinkedTrees.before.isPresent ⟨utf8 "a/t"⟩ = true :=
      isPresent_iff.2 ⟨_, _, found⟩
    rw [absent] at present
    cases present
  · obtain ⟨count, after, ran, held⟩ := yields_iff.1 (by decide +kernel :
      (copyTree ⟨utf8 "/a"⟩ ⟨[]⟩).yields
        ⟨{ LinkedTrees.before with cwd := [utf8 "b", utf8 "b", utf8 "t"] }, []⟩ (fun _ after =>
          after.files.root.entry? [utf8 "b", utf8 "b", utf8 "t", utf8 "D"] =
            some (.leaf (.file (utf8 "1"))) ∧
          after.files.root.entry? [utf8 "b", utf8 "b", utf8 "t", utf8 "old"] =
            some (.leaf (.file (utf8 "2")))) = true)
    exact ⟨count, after, ran, of_decide_eq_true held⟩

end Pass

end Retarget
