import Retarget.Proofs.Pass.Duplicate
import Retarget.Proofs.Pass.Renaming
import Retarget.Proofs.Run.Source

/-!
What a complete run derives from its source. The copy has the directories and regular files of the
source; renaming settles which file ends up under a name, and rewriting what it then holds. The
result is said of the source alone, so nothing of an earlier output is left.
-/
namespace Retarget

open Act FileSystem Pass

variable {files before now after : FileSystem} {directory : Path} {source place above : Place}
  {naming : Naming} {table : Table} {listed : List Found}

/-- What a complete run derives at a place below the target: the directories of the source, and its
files under their settled names, those with the target mark as the table rewrites them. -/
inductive Derived (naming : Naming) (table : Table) (files : FileSystem) (source : Place) :
    Place → Entry → Prop where
  | directory {place : Place} (held : files.root.entry? (source ++ place) = some .directory) :
      Derived naming table files source place .directory
  | file {above : Place} {name contents : Bytes}
      (settles : Settles naming files source above name contents) :
      Derived naming table files source (above ++ [name])
        (.leaf (.file (if naming.isTarget name then table.rewrite contents else contents)))

theorem derived_directory : Derived naming table files source place .directory ↔
    files.root.entry? (source ++ place) = some .directory := by
  constructor
  · intro derived
    cases derived with
    | directory held => exact held
  · exact .directory

/-! ## Renaming -/

/-- A tree with the directories of the source and its files under their settled names. -/
structure Arranged (naming : Naming) (files : FileSystem) (source : Place) (now : FileSystem)
    (place : Place) : Prop where
  directories : ∀ below, now.root.entry? (place ++ below) = some .directory ↔
    files.root.entry? (source ++ below) = some .directory
  held : ∀ above name contents,
    now.root.entry? (place ++ (above ++ [name])) = some (.leaf (.file contents)) ↔
      Settles naming files source above name contents
  only : ∀ below content, now.root.entry? (place ++ below) = some (.leaf content) →
    ∃ contents, content = .file contents

theorem arranged_of_renamed (apart : naming.Apart) (marked : naming.target ≠ "")
    (lists : before.Lists directory place listed) (mirrors : files.Mirrors source before place)
    (renamed : Renamed naming before place listed after) :
    Arranged naming files source after place := by
  refine ⟨fun below => ?_, fun above name contents => ?_, fun below content stands => ?_⟩
  · exact (renamed.directory_iff lists below).trans (mirrors.directory_iff below)
  · rw [renamed.file_iff apart marked lists]
    exact settles_congr fun place contents => mirrors.file_iff place contents
  · rcases renamed.leaf_cases lists stands with file | untouched
    · exact file
    · exact mirrors.file_of_leaf untouched

/-! ## Rewriting -/

theorem derived_of_rewritten (arranged : Arranged naming files source before place)
    (lists : before.Lists directory place listed)
    (rewritten : Rewritten table before place
      (listed.filter fun found => naming.isTarget found.name) after)
    (below : Place) (entry : Entry) :
    after.root.entry? (place ++ below) = some entry ↔
      Derived naming table files source below entry := by
  have held : ∀ found ∈ listed.filter fun found => naming.isTarget found.name,
      ∃ contents, before.root.entry? (place ++ found.place) = some (.leaf (.file contents)) := by
    intro found member
    obtain ⟨contents, _, file⟩ := lists.held found (List.mem_filter.1 member).1
    exact ⟨contents, file⟩
  constructor
  · intro stands
    have file : ∀ {content : Leaf}, before.root.entry? (place ++ below) = some (.leaf content) →
        Derived naming table files source below entry := by
      intro content file
      obtain ⟨contents, rfl⟩ := arranged.only _ _ file
      obtain ⟨found, member, rfl⟩ := lists.complete _ _ file
      obtain ⟨above, name, whole, _⟩ := lists.above member
      rw [whole] at file stands ⊢
      obtain rfl := Option.some.inj (stands.symm.trans (rewritten.file lists file))
      exact .file ((arranged.held _ _ _).1 file)
    rcases rewritten.entry_kind held (place ++ below) with same | ⟨_, _, old, _⟩
    · cases entry with
      | directory => exact derived_directory.2 ((arranged.directories below).1 (same ▸ stands))
      | leaf content => exact file (same ▸ stands)
    · exact file old
  · intro derived
    cases derived with
    | directory stands =>
      have directory := (arranged.directories below).2 stands
      rcases rewritten.entry_kind held (place ++ below) with same | ⟨_, _, old, _⟩
      · rw [same, directory]
      · rw [directory] at old
        cases old
    | file settles => exact rewritten.file lists ((arranged.held _ _ _).2 settles)

/-! ## A complete run -/

namespace Job

variable {root : Path} {job : Job}

theorem run_all_ensures (standing : files.Standing) (apart : job.naming.Apart)
    (slashless : Path.slash ∉ utf8 job.naming.target)
    (linkless : ∀ source, files.Opens (job.sourceDirectory root) source →
      files.root.Linkless source)
    (short : (files.absolute (job.sourceDirectory root)).bytes.length < pathLimit)
    (replaceable : files.Replaceable (job.targetDirectory root)) :
    (job.run root StageSet.all).Ensures files
      (fun _ after => ∃ source place, files.Opens (job.sourceDirectory root) source ∧
        after.Opens (job.targetDirectory root) place ∧
        ∀ below entry, after.root.entry? (place ++ below) = some entry ↔
          Derived job.naming job.table files source below entry)
      fun _ => True := by
  let copied (now : FileSystem) : Prop :=
    now.Sound ∧ ∃ source place, files.Opens (job.sourceDirectory root) source ∧
      now.Opens (job.targetDirectory root) place ∧ files.Mirrors source now place
  let renamed (now : FileSystem) : Prop :=
    now.Sound ∧ ∃ source place, files.Opens (job.sourceDirectory root) source ∧
      (∀ other, now.Opens (job.targetDirectory root) other → other = place) ∧
      Arranged job.naming files source now place
  refine run_ensures copied renamed _ (fun _ => trivial)
    (fun valid => ⟨fun _ => ?_, (fun left => by cases left)⟩)
    (fun valid now held => ⟨fun _ => ?_, (fun left => by cases left)⟩)
    (fun _ now held => ⟨fun _ => ?_, (fun left => by cases left)⟩)
    fun now held => ⟨fun _ _ _ => held, fun _ _ => trivial⟩
  · refine copyTree_of_opens trivial fun source opens => ?_
    refine (copyTree_image standing opens (linkless source opens) short
      (bytes_targetDirectory valid) replaceable).imp ?_ fun _ _ => trivial
    rintro _ now ⟨copy, copying, image⟩
    exact ⟨copying.underway.sound, source, copy, opens, copying.underway.opens, image⟩
  · obtain ⟨sound, source, place, opens, target, image⟩ := held
    have marked := (valid_of_violation? valid).2.2.2.1
    refine (renameFiles_ensures sound marked slashless).imp ?_ fun _ _ => trivial
    rintro _ after ⟨reached, listed, lists, confined, moved⟩
    obtain rfl := target.unique lists.opens
    refine ⟨confined.sound, source, place, opens, fun other later => ?_,
      arranged_of_renamed apart marked lists image (moved apart)⟩
    exact (later.carry confined.ways confined.cwd.symm).unique target
  · obtain ⟨sound, source, place, opens, only, arranged⟩ := held
    refine (rewriteFiles_ensures sound).imp ?_ fun _ _ => trivial
    rintro _ after ⟨reached, listed, lists, confined, ways, rewritten⟩
    obtain rfl := only reached lists.opens
    exact ⟨source, reached, opens, lists.opens.carry ways confined.cwd,
      derived_of_rewritten arranged lists rewritten⟩

/-- After a complete run the target holds what is derived from the source as it was before, and
nothing else. -/
theorem run_derives (standing : files.Standing) (apart : job.naming.Apart)
    (slashless : Path.slash ∉ utf8 job.naming.target)
    (linkless : ∀ source, files.Opens (job.sourceDirectory root) source →
      files.root.Linkless source)
    (short : (files.absolute (job.sourceDirectory root)).bytes.length < pathLimit)
    (replaceable : files.Replaceable (job.targetDirectory root)) {log : List Event}
    {report : GenerationReport} {after : Session}
    (ran : (job.run root StageSet.all).runOn ⟨files, log⟩ = (.ok report, after)) :
    ∃ source place, files.Opens (job.sourceDirectory root) source ∧
      after.files.Opens (job.targetDirectory root) place ∧
      ∀ below entry, after.files.root.entry? (place ++ below) = some entry ↔
        Derived job.naming job.table files source below entry :=
  (run_all_ensures standing apart slashless linkless short replaceable).ok ran

theorem run_derives_replacing :
    ∃ report after, ((TwoTrees.job "b").run ⟨[]⟩ StageSet.all).runOn ⟨TwoTrees.before, []⟩ =
        (.ok report, after) ∧
      (∀ below entry, after.files.root.entry? ([utf8 "b"] ++ below) = some entry ↔
        Derived Naming.standard (TwoTrees.job "b").table TwoTrees.before [utf8 "a"] below entry) ∧
      after.files.root.entry? [utf8 "b", utf8 "S"] = some (.leaf (.file (utf8 "a single"))) ∧
      after.files.root.entry? [utf8 "b", utf8 "n", utf8 "Sy"] =
        some (.leaf (.file (utf8 "two singles"))) := by
  have sourcePath : (TwoTrees.job "b").sourceDirectory ⟨[]⟩ = ⟨utf8 "a"⟩ := by rfl
  have targetPath : (TwoTrees.job "b").targetDirectory ⟨[]⟩ = ⟨utf8 "b"⟩ := by rfl
  obtain ⟨report, after, ran, _, _, _, opens, renamed, rewritten⟩ := TwoTrees.run_all
  obtain ⟨source, place, found, target, derived⟩ :=
    run_derives TwoTrees.standing (by unfold Naming.Apart; decide) (by decide)
    (fun source opens => opens.unique (sourcePath ▸ TwoTrees.opens_source) ▸ TwoTrees.linkless)
    (by rw [sourcePath]; decide)
    (by rw [targetPath]; exact TwoTrees.replaceable) ran
  rw [sourcePath] at found
  rw [targetPath] at target
  obtain rfl := found.unique TwoTrees.opens_source
  obtain rfl := target.unique opens
  exact ⟨report, after, ran, derived, renamed, rewritten⟩

/-- A target that leads through what it replaces is made with the directories on its way. -/
theorem run_leaves_directory_on_way : (TwoTrees.job "b/old/..").violation? = none ∧
    TwoTrees.before.Opens ((TwoTrees.job "b/old/..").sourceDirectory ⟨[]⟩) [utf8 "a"] ∧
    TwoTrees.before.root.Linkless [utf8 "a"] ∧
    TwoTrees.before.Opens ((TwoTrees.job "b/old/..").targetDirectory ⟨[]⟩) [utf8 "b"] ∧
    ∃ report after, ((TwoTrees.job "b/old/..").run ⟨[]⟩ StageSet.all).runOn ⟨TwoTrees.before, []⟩ =
        (.ok report, after) ∧
      after.files.Opens ((TwoTrees.job "b/old/..").targetDirectory ⟨[]⟩) [utf8 "b"] ∧
      after.files.root.entry? ([utf8 "b"] ++ [utf8 "old"]) = some .directory ∧
      ¬Derived Naming.standard (TwoTrees.job "b/old/..").table TwoTrees.before [utf8 "a"]
        [utf8 "old"] .directory := by
  refine ⟨by decide, by decide +kernel, TwoTrees.linkless, by decide +kernel, ?_⟩
  obtain ⟨report, after, ran, left⟩ := yields_iff.1 (by decide +kernel :
    ((TwoTrees.job "b/old/..").run ⟨[]⟩ StageSet.all).yields ⟨TwoTrees.before, []⟩ (fun _ after =>
      decide (after.files.Opens ((TwoTrees.job "b/old/..").targetDirectory ⟨[]⟩) [utf8 "b"] ∧
        after.files.root.entry? ([utf8 "b"] ++ [utf8 "old"]) = some .directory)) = true)
  refine ⟨report, after, ran, (of_decide_eq_true left).1, (of_decide_eq_true left).2,
    fun derived => ?_⟩
  exact absurd (derived_directory.1 derived) (by decide)

end Job

namespace DeepDirectory

/-- A working directory so deep that a short path below it is too long once it is made absolute. -/
def cwd : Place := List.replicate 15 (List.replicate 255 97) ++ [List.replicate 250 97]

/-- A source that holds an old output, and a link to the source beside it. -/
def initial : FileSystem := ⟨cwd.foldr (fun name inner => .branch name inner .empty)
  (.branch (utf8 "a") (.leaf (utf8 "D") (.file (utf8 "1")) (.branch (utf8 "t") .empty .empty))
    (.leaf (utf8 "link") (.link ⟨utf8 "a"⟩) .empty)), cwd⟩

def job (source target : String) : Job := ⟨"j", ⟨[]⟩, source, target, Naming.standard, Table.empty⟩

end DeepDirectory

namespace Job

/-- Beyond the limit a path is compared as it is written, so a target inside the source goes
unnoticed, and what it held is missing from the copy. -/
theorem run_within_source_in_deep_directory (source target : String)
    (spelled : (source, target) ∈ [("link", "a/t"), ("a", "link/t")]) :
    ∃ report after, ((DeepDirectory.job source target).run ⟨[]⟩ StageSet.all).runOn
        ⟨DeepDirectory.initial, []⟩ = (.ok report, after) ∧
      after.files.Opens ((DeepDirectory.job source target).targetDirectory ⟨[]⟩)
        (DeepDirectory.cwd ++ [utf8 "a", utf8 "t"]) ∧
      after.files.root.entry? (DeepDirectory.cwd ++ [utf8 "a", utf8 "t"] ++ [utf8 "t"]) = none ∧
      Derived Naming.standard Table.empty DeepDirectory.initial (DeepDirectory.cwd ++ [utf8 "a"])
        [utf8 "t"] .directory := by
  have held : DeepDirectory.initial.root.entry? (DeepDirectory.cwd ++ [utf8 "a"] ++ [utf8 "t"]) =
      some .directory := by decide +kernel
  have missed : ((DeepDirectory.job source target).run ⟨[]⟩ StageSet.all).yields
      ⟨DeepDirectory.initial, []⟩ (fun _ after =>
        decide (after.files.Opens ((DeepDirectory.job source target).targetDirectory ⟨[]⟩)
          (DeepDirectory.cwd ++ [utf8 "a", utf8 "t"]) ∧
          after.files.root.entry? (DeepDirectory.cwd ++ [utf8 "a", utf8 "t"] ++ [utf8 "t"]) = none)) =
          true := by
    simp only [List.mem_cons, Prod.mk.injEq, List.not_mem_nil, or_false] at spelled
    rcases spelled with ⟨rfl, rfl⟩ | ⟨rfl, rfl⟩
    · decide +kernel
    · decide +kernel
  obtain ⟨report, after, ran, facts⟩ := yields_iff.1 missed
  exact ⟨report, after, ran, (of_decide_eq_true facts).1, (of_decide_eq_true facts).2,
    derived_directory.2 held⟩

end Job
end Retarget
