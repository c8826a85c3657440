import Retarget.Proofs.Fingerprint.Framing
import Retarget.Proofs.Pass.Counting
import Retarget.Proofs.Run.Repetition

/-!
What the report of a complete run accounts for. The counts are taken by four passes over a tree that
changes in between: each file that was copied is in the derived tree or was overwritten, and each file
there that carries the target mark was scanned, and told of at most once.
-/
namespace Retarget

open Act FileSystem Pass

/-- The places of the regular files of a tree whose names carry the target mark. -/
def Tree.carriers (naming : Naming) (tree : Tree) : List Place :=
  (tree.regulars.map Prod.fst).filter fun place => naming.isTarget (place.getLast?.getD [])

/-- The counts of a report are those of the derived tree, and every path among what was rewritten
and skipped is that of another file there that carries the target mark. -/
structure GenerationReport.Accounts (report : GenerationReport) (naming : Naming) (tree : Tree) :
    Prop where
  files : report.fingerprint.files = tree.regulars.length
  copied : report.copied =
    some (report.fingerprint.files + report.renamed.countP (·.overwrote))
  substitution : ∃ outcome, report.substitution = some outcome ∧
    outcome.scanned = (tree.carriers naming).length ∧
    (outcome.rewritten.map (·.path) ++ outcome.skipped.map (·.path)).Nodup ∧
    ∀ path ∈ outcome.rewritten.map (·.path) ++ outcome.skipped.map (·.path),
      ∃ place ∈ tree.carriers naming, path = ⟨[Path.slash].intercalate place⟩

variable {files before now after : FileSystem} {directory : Path} {place : Place}
  {listed : List Found} {naming : Naming} {tree : Tree}

/-! ## The files that were listed -/

/-- Rewriting makes and removes no file. -/
theorem Pass.Rewritten.filesAt {table : Table} {passed : List Found}
    (rewritten : Rewritten table before place passed now)
    (regular : ∀ found ∈ passed, ∃ contents,
      before.root.entry? (place ++ found.place) = some (.leaf (.file contents))) :
    now.filesAt place = before.filesAt place := by
  ext below
  rcases rewritten.entry_kind regular (place ++ below) with same | ⟨old, new, first, second⟩
  · simp [FileSystem.filesAt, same]
  · simp [FileSystem.filesAt, first, second]

/-- Files that were listed are those of the tree as long as none was made or removed. -/
theorem FileSystem.Lists.places_perm (lists : before.Lists directory place listed)
    (wellFormed : now.root.WellFormed) (held : now.root.at? place = some (.branch tree))
    (same : now.filesAt place = before.filesAt place) :
    (listed.map Found.place).Perm (tree.regulars.map Prod.fst) := by
  have formed := (wellFormed.at? held).2
  rw [List.perm_ext_iff_of_nodup lists.distinct (Tree.nodup_regulars formed)]
  intro below
  have there : below ∈ tree.regulars.map Prod.fst ↔ below ∈ now.filesAt place := by
    rw [filesAt_eq wellFormed held, List.coe_toFinset, Set.mem_ofPred_eq]
  rw [there, same]
  constructor
  · intro member
    obtain ⟨found, inside, rfl⟩ := List.mem_map.1 member
    obtain ⟨contents, _, file⟩ := lists.held found inside
    exact ⟨contents, file⟩
  · rintro ⟨contents, file⟩
    obtain ⟨found, inside, rfl⟩ := lists.complete below contents file
    exact List.mem_map_of_mem inside

theorem FileSystem.Lists.carriers_perm (naming : Naming)
    (lists : before.Lists directory place listed)
    (wellFormed : now.root.WellFormed) (held : now.root.at? place = some (.branch tree))
    (same : now.filesAt place = before.filesAt place) :
    ((listed.filter fun found => naming.isTarget found.name).map Found.place).Perm
      (tree.carriers naming) := by
  have alike := (lists.places_perm wellFormed held same).filter
    fun place => naming.isTarget (place.getLast?.getD [])
  rwa [List.filter_map] at alike

/-- Different places of a tree have different paths. -/
theorem Tree.path_injOn (wellFormed : tree.WellFormed) {one other : Place}
    (member : one ∈ tree.regulars.map Prod.fst) (also : other ∈ tree.regulars.map Prod.fst)
    (same : (⟨[Path.slash].intercalate one⟩ : Path) = ⟨[Path.slash].intercalate other⟩) :
    one = other := by
  have legal : ∀ {place : Place}, place ∈ tree.regulars.map Prod.fst →
      ∀ name ∈ place, Tree.Legal name := by
    intro place member
    obtain ⟨file, inside, rfl⟩ := List.mem_map.1 member
    exact wellFormed.legal ((Tree.mem_regulars wellFormed).1 inside)
  have names := congrArg Path.components same
  rw [Path.components_place (legal member), Path.components_place (legal also)] at names
  exact List.map_injective_iff.2 (fun _ _ alike => Component.name.inj alike) names

/-- The paths of the files that carry the target mark, as findings tell of them. -/
theorem FileSystem.Lists.paths_perm (naming : Naming)
    (lists : before.Lists directory place listed) (sound : before.Sound) (wellFormed : now.root.WellFormed)
    (held : now.root.at? place = some (.branch tree))
    (same : now.filesAt place = before.filesAt place) :
    ((listed.filter fun found => naming.isTarget found.name).map fun file =>
      file.path.relativeTo directory).Perm
        ((tree.carriers naming).map fun place => ⟨[Path.slash].intercalate place⟩) := by
  have written := (Path.check_eq_ok_iff.1 lists.opens.accepted).2.1
  have spelled : ((listed.filter fun found => naming.isTarget found.name).map fun file =>
      file.path.relativeTo directory) =
      ((listed.filter fun found => naming.isTarget found.name).map Found.place).map
        fun place => ⟨[Path.slash].intercalate place⟩ := by
    rw [List.map_map]
    refine List.map_congr_left fun found member => ?_
    have inside := (List.mem_filter.1 member).1
    rw [lists.descends found inside,
      Path.relativeTo_descend written (lists.legal sound.wellFormed inside)]
    rfl
  rw [spelled]
  exact (lists.carriers_perm naming wellFormed held same).map _

theorem Tree.nodup_paths (wellFormed : tree.WellFormed) (naming : Naming) :
    ((tree.carriers naming).map fun place =>
      (⟨[Path.slash].intercalate place⟩ : Path)).Nodup := by
  have within : ∀ {place : Place}, place ∈ tree.carriers naming →
      place ∈ tree.regulars.map Prod.fst := fun member => (List.mem_filter.1 member).1
  exact ((Tree.nodup_regulars wellFormed).filter _).map_on fun _ member _ also same =>
    Tree.path_injOn wellFormed (within member) (within also) same

namespace Job

variable {root : Path} {job : Job}

theorem marks_differ (valid : job.violation? = none) : job.naming.source ≠ job.naming.target :=
  (violation?_eq_none_iff.1 valid).marks_differ

/-- A complete run that succeeded accounts for every file: as many were copied as the derived tree
has and were overwritten, as many scanned as carry the target mark there, and those that were
rewritten or skipped are different ones of these. -/
theorem run_accounts (standing : files.Standing)
    (slashless : Path.slash ∉ utf8 job.naming.target)
    (grounded : files.Grounded (job.targetDirectory root)) {log : List Event}
    {report : GenerationReport} {after : Session}
    (ran : (job.run root StageSet.all).runOn ⟨files, log⟩ = (.ok report, after)) :
    ∃ place tree, after.files.Opens (job.targetDirectory root) place ∧
      after.files.root.at? place = some (.branch tree) ∧ report.Accounts job.naming tree := by
  suffices ensured : (job.run root StageSet.all).Ensures files (fun report now => ∃ place tree,
      now.Opens (job.targetDirectory root) place ∧ now.root.at? place = some (.branch tree) ∧
        report.Accounts job.naming tree) fun _ => True from ensured.ok ran
  rw [run_eq]
  refine Ensures.bind (check_ensures (fun valid => ?_) fun _ => trivial)
  refine Ensures.bind ((ensures_note _).2 (Ensures.bind ((ensures_noteAll _).2 ?_)))
  have marked := (valid_of_violation? valid).2.2.2.1
  refine Ensures.bind (Ensures.map ((copyTree_counts standing grounded
    (bytes_targetDirectory valid)).imp (fun count made copied => ?_) fun _ _ => trivial))
  obtain ⟨sound, place, opens, regular, counted⟩ := copied
  have filled := (Filled.refl sound fun below link => fun held =>
    nomatch (regular below _ held).choose_spec).renameFiles opens marked slashless
  refine Ensures.bind (((renameFiles_counts sound opens marked slashless (marks_differ valid)
    regular).and (filled.imp (fun _ _ held => held) fun _ _ => trivial)).imp
      (fun renamed moved ⟨⟨_, fewer⟩, filled⟩ => ?_) fun _ _ => trivial)
  refine Ensures.bind (Ensures.map ((((rewriteFiles_ensures filled.sound).imp
    (fun _ _ held => held) fun _ _ => trivial).and (rewriteFiles_reports filled.sound)).imp
      (fun outcome last ⟨ensured, reports⟩ => ?_) fun _ _ => trivial))
  obtain ⟨reached, listed, lists, confined, ways, rewritten⟩ := ensured
  obtain ⟨also, found, same, scanned, told⟩ := reports
  obtain rfl := lists.opens.unique (filled.opens opens)
  obtain rfl := same.opens.unique lists.opens
  refine Ensures.bind ((ensures_examine _).2 ⟨fun fingerprint taken => ?_, fun _ _ => trivial⟩)
  refine Ensures.bind ((ensures_note _).2 ((ensures_pure _).2 ?_))
  have still := lists.opens.carry ways confined.cwd
  have wellFormed := confined.sound.wellFormed
  obtain ⟨tree, held⟩ := Tree.entry?_eq_directory.1 still.directory
  have kept : last.filesAt _ = moved.filesAt _ := rewritten.filesAt fun file member => by
    obtain ⟨contents, _, file⟩ := lists.held file (List.mem_filter.1 member).1
    exact ⟨contents, file⟩
  have number := still.fingerprint_eq wellFormed held taken
  have paths := same.paths_perm job.naming filled.sound wellFormed held kept
  have carriers := same.carriers_perm job.naming wellFormed held kept
  have told := told.trans paths.subperm
  refine ⟨_, tree, still, held, ⟨by rw [number], ?_, outcome, rfl, ?_, ?_, fun path member => ?_⟩⟩
  · rw [← counted, fewer, ← kept, ncard_filesAt wellFormed held, number]
  · rw [scanned, ← carriers.length_eq, List.length_map]
  · obtain ⟨some, alike, within⟩ := told
    exact alike.nodup_iff.1 ((Tree.nodup_paths (wellFormed.at? held).2 job.naming).sublist within)
  · obtain ⟨place, inside, rfl⟩ := List.mem_map.1 (told.subset member)
    exact ⟨place, inside, rfl⟩

theorem run_accounts_linked :
    ∃ report after, ((LinkedTrees.job "b/b/t/..").run ⟨[]⟩ StageSet.all).runOn
        ⟨LinkedTrees.before, []⟩ = (.ok report, after) ∧
      ∃ place tree, after.files.Opens ⟨utf8 "b/b/t/.."⟩ place ∧
        after.files.root.at? place = some (.branch tree) ∧
        report.Accounts Naming.standard tree ∧ tree.regulars.length = 2 := by
  have targetPath : (LinkedTrees.job "b/b/t/..").targetDirectory ⟨[]⟩ = ⟨utf8 "b/b/t/.."⟩ := by rfl
  obtain ⟨report, after, ran, counted⟩ := yields_iff.1 (by decide +kernel :
    ((LinkedTrees.job "b/b/t/..").run ⟨[]⟩ StageSet.all).yields ⟨LinkedTrees.before, []⟩
      (fun report _ => report.fingerprint.files = 2) = true)
  have grounded : LinkedTrees.before.Grounded ⟨utf8 "b/b/t/.."⟩ :=
    LinkedTrees.direct.grounded (LinkedTrees.plain (by decide +kernel)) (by decide +kernel)
  obtain ⟨place, tree, opens, held, accounts⟩ :=
    run_accounts LinkedTrees.standing (by decide) (targetPath ▸ grounded) ran
  rw [targetPath] at opens
  exact ⟨report, after, ran, place, tree, opens, held, accounts,
    accounts.files.symm.trans (of_decide_eq_true counted)⟩

/-- A target that leads through a link in the directory it replaces is made elsewhere, where an old
output was never removed: its file is in the fingerprint, but it was not copied. -/
theorem run_miscounts_through_own_link :
    (LinkedTrees.job "b/t/m/../../b/t").violation? = none ∧ LinkedTrees.before.Standing ∧
    Path.slash ∉ utf8 (LinkedTrees.job "b/t/m/../../b/t").naming.target ∧
    ∃ report after, ((LinkedTrees.job "b/t/m/../../b/t").run ⟨[]⟩ StageSet.all).runOn
        ⟨LinkedTrees.before, []⟩ = (.ok report, after) ∧
      ∀ tree, ¬report.Accounts Naming.standard tree := by
  refine ⟨by decide, LinkedTrees.standing, by decide, ?_⟩
  obtain ⟨report, after, ran, counted⟩ := yields_iff.1 (by decide +kernel :
    ((LinkedTrees.job "b/t/m/../../b/t").run ⟨[]⟩ StageSet.all).yields ⟨LinkedTrees.before, []⟩
      (fun report _ => report.copied ≠
        some (report.fingerprint.files + report.renamed.countP (·.overwrote))) = true)
  exact ⟨report, after, ran, fun tree accounts => of_decide_eq_true counted accounts.copied⟩

end Job
end Retarget
