import Retarget.Pass.Rename
import Retarget.Proofs.Pass.Verification

/-!
Passes that find nothing to do. A table does nothing to a text in which none of its patterns occurs,
renaming does nothing where no file carries the source mark, and a check that finds nothing has
looked at every file that either pass would touch.
-/
namespace Retarget

/-- Entries whose patterns do not occur change nothing and count nothing. -/
theorem Substitution.applyAll_idle {entries : List Substitution} {text : List Char}
    (absent : ∀ entry ∈ entries, ¬entry.pattern.toList <:+: text) :
    applyAll entries text = (text, 0) := by
  induction entries with
  | nil => rfl
  | cons entry rest ih =>
    have idle : entry.apply text = (text, 0) := by
      by_cases none : entry.pattern = ""
      · exact apply_of_eq none text
      · have missing := absent entry (by simp)
        rw [apply_of_ne none, replaceAll_eq_self missing,
          (occurrences_eq_zero (toList_pattern none)).2 missing]
    rw [applyAll, idle]
    simp only [ih fun other member => absent other (List.mem_cons_of_mem _ member)]

theorem Table.apply_idle {table : Table} {text : String}
    (absent : ∀ entry ∈ table.entries, ¬entry.pattern.toList <:+: text.toList) :
    table.apply text = (text, 0) := by
  rw [Table.apply, Substitution.applyAll_idle absent]
  simp

/-- Where no replacement brings its own pattern, every pattern is looked for, so none is left. -/
theorem Table.Settled.absent {table : Table} {contents : Bytes} (settled : table.Settled contents)
    (patterns : "" ∉ table.patterns)
    (fresh : ∀ entry ∈ table.entries, ¬entry.pattern.toList <:+: entry.replacement.toList)
    {text : String} (isText : text? contents = some text) :
    ∀ entry ∈ table.entries, ¬entry.pattern.toList <:+: text.toList := by
  intro entry member
  refine settled text isText entry member (Pass.isChecked_iff.2 ⟨?_, fresh entry member⟩)
  exact fun none => patterns (none ▸ List.mem_map_of_mem member)

namespace Pass

open Act FileSystem

variable {files : FileSystem} {directory : Path} {naming : Naming} {table : Table}
  {listed : List Found}

/-! ## A check that finds nothing -/

/-- A file in which a check found nothing has no source mark, and with the target mark it was read
and no pattern found in it. -/
def Passed (files : FileSystem) (naming : Naming) (table : Table) (file : Found) : Prop :=
  naming.isSource file.name = false ∧ (naming.isTarget file.name = true →
    ∃ contents, files.contents file.path = .ok contents ∧ table.Settled contents)

theorem passed_of_residueOfFile {file : Found} {residue : Residue}
    (found : residueOfFile files directory naming table file = .ok residue)
    (unrenamed : residue.unrenamed = []) (residuals : residue.residuals = []) :
    Passed files naming table file := by
  unfold residueOfFile at found
  cases source : naming.isSource file.name with
  | true =>
    simp only [source, if_true, Except.ok.injEq] at found
    rw [← found] at unrenamed
    cases unrenamed
  | false =>
    refine ⟨source, fun isTarget => ?_⟩
    simp only [source, isTarget, Bool.false_eq_true, if_false, if_true] at found
    obtain ⟨contents, read, found⟩ := bind_eq_ok.1 found
    refine ⟨contents, read, fun text isText entry member => ?_⟩
    simp only [isText] at found
    rw [← Except.ok.inj found] at residuals
    have none := List.filterMap_eq_nil_iff.1 residuals entry member
    exact residual?_eq_none.1 none

theorem passed_of_residueOfFiles {residue : Residue}
    (found : residueOfFiles files directory naming table listed = .ok residue)
    (unrenamed : residue.unrenamed = []) (residuals : residue.residuals = []) :
    ∀ file ∈ listed, Passed files naming table file := by
  induction listed generalizing residue with
  | nil => simp
  | cons file rest ih =>
    obtain ⟨first, given, found⟩ := bind_eq_ok.1 found
    obtain ⟨others, more, found⟩ := bind_eq_ok.1 found
    rw [← Except.ok.inj found] at unrenamed residuals
    obtain ⟨here, later⟩ := List.append_eq_nil_iff.1 unrenamed
    obtain ⟨hereToo, laterToo⟩ := List.append_eq_nil_iff.1 residuals
    rw [List.forall_mem_cons]
    exact ⟨passed_of_residueOfFile given here hereToo, ih more later laterToo⟩

/-- A check that finds nothing has listed all files and found nothing in any of them. -/
theorem passed_of_residue {residue : Residue}
    (found : Pass.residue files directory naming table = .ok residue)
    (unrenamed : residue.unrenamed = []) (residuals : residue.residuals = []) :
    ∃ listed, files.filesBelow directory = .ok listed ∧
      ∀ file ∈ listed, Passed files naming table file := by
  obtain ⟨listed, below, found⟩ := bind_eq_ok.1 found
  exact ⟨listed, below, passed_of_residueOfFiles found unrenamed residuals⟩

/-! ## Passes with nothing to do -/

theorem renameFiles_idle (below : files.filesBelow directory = .ok listed)
    (unmarked : ∀ file ∈ listed, naming.isSource file.name = false) :
    (renameFiles directory naming).Ensures files (fun renamed after => renamed = [] ∧ after = files)
      fun _ => False := by
  refine Ensures.bind ((ensures_note _).2
    (Ensures.bind ((ensures_examine _).2 ⟨fun found same => ?_, fun _ failed => ?_⟩)))
  · obtain rfl := Except.ok.inj (below.symm.trans same)
    have none : listed.filterMap (candidate? naming) = [] := by
      rw [List.filterMap_eq_nil_iff]
      intro file member
      rw [candidate?, Naming.rename?_eq_none.2 (unmarked file member)]
      rfl
    rw [none, List.mapM_nil]
    exact (ensures_pure _).2 ⟨rfl, rfl⟩
  · rw [below] at failed
    cases failed

theorem rewriteFile_idle {file : Found} {contents : Bytes}
    (read : files.contents file.path = .ok contents)
    (absent : ∀ text, text? contents = some text →
      ∀ entry ∈ table.entries, ¬entry.pattern.toList <:+: text.toList) :
    (rewriteFile directory table file).Ensures files
      (fun finding after => finding.rewritten? = none ∧ after = files) fun _ => False := by
  refine Ensures.bind ((ensures_examine _).2 ⟨fun given same => ?_, fun _ failed => ?_⟩)
  · obtain rfl := Except.ok.inj (read.symm.trans same)
    cases isText : text? contents with
    | none => exact Ensures.bind ((ensures_note _).2 ((ensures_pure _).2 ⟨rfl, rfl⟩))
    | some text =>
      dsimp only
      rw [if_pos (.inl (congrArg Prod.snd (Table.apply_idle (absent text isText))))]
      exact (ensures_pure _).2 ⟨rfl, rfl⟩
  · rw [read] at failed
    cases failed

theorem rewriteFiles_idle (below : files.filesBelow directory = .ok listed)
    (idle : ∀ file ∈ listed, naming.isTarget file.name = true →
      ∃ contents, files.contents file.path = .ok contents ∧ ∀ text, text? contents = some text →
        ∀ entry ∈ table.entries, ¬entry.pattern.toList <:+: text.toList) :
    (rewriteFiles directory naming table).Ensures files
      (fun outcome after => outcome.rewritten = [] ∧ after = files) fun _ => False := by
  refine Ensures.bind ((ensures_note _).2
    (Ensures.bind ((ensures_examine _).2 ⟨fun found same => ?_, fun _ failed => ?_⟩)))
  · obtain rfl := Except.ok.inj (below.symm.trans same)
    refine Ensures.bind ((ensures_mapM (fun findings left now =>
      (∀ finding ∈ findings, finding.rewritten? = none) ∧ (∀ file ∈ left, file ∈ listed ∧
        naming.isTarget file.name = true) ∧ now = files) ?_ _ ⟨by simp, fun file member =>
        List.mem_filter.1 member, rfl⟩).imp ?_ fun _ failed => failed)
    · rintro findings file rest _ ⟨kept, inside, rfl⟩
      obtain ⟨among, isTarget⟩ := inside file List.mem_cons_self
      obtain ⟨contents, read, absent⟩ := idle file among isTarget
      refine (rewriteFile_idle read absent).imp ?_ fun _ failed => failed
      rintro finding after ⟨unchanged, rfl⟩
      refine ⟨fun other member => ?_, fun other later => inside other
        (List.mem_cons_of_mem _ later), rfl⟩
      rcases List.mem_append.1 member with old | new
      · exact kept other old
      · rwa [List.mem_singleton.1 new]
    · rintro findings after ⟨kept, _, rfl⟩
      exact (ensures_pure _).2 ⟨List.filterMap_eq_nil_iff.2 kept, rfl⟩
  · rw [below] at failed
    cases failed

end Pass
end Retarget
