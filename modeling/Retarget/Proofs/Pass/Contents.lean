import Retarget.Proofs.Pass.Inventory
import Retarget.Proofs.Pass.Rewriting

/-!
What the rewriting pass does and tells. A text with the target mark holds what the table makes of it
and nothing else changes; the report lists the files that changed and those that are no text, in the
order of the walk. Substitutions that undo each other leave a file unchanged and untold.
-/
namespace Retarget

/-- The table changes a file exactly if it makes another text of it. -/
theorem Table.rewrite_ne_iff {table : Table} {contents : Bytes} :
    table.rewrite contents ≠ contents ↔
      ∃ text, text? contents = some text ∧ (table.apply text).1 ≠ text := by
  cases isText : text? contents with
  | none => simp [rewrite, isText]
  | some text =>
    obtain rfl := text?_eq_some_iff.1 isText
    simp only [rewrite, text?_utf8, Option.some.injEq, exists_eq_left']
    exact not_congr ⟨utf8_injective, congrArg utf8⟩

namespace Pass

open Act FileSystem

variable {before after : FileSystem} {directory : Path} {place : Place} {naming : Naming}
  {table : Table} {inventory : List StoredFile}

theorem Finding.rewritten?_of {path : Path} {contents : Bytes} {told : RewrittenFile} :
    (Finding.of table path contents).rewritten? = some told ↔
      ∃ text, text? contents = some text ∧ (table.apply text).1 ≠ text ∧
        told = ⟨path, (table.apply text).2⟩ := by
  unfold Finding.of
  cases text? contents with
  | none => simp [rewritten?]
  | some text =>
    dsimp only
    split
    · rename_i same
      simp [rewritten?, same]
    · rename_i other
      simp only [rewritten?, Option.some.injEq, exists_eq_left', ne_eq, other, not_false_eq_true,
        true_and]
      exact eq_comm

theorem Finding.skipped?_of {path : Path} {contents : Bytes} :
    (Finding.of table path contents).skipped? =
      if text? contents = none then some ⟨path, notTextReason⟩ else none := by
  unfold Finding.of
  cases text? contents with
  | none => rfl
  | some text =>
    dsimp only
    split <;> rfl

/-- What is told of a file that was rewritten: how often the table is met in it, which is at least once. -/
def Told (table : Table) (file : StoredFile) (told : RewrittenFile) : Prop :=
  ∃ text, text? file.contents = some text ∧ told = ⟨file.path, (table.apply text).2⟩ ∧
    0 < (table.apply text).2

/-- The effect of the pass on the files below a directory, and what is told of it. -/
structure Rewrites (naming : Naming) (table : Table) (before : FileSystem) (place : Place)
    (inventory : List StoredFile) (outcome : SubstitutionOutcome) (after : FileSystem) :
    Prop where
  texts : ∀ file ∈ inventory, naming.isTarget file.name = true →
    ∀ text, text? file.contents = some text →
      after.root.entry? (place ++ file.place) = some (.leaf (.file (utf8 (table.apply text).1)))
  others : ∀ query, (∀ file ∈ inventory, naming.isTarget file.name = true →
      text? file.contents ≠ none → query ≠ place ++ file.place) →
    after.root.entry? query = before.root.entry? query
  cwd : after.cwd = before.cwd
  scanned : outcome.scanned = inventory.countP fun file => naming.isTarget file.name
  rewritten : List.Forall₂ (Told table) (inventory.filter fun file =>
      after.root.entry? (place ++ file.place) ≠ some (.leaf (.file file.contents)))
    outcome.rewritten
  skipped : outcome.skipped = (inventory.filter fun file =>
      naming.isTarget file.name && text? file.contents = none).map
    fun file => ⟨file.path, notTextReason⟩

/-- Findings for the files of an inventory that carry the target mark. -/
theorem findings_eq (kept : before.Inventory directory place inventory) (sound : before.Sound)
    {findings : List Finding}
    (finds : List.Forall₂ (Finds table before directory place)
      ((inventory.map (StoredFile.found directory)).filter fun found => naming.isTarget found.name)
      findings) :
    findings = (inventory.filter fun file => naming.isTarget file.name).map
      fun file => Finding.of table file.path file.contents := by
  rw [List.filter_map, List.forall₂_map_left_iff] at finds
  have told := (List.forall₂_and_left _ _).2
    ⟨fun file member => (List.mem_filter.1 member).1, finds⟩
  symm
  rw [← List.forall₂_eq_eq_eq, List.forall₂_map_left_iff]
  refine told.imp ?_
  rintro file finding ⟨member, contents, held, rfl⟩
  obtain ⟨⟩ := ((kept.held file).1 member).symm.trans held
  rw [kept.relativeTo sound.wellFormed member]

/-- What a file of an inventory holds after the pass. -/
theorem after_held (kept : before.Inventory directory place inventory)
    (rewritten : Rewritten table before place
      ((inventory.map (StoredFile.found directory)).filter fun found => naming.isTarget found.name)
      after) {file : StoredFile} (member : file ∈ inventory) :
    after.root.entry? (place ++ file.place) = some (.leaf (.file
      (if naming.isTarget file.name then table.rewrite file.contents else file.contents))) := by
  have held := (kept.held file).1 member
  obtain ⟨above, whole⟩ := kept.above member
  rw [whole] at held ⊢
  exact rewritten.file kept.lists held

theorem rewriteFiles_ensures_rewrites (sound : before.Sound) :
    (rewriteFiles directory naming table).Ensures before
      (fun outcome after => ∃ place inventory, before.Inventory directory place inventory ∧
        Rewrites naming table before place inventory outcome after) fun _ => True := by
  refine Ensures.bind ((ensures_note _).2
    (Ensures.bind ((ensures_examine _).2 ⟨fun listed found => ?_, fun _ _ => trivial⟩)))
  obtain ⟨place, inventory, kept, rfl⟩ := filesBelow_inventory sound.wellFormed found
  refine Ensures.bind ((rewriteEach_ensures kept.lists sound List.filter_sublist).imp ?_
    fun _ _ => trivial)
  rintro findings after ⟨confined, _, rewritten, finds⟩
  obtain rfl := findings_eq kept sound finds
  refine (ensures_pure _).2 ⟨place, inventory, kept, ?_, ?_, confined.cwd, ?_, ?_, ?_⟩
  · intro file member isTarget text isText
    rw [after_held kept rewritten member, if_pos isTarget, Table.rewrite, isText]
  · intro query away
    by_cases met : ∃ file ∈ inventory, query = place ++ file.place
    · obtain ⟨file, member, rfl⟩ := met
      rw [after_held kept rewritten member, (kept.held file).1 member]
      split
      · rename_i isTarget
        have unread : text? file.contents = none :=
          by_contra fun isText => away file member isTarget isText rfl
        rw [Table.rewrite, unread]
      · rfl
    · refine rewritten.others query fun found member same => met ?_
      obtain ⟨file, inside, rfl⟩ := List.mem_map.1 (List.mem_filter.1 member).1
      exact ⟨file, inside, same⟩
  · rw [List.countP_eq_length_filter]
    exact List.length_map _
  · show List.Forall₂ _ _ (List.filterMap _ _)
    rw [List.filterMap_map, List.filterMap_filter]
    refine forall₂_filter_filterMap (fun file member => ?_) fun file _ told picked => ?_
    · rw [after_held kept rewritten member, Bool.eq_iff_iff, decide_eq_true_iff]
      cases naming.isTarget file.name with
      | false => simp
      | true => simp [Option.isSome_iff_exists, Finding.rewritten?_of, Table.rewrite_ne_iff]
    · rw [Option.ite_none_right_eq_some] at picked
      obtain ⟨text, isText, changed, rfl⟩ := Finding.rewritten?_of.1 picked.2
      exact ⟨text, isText, rfl,
        Nat.pos_of_ne_zero fun zero => changed (Table.apply_of_zero zero)⟩
  · show List.filterMap _ _ = _
    rw [List.filterMap_map, List.filterMap_filter, ← List.filterMap_eq_map, List.filterMap_filter]
    refine List.filterMap_congr fun file _ => ?_
    simp [Finding.skipped?_of, Bool.and_eq_true, ite_and]

/-- A pass that succeeds gives each text with the target mark what the table makes of it, changes
nothing else, links and what they lead to included, and tells exactly that. -/
theorem rewriteFiles_exact (sound : before.Sound) {log : List Event} {outcome : SubstitutionOutcome}
    {after : Session}
    (ran : (rewriteFiles directory naming table).runOn ⟨before, log⟩ = (.ok outcome, after)) :
    ∃ place inventory, before.Inventory directory place inventory ∧
      Rewrites naming table before place inventory outcome after.files :=
  (rewriteFiles_ensures_rewrites sound).ok ran

namespace Drafts

/-- A text, bytes that are no text, a text in which the substitutions undo each other, a link to the
first, and a file without the target mark. -/
def files : FileSystem := ⟨.branch (utf8 "t") (.leaf (utf8 "S1") (.file (utf8 "ab"))
  (.leaf (utf8 "S2") (.file [255]) (.leaf (utf8 "S3") (.file (utf8 "a"))
    (.leaf (utf8 "S4") (.link ⟨utf8 "S1"⟩) (.leaf (utf8 "x") (.file (utf8 "b")) .empty)))))
  .empty, []⟩

def undoing : Table := ⟨[⟨"a", "b"⟩, ⟨"b", "a"⟩], by decide⟩

end Drafts

theorem rewriteFiles_exact_drafts :
    ∃ outcome after, (rewriteFiles ⟨utf8 "t"⟩ Naming.standard Drafts.undoing).runOn
        ⟨Drafts.files, []⟩ = (.ok outcome, after) ∧
      outcome = ⟨3, [⟨⟨utf8 "S1"⟩, 3⟩], [⟨⟨utf8 "S2"⟩, notTextReason⟩]⟩ ∧
      ∃ place inventory, Drafts.files.Inventory ⟨utf8 "t"⟩ place inventory ∧
        Rewrites Naming.standard Drafts.undoing Drafts.files place inventory outcome after.files := by
  obtain ⟨outcome, after, ran, told⟩ := yields_iff.1 (by decide :
    (rewriteFiles ⟨utf8 "t"⟩ Naming.standard Drafts.undoing).yields ⟨Drafts.files, []⟩
      (fun outcome _ => outcome = ⟨3, [⟨⟨utf8 "S1"⟩, 3⟩], [⟨⟨utf8 "S2"⟩, notTextReason⟩]⟩) =
        true)
  exact ⟨outcome, after, ran, of_decide_eq_true told,
    rewriteFiles_exact (by decide) ran⟩

end Pass
end Retarget
