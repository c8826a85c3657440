import Mathlib.Data.List.ProdSigma
import Retarget.Proofs.Pass.Inventory
import Retarget.Proofs.Pass.Verification
import Retarget.Proofs.Session.Outcome
import Retarget.Proofs.Substitution.Occurrences

/-!
What a check lists. It only looks, and tells of every file with the source mark and of every pattern
that was to be replaced in a text with the target mark and still stands there, file by file in the order
of the walk and entry by entry in the order of the table. A pattern is counted as its entry alone would
replace it.
-/
namespace Retarget

/-- A table of one entry counts the occurrences of its pattern. -/
theorem Table.apply_insert_empty {entry : Substitution} (some : entry.pattern ≠ "")
    (text : String) : ((Table.empty.insert entry).apply text).2 =
      occurrences entry.pattern.toList text.toList := by
  have once : ((Table.empty.insert entry).apply text).2 = (entry.apply text.toList).2 := rfl
  rw [once, Substitution.apply_of_ne some]

namespace Pass

open Act FileSystem

variable {files : FileSystem} {directory : Path} {place : Place} {naming : Naming} {table : Table}
  {inventory : List StoredFile} {file : StoredFile} {entry : Substitution}

/-- A pattern that was to be replaced in a text, and would not be put there by its own replacement,
still stands in it. -/
def Remains (naming : Naming) (file : StoredFile) (entry : Substitution) : Prop :=
  naming.isTarget file.name = true ∧ naming.isSource file.name = false ∧ entry.pattern ≠ "" ∧
    ¬entry.pattern.toList <:+: entry.replacement.toList ∧
    ∃ text ∈ text? file.contents, entry.pattern.toList <:+: text.toList

instance : Decidable (Remains naming file entry) :=
  inferInstanceAs (Decidable (_ ∧ _))

/-- What is told of a pattern that remains: how often it occurs, from the left and without overlaps, as
the table of its entry alone counts. -/
structure Tells (file : StoredFile) (entry : Substitution) (told : Residual) : Prop where
  path : told.path = file.path
  pattern : told.pattern = entry.pattern
  count : ∃ text ∈ text? file.contents, told.count = ((Table.empty.insert entry).apply text).2 ∧
    ∃ cut : Cut, cut.Leftmost entry.pattern.toList ∧ cut.join entry.pattern.toList = text.toList ∧
      told.count = cut.stretches.length

theorem residual?_eq_some {path : Path} {text : List Char} {told : Residual} :
    residual? path text entry = some told ↔ isChecked entry = true ∧ entry.pattern.toList <:+: text ∧
      told = ⟨path, entry.pattern, occurrences entry.pattern.toList text⟩ := by
  unfold residual?
  by_cases checked : isChecked entry = true
  · have some := Substitution.toList_pattern (isChecked_iff.1 checked).1
    simp [checked, occurrences_eq_zero some, eq_comm]
  · simp [checked]

/-- What is told of a text, entry by entry. -/
theorem residuals_tell {text : String} (isText : text? file.contents = some text)
    (isTarget : naming.isTarget file.name = true) (plain : naming.isSource file.name = false)
    (entries : List Substitution) :
    List.Forall₂ (Tells file) (entries.filter fun entry => Remains naming file entry)
      (entries.filterMap (residual? file.path text.toList)) := by
  refine forall₂_filter_filterMap (fun entry _ => ?_) fun entry _ told given => ?_
  · rw [Bool.eq_iff_iff, decide_eq_true_iff, Option.isSome_iff_exists]
    simp [residual?_eq_some, isChecked_iff, Remains, isText, isTarget, plain, and_assoc]
  · obtain ⟨checked, _, rfl⟩ := residual?_eq_some.1 given
    have some := (isChecked_iff.1 checked).1
    have filled := Substitution.toList_pattern some
    obtain ⟨cut, leftmost, same⟩ := Cut.exists_leftmost filled text.toList
    refine ⟨rfl, rfl, text, isText, (Table.apply_insert_empty some text).symm, cut, leftmost, same,
      ?_⟩
    rw [← same]
    exact (leftmost.searches filled []).2

/-- What is told of one file. -/
theorem residueOfFile_tells (kept : files.Inventory directory place inventory)
    (sound : files.Sound) (member : file ∈ inventory) {residue : Residue}
    (found : residueOfFile files directory naming table (file.found directory) = .ok residue) :
    residue.unrenamed = (if naming.isSource file.name then [file.path] else []) ∧
      List.Forall₂ (Tells file) (table.entries.filter fun entry => Remains naming file entry)
        residue.residuals := by
  have idle : (∀ text, text? file.contents = some text → naming.isTarget file.name = true →
      naming.isSource file.name = true) →
      table.entries.filter (fun entry => Remains naming file entry) = [] := by
    intro passed
    refine List.filter_eq_nil_iff.2 fun entry _ remains => ?_
    obtain ⟨isTarget, plain, _, _, text, isText, _⟩ := of_decide_eq_true remains
    simp [passed text isText isTarget] at plain
  unfold residueOfFile at found
  rw [kept.relativeTo sound.wellFormed member] at found
  change (if naming.isSource file.name = true then _ else
    if naming.isTarget file.name = true then _ else _) = _ at found
  split at found
  · rename_i isSource
    obtain rfl := Except.ok.inj found
    rw [if_pos isSource, idle fun _ _ _ => isSource]
    exact ⟨rfl, .nil⟩
  · rename_i plain
    rw [if_neg plain]
    split at found
    · rename_i isTarget
      obtain ⟨contents, given, found⟩ := bind_eq_ok.1 found
      obtain rfl := kept.opens.read_listed rfl (kept.legal sound.wellFormed member)
        ((kept.held file).1 member) (mapError_eq_ok.1 given)
      cases isText : text? file.contents with
      | none =>
        rw [isText] at found
        obtain rfl := Except.ok.inj found
        rw [idle fun text same => by simp [isText] at same]
        exact ⟨rfl, .nil⟩
      | some text =>
        rw [isText] at found
        obtain rfl := Except.ok.inj found
        exact ⟨rfl, residuals_tell isText isTarget (by simpa using plain) _⟩
    · rename_i other
      obtain rfl := Except.ok.inj found
      rw [idle fun _ _ isTarget => absurd isTarget other]
      exact ⟨rfl, .nil⟩

theorem residueOfFiles_tell (kept : files.Inventory directory place inventory)
    (sound : files.Sound) {some : List StoredFile} (inside : ∀ file ∈ some, file ∈ inventory)
    {residue : Residue}
    (found : residueOfFiles files directory naming table (some.map (StoredFile.found directory)) =
      .ok residue) :
    residue.unrenamed = (some.filter fun file => naming.isSource file.name).map StoredFile.path ∧
      List.Forall₂ (fun pair told => Tells pair.1 pair.2 told)
        ((some ×ˢ table.entries).filter fun pair => Remains naming pair.1 pair.2)
        residue.residuals := by
  induction some generalizing residue with
  | nil =>
    obtain rfl := Except.ok.inj found
    exact ⟨rfl, .nil⟩
  | cons file rest ih =>
    rw [List.forall_mem_cons] at inside
    obtain ⟨first, here, found⟩ := bind_eq_ok.1 found
    obtain ⟨others, more, found⟩ := bind_eq_ok.1 found
    obtain rfl := Except.ok.inj found
    obtain ⟨unrenamed, residuals⟩ := residueOfFile_tells kept sound inside.1 here
    obtain ⟨laterUnrenamed, laterResiduals⟩ := ih inside.2 more
    constructor
    · simp only [Residue.append, unrenamed, laterUnrenamed, List.filter_cons]
      split <;> rfl
    · have here : List.Forall₂ (fun pair told => Tells pair.1 pair.2 told)
          ((table.entries.filter fun entry => Remains naming file entry).map (Prod.mk file))
          first.residuals := List.forall₂_map_left_iff.2 residuals
      rw [List.product_cons, List.filter_append, List.filter_map]
      exact List.rel_append here laterResiduals

/-- A check that comes to an end has changed nothing and tells exactly of the files with the source mark
and of the patterns that remain. -/
theorem residue_exact (sound : files.Sound) {log : List Event} {residue : Residue} {after : Session}
    (ran : (examine fun files => Pass.residue files directory naming table).runOn ⟨files, log⟩ =
      (.ok residue, after)) :
    after.files = files ∧ ∃ place inventory, files.Inventory directory place inventory ∧
      residue.unrenamed =
        (inventory.filter fun file => naming.isSource file.name).map StoredFile.path ∧
      List.Forall₂ (fun pair told => Tells pair.1 pair.2 told)
        ((inventory ×ˢ table.entries).filter fun pair => Remains naming pair.1 pair.2)
        residue.residuals := by
  obtain ⟨found, rfl⟩ := Prod.mk.inj ((runOn_examine rfl log).symm.trans ran)
  refine ⟨rfl, ?_⟩
  obtain ⟨listed, below, found⟩ := bind_eq_ok.1 found
  obtain ⟨place, inventory, kept, rfl⟩ := filesBelow_inventory sound.wellFormed below
  exact ⟨place, inventory, kept, residueOfFiles_tell kept sound (fun _ member => member) found⟩

namespace Remnants

/-- A file that was not renamed, a text with overlapping occurrences of a pattern, and bytes that are no
text. -/
def held : FileSystem := ⟨.branch (utf8 "t") (.leaf (utf8 "D1") (.file (utf8 "aa"))
  (.leaf (utf8 "S1") (.file (utf8 "aaab")) (.leaf (utf8 "S2") (.file [255]) .empty))) .empty, []⟩

/-- The second replacement holds its pattern, and the third pattern is empty. -/
def renewing : Table := ⟨[⟨"aa", "b"⟩, ⟨"b", "bb"⟩, ⟨"", "x"⟩, ⟨"ab", "c"⟩], by decide⟩

def residue : Residue := ⟨[⟨utf8 "D1"⟩], [⟨⟨utf8 "S1"⟩, "aa", 1⟩, ⟨⟨utf8 "S1"⟩, "ab", 1⟩]⟩

end Remnants

theorem residue_exact_remnants :
    ∃ after, (examine fun files =>
        Pass.residue files ⟨utf8 "t"⟩ Naming.standard Remnants.renewing).runOn
          ⟨Remnants.held, []⟩ = (.ok Remnants.residue, after) ∧
      after.files = Remnants.held ∧ ∃ place inventory,
        Remnants.held.Inventory ⟨utf8 "t"⟩ place inventory ∧
        List.Forall₂ (fun pair told => Tells pair.1 pair.2 told)
          ((inventory ×ˢ Remnants.renewing.entries).filter fun pair =>
            Remains Naming.standard pair.1 pair.2) Remnants.residue.residuals := by
  obtain ⟨residue, after, ran, told⟩ := yields_iff.1 (by decide :
    (examine fun files =>
      Pass.residue files ⟨utf8 "t"⟩ Naming.standard Remnants.renewing).yields
        ⟨Remnants.held, []⟩ (fun residue _ => residue = Remnants.residue) = true)
  obtain rfl := of_decide_eq_true told
  obtain ⟨same, place, inventory, kept, _, residuals⟩ := residue_exact (by decide) ran
  exact ⟨after, ran, same, place, inventory, kept, residuals⟩

end Pass
end Retarget
