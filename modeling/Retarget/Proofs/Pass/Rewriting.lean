import Retarget.Pass.Rewrite
import Retarget.Proofs.Change.Confined
import Retarget.Proofs.Pass.Listing
import Retarget.Proofs.Resolution.Below
import Retarget.Proofs.Session.Ensures
import Retarget.Proofs.Substitution.Replacement

/-!
What the rewriting pass leaves: every file that carries the target mark holds what the table makes
of its contents, and everything else is as it was. A file that is not written is one the table does
not change.
-/
namespace Retarget

/-- What a table makes of the contents of a file; what is no text stays. -/
def Table.rewrite (table : Table) (contents : Bytes) : Bytes :=
  match text? contents with
  | none => contents
  | some text => utf8 (table.apply text).1

namespace FileSystem

variable {files after : FileSystem} {directory : Path} {place above : Place} {name contents : Bytes}

/-- Reading below a directory gives the contents of the file that stands there. -/
theorem Opens.read_below (opens : files.Opens directory place)
    (held : files.root.entry? (place ++ above ++ [name]) = some (.leaf (.file contents)))
    (legal : ∀ other ∈ above ++ [name], Tree.Legal other) {given : Bytes}
    (read : files.read (directory.descend (above ++ [name])) = .ok given) : given = contents := by
  obtain ⟨⟨reached, node⟩, found, read⟩ := bind_eq_ok.1 read
  obtain ⟨_, leads, there⟩ := stat_iff.1 found
  have plainEnd : (directory.descend (above ++ [name])).endsWithSlash = false := by
    rw [Path.descend_concat]
    exact Path.endsWithSlash_joinName _ (legal name (by simp))
  rw [Path.steps, plainEnd] at leads
  have last := opens.leads_below (Tree.directory_above held (by simp)) legal (by simpa using leads)
  obtain rfl := Spot.found.inj (last.name_plain held (by simp))
  rw [Tree.entry?_eq_leaf, there] at held
  obtain rfl := Option.some.inj held
  exact (Except.ok.inj read).symm

/-- Reading a file found below a directory gives its contents. -/
theorem Opens.read_listed (opens : files.Opens directory place) {file : Found}
    (descends : file.path = directory.descend file.place)
    (legal : ∀ name ∈ file.place, Tree.Legal name)
    (held : files.root.entry? (place ++ file.place) = some (.leaf (.file contents)))
    {given : Bytes} (read : files.read file.path = .ok given) : given = contents := by
  obtain ⟨above, name, whole⟩ := opens.concat_of_leaf held
  rw [whole, ← List.append_assoc] at held
  rw [whole] at legal
  rw [descends, whole] at read
  exact opens.read_below held legal read

/-- Writing below a directory changes the file that stands there. -/
theorem Opens.write_below (opens : files.Opens directory place)
    (held : files.root.entry? (place ++ above ++ [name]) = some (.leaf (.file contents)))
    (legal : ∀ other ∈ above ++ [name], Tree.Legal other) {fresh : Bytes}
    (written : files.write (directory.descend (above ++ [name])) fresh = .ok after) :
    after = files.put (place ++ above ++ [name]) (.leaf (.file fresh)) := by
  have parent : files.root.entry? (place ++ above) = some .directory :=
    Tree.directory_above held (by simp)
  obtain ⟨_, spot, leads, outcome⟩ := write_ok written
  obtain rfl := (opens.leads_below parent legal leads).name_plain held (by simp)
  rcases outcome with ⟨_, _, vacant, _⟩ | ⟨reached, before, same, _, rfl⟩ |
    ⟨reached, content, same, special, notFile, _⟩
  · cases vacant
  · obtain rfl := Spot.found.inj same
    rfl
  · obtain rfl := Spot.found.inj same
    rw [held] at special
    cases special
    exact absurd rfl (notFile contents)

end FileSystem

namespace Pass

open Act FileSystem

variable {before now after : FileSystem} {directory : Path} {place : Place} {listed : List Found}
  {table : Table}

/-- What is found of a file that holds these contents: it is no text, or the table makes another text of
it, or it stays as it is. -/
def Finding.of (table : Table) (path : Path) (contents : Bytes) : Finding :=
  match text? contents with
  | none => .skipped ⟨path, notTextReason⟩
  | some text =>
    if (table.apply text).1 = text then .kept else .rewritten ⟨path, (table.apply text).2⟩

theorem rewriteFile_ensures {file : Found} {good : Finding → FileSystem → Prop}
    {bad : FileSystem → Prop}
    (done : ∀ contents after, now.read file.path = .ok contents →
      (table.rewrite contents = contents ∧ after = now ∨
        now.write file.path (table.rewrite contents) = .ok after) →
      good (Finding.of table (file.path.relativeTo directory) contents) after) (failed : bad now) :
      (rewriteFile directory table file).Ensures now good bad := by
  refine Ensures.bind ((ensures_examine _).2 ⟨fun contents given => ?_, fun _ _ => failed⟩)
  have read : now.read file.path = .ok contents := mapError_eq_ok.1 given
  have finding := done contents
  cases isText : text? contents with
  | none =>
    simp only [Finding.of, isText] at finding
    refine Ensures.bind ((ensures_note _).2
      ((ensures_pure _).2 (finding now read (.inl ⟨?_, rfl⟩))))
    simp [Table.rewrite, isText]
  | some text =>
    have rewritten : table.rewrite contents = utf8
        (table.apply text).1 := by simp [Table.rewrite, isText]
    have whole := text?_eq_some_iff.1 isText
    simp only [Finding.of, isText] at finding
    dsimp only
    split
    · rename_i idle
      have same : (table.apply text).1 = text := idle.elim Table.apply_of_zero id
      rw [if_pos same] at finding
      refine (ensures_pure _).2 (finding now read (.inl ⟨?_, rfl⟩))
      rw [rewritten, ← whole, same]
    · rename_i busy
      rw [if_neg fun same => busy (.inr same)] at finding
      refine Ensures.bind ((ensures_note _).2
        (Ensures.bind (ensures_change.2 ⟨fun after written => ?_, fun _ _ => failed⟩)))
      exact (ensures_pure _).2 (finding after read (.inr (rewritten ▸ written)))

/-- One file dealt with: it holds what the table makes of its contents, whether it is written or
kept. -/
theorem rewrite_listed (opens : now.Opens directory place) (sound : now.Sound) {file : Found}
    (descends : file.path = directory.descend file.place) (legal : ∀ name ∈ file.place,
      Tree.Legal name) {contents given : Bytes}
    (held : now.root.entry? (place ++ file.place) = some (.leaf (.file contents)))
    (read : now.read file.path = .ok given)
    (outcome : table.rewrite given = given ∧ after = now ∨
      now.write file.path (table.rewrite given) = .ok after) :
    after.Sound ∧ after.cwd = now.cwd ∧ ∀ query, after.root.entry? query =
      if query = place ++ file.place then some (.leaf (.file (table.rewrite contents))) else
          now.root.entry? query := by
  obtain rfl := opens.read_listed descends legal held read
  obtain ⟨above, name, whole⟩ := opens.concat_of_leaf held
  rw [whole] at held legal descends
  rw [descends] at outcome
  rw [whole, ← List.append_assoc]
  rw [← List.append_assoc] at held
  rcases outcome with ⟨same, rfl⟩ | written
  · refine ⟨sound, rfl, fun query => ?_⟩
    split
    · rename_i here
      rw [here, held, same]
    · rfl
  · obtain rfl := opens.write_below held legal written
    exact ⟨sound.write written, rfl,
      entry?_put_leaf (Tree.directory_above held (by simp)) (by rw [held]; simp)⟩

/-- What the entries are once some files were dealt with, in terms of what they were before. -/
structure Rewritten (table : Table) (before : FileSystem) (place : Place) (passed : List Found)
    (now : FileSystem) : Prop where
  done : ∀ found ∈ passed, ∀ contents,
      before.root.entry? (place ++ found.place) = some (.leaf (.file contents)) →
    now.root.entry? (place ++ found.place) = some (.leaf (.file (table.rewrite contents)))
  others : ∀ query, (∀ found ∈ passed, query ≠ place ++ found.place) →
      now.root.entry? query = before.root.entry? query

/-- Only contents change, so the directories and links are the same. -/
theorem Rewritten.entry_kind {passed : List Found}
    (rewritten : Rewritten table before place passed now)
    (files : ∀ found ∈ passed, ∃ contents,
      before.root.entry? (place ++ found.place) = some (.leaf (.file contents)))
    (query : Place) : now.root.entry? query = before.root.entry? query ∨
      ∃ old new, before.root.entry? query = some (.leaf (.file old)) ∧
      now.root.entry? query = some (.leaf (.file new)) := by
  by_cases met : ∃ found ∈ passed, query = place ++ found.place
  · obtain ⟨found, member, rfl⟩ := met
    obtain ⟨contents, held⟩ := files found member
    exact .inr ⟨contents, _, held, rewritten.done found member contents held⟩
  · exact .inl (rewritten.others query fun found member same => met ⟨found, member, same⟩)

/-- A file holds what the table makes of it if its name carries the target mark, and what it held if
not. -/
theorem Rewritten.file {naming : Naming} {above : Place} {name contents : Bytes}
    (lists : before.Lists directory place listed)
    (rewritten : Rewritten table before place
      (listed.filter fun found => naming.isTarget found.name) after)
    (held : before.root.entry? (place ++ (above ++ [name])) = some (.leaf (.file contents))) :
    after.root.entry? (place ++ (above ++ [name])) =
      some (.leaf (.file (if naming.isTarget name then table.rewrite contents else contents))) := by
  split
  · rename_i isTarget
    obtain ⟨found, member, same⟩ := lists.complete _ _ held
    have named : found.name = name := by simp [Found.name, same]
    rw [← same] at held ⊢
    exact rewritten.done found (List.mem_filter.2 ⟨member, named ▸ isTarget⟩) contents held
  · rename_i other
    rw [rewritten.others _ fun found member same => other ?_, held]
    have named : found.name = name := by simp [Found.name, ← List.append_cancel_left same]
    exact named ▸ (List.mem_filter.1 member).2

theorem Rewritten.nil (table : Table) (before : FileSystem) (place : Place) :
    Rewritten table before place [] before :=
  ⟨by simp, fun _ _ => rfl⟩

theorem Rewritten.step {passed : List Found} (rewritten : Rewritten table before place passed now)
    {found : Found}
    (fresh : ∀ other ∈ passed, other.place ≠ found.place) {contents : Bytes}
    (held : before.root.entry? (place ++ found.place) = some (.leaf (.file contents)))
    (entries : ∀ query, after.root.entry? query = if query = place ++ found.place then
      some (.leaf (.file (table.rewrite contents))) else now.root.entry? query) :
    Rewritten table before place (passed ++ [found]) after := by
  refine ⟨fun other member given file => ?_, fun query away => ?_⟩
  · rw [entries]
    rcases List.mem_append.1 member with old | new
    · rw [if_neg (by simpa using fresh other old)]
      exact rewritten.done other old given file
    · obtain rfl : other = found := by simpa using new
      rw [held] at file
      cases file
      rw [if_pos rfl]
  · rw [entries, if_neg (away found (by simp))]
    exact rewritten.others query fun other member => away other (List.mem_append_left _ member)

/-- The table changes no file that is to be rewritten below two directories. -/
def Unrewritten (naming : Naming) (table : Table) (files : FileSystem) (inner place : Place) :
    Prop :=
  ∀ above name contents, inner <+: above → place <+: above →
    files.root.entry? (above ++ [name]) = some (.leaf (.file contents)) →
      naming.isTarget name = true → table.rewrite contents = contents

theorem unrewritten_congr {naming : Naming} {inner : Place}
    (same : ∀ query, inner <+: query → now.root.entry? query = before.root.entry? query) :
    Unrewritten naming table now inner place ↔ Unrewritten naming table before inner place := by
  have below : ∀ above name, inner <+: above →
      now.root.entry? (above ++ [name]) = before.root.entry? (above ++ [name]) :=
    fun above name inside => same _ (inside.trans (List.prefix_append _ _))
  constructor
  · intro kept above name contents inside under file
    exact kept above name contents inside under ((below above name inside).trans file)
  · intro kept above name contents inside under file
    exact kept above name contents inside under ((below above name inside).symm.trans file)

/-- Rewriting keeps a directory exactly if the table keeps every file below it that is to be
rewritten. -/
theorem Rewritten.keeps_iff {naming : Naming} {inner : Place}
    (stands : before.root.entry? inner = some .directory)
    (lists : before.Lists directory place listed)
    (rewritten : Rewritten table before place
      (listed.filter fun found => naming.isTarget found.name) after) :
    (∀ query, inner <+: query → after.root.entry? query = before.root.entry? query) ↔
      Unrewritten naming table before inner place := by
  constructor
  · rintro kept above name contents inside ⟨below, rfl⟩ file isTarget
    rw [List.append_assoc] at file
    have done := rewritten.file lists file
    rw [← List.append_assoc, kept _ (inside.trans (List.prefix_append _ _)), List.append_assoc,
      file, if_pos isTarget] at done
    simpa using done.symm
  · intro same query inside
    by_cases met : ∃ found ∈ listed.filter fun found => naming.isTarget found.name,
      query = place ++ found.place
    · obtain ⟨found, member, rfl⟩ := met
      obtain ⟨among, isTarget⟩ := List.mem_filter.1 member
      obtain ⟨contents, _, file⟩ := lists.held found among
      obtain ⟨above, name, whole, named, _⟩ := lists.above among
      rw [rewritten.done found member contents file, file]
      rw [whole, ← List.append_assoc] at file inside
      rcases List.prefix_concat_iff.1 inside with here | within
      · rw [← here, stands] at file
        cases file
      · rw [same _ name contents within (List.prefix_append _ _) file (named ▸ isTarget)]
    · exact rewritten.others query fun found member here => met ⟨found, member, here⟩

theorem Rewritten.ways {passed : List Found} (rewritten : Rewritten table before place passed now)
    (files : ∀ found ∈ passed, ∃ contents,
      before.root.entry? (place ++ found.place) = some (.leaf (.file contents))) :
    before.root.WaysIn now.root ∧ now.root.WaysIn before.root := by
  constructor
  · intro query entry held passable
    rcases rewritten.entry_kind files query with same | ⟨old, new, first, _⟩
    · rw [same, held]
    · rw [held] at first
      cases first
      cases passable
  · intro query entry held passable
    rcases rewritten.entry_kind files query with same | ⟨old, new, _, second⟩
    · rw [← same, held]
    · rw [held] at second
      cases second
      cases passable

theorem Rewritten.confined {passed : List Found}
    (rewritten : Rewritten table before place passed now)
    (files : ∀ found ∈ passed, ∃ contents,
      before.root.entry? (place ++ found.place) = some (.leaf (.file contents)))
    (sound : now.Sound) (cwd : now.cwd = before.cwd) : before.Confined place now := by
  refine ⟨sound, cwd, (rewritten.ways files).2, fun query outside => rewritten.others query ?_⟩
  rintro found _ rfl
  exact outside (List.prefix_append _ _)

/-- What is found of a file is settled by what it held before the pass. -/
def Finds (table : Table) (before : FileSystem) (directory : Path) (place : Place) (found : Found)
    (finding : Finding) : Prop :=
  ∃ contents, before.root.entry? (place ++ found.place) = some (.leaf (.file contents)) ∧
    finding = Finding.of table (found.path.relativeTo directory) contents

/-- Files of a list rewritten one after another, each once, so that each holds when its turn comes what it
held before. -/
theorem rewriteEach_ensures (lists : before.Lists directory place listed) (sound : before.Sound)
    {chosen : List Found} (among : chosen.Sublist listed) :
    (chosen.mapM (rewriteFile directory table)).Ensures before
      (fun findings after => before.Confined place after ∧ before.root.WaysIn after.root ∧
        Rewritten table before place chosen after ∧
        List.Forall₂ (Finds table before directory place) chosen findings)
      (before.Confined place) := by
  have held : ∀ found ∈ chosen, ∃ contents,
      before.root.entry? (place ++ found.place) = some (.leaf (.file contents)) := by
    intro found member
    obtain ⟨contents, _, file⟩ := lists.held found (among.subset member)
    exact ⟨contents, file⟩
  have places : (chosen.map Found.place).Nodup := lists.distinct.sublist (among.map _)
  let invariant (findings : List Finding) (left : List Found) (now : FileSystem) : Prop :=
    now.Sound ∧ now.cwd = before.cwd ∧ ∃ passed, chosen = passed ++ left ∧
      Rewritten table before place passed now ∧
      List.Forall₂ (Finds table before directory place) passed findings
  refine (ensures_mapM invariant ?_ _ ⟨sound, rfl, [], rfl, .nil table before place, .nil⟩).imp ?_
    fun _ failed => failed
  · rintro findings file rest now ⟨nowSound, cwd, passed, whole, rewritten, found⟩
    have member : file ∈ chosen := by simp [whole]
    have fresh : ∀ other ∈ passed, other.place ≠ file.place := by
      rw [whole, List.map_append, List.nodup_append] at places
      exact fun other before => places.2.2 _ (List.mem_map_of_mem before) _ (by simp)
    have passedHeld : ∀ found ∈ passed, ∃ contents,
        before.root.entry? (place ++ found.place) = some (.leaf (.file contents)) :=
        fun other before => held other (by simp [whole, before])
    have opens : now.Opens directory place := lists.opens.carry (rewritten.ways passedHeld).1 cwd
    obtain ⟨contents, old⟩ := held file member
    have current : now.root.entry? (place ++ file.place) = some (.leaf (.file contents)) := by
      rw [rewritten.others _ fun other before same =>
        fresh other before (List.append_cancel_left same).symm, old]
    have descends := lists.descends file (among.subset member)
    have legal := lists.legal sound.wellFormed (among.subset member)
    refine rewriteFile_ensures (fun given after read outcome => ?_)
      (rewritten.confined passedHeld nowSound cwd)
    obtain ⟨afterSound, afterCwd, entries⟩ :=
      rewrite_listed opens nowSound descends legal current read outcome
    obtain rfl := opens.read_listed descends legal current read
    exact ⟨afterSound, afterCwd.trans cwd, passed ++ [file], by simp [whole],
      rewritten.step fresh old entries, List.rel_append found (.cons ⟨given, old, rfl⟩ .nil)⟩
  · rintro findings after ⟨afterSound, cwd, passed, whole, rewritten, found⟩
    rw [List.append_nil] at whole
    subst whole
    exact ⟨rewritten.confined held afterSound cwd, (rewritten.ways held).1, rewritten, found⟩

theorem rewriteFiles_ensures {naming : Naming} (sound : before.Sound) :
    (rewriteFiles directory naming table).Ensures before
      (fun _ after => ∃ place listed, before.Lists directory place listed ∧
        before.Confined place after ∧
        before.root.WaysIn after.root ∧
        Rewritten table before place (listed.filter fun found => naming.isTarget found.name) after)
      (fun after => after = before ∨ ∃ place, before.Opens directory place ∧
        before.Confined place after) := by
  refine Ensures.bind ((ensures_note _).2
    (Ensures.bind ((ensures_examine _).2 ⟨fun listed found => ?_, fun _ _ => .inl rfl⟩)))
  obtain ⟨place, lists⟩ := filesBelow_ok sound.wellFormed found
  refine Ensures.bind ((rewriteEach_ensures lists sound List.filter_sublist).imp ?_
    fun after confined => .inr ⟨place, lists.opens, confined⟩)
  rintro findings after ⟨confined, ways, rewritten, _⟩
  exact (ensures_pure _).2 ⟨place, listed, lists, confined, ways, rewritten⟩

/-- What changes below the directory keep, the pass keeps, whether it comes to its end or breaks
off. -/
theorem rewriteFiles_confined {naming : Naming} (keeps : FileSystem → Prop) (sound : before.Sound)
    (confined : ∀ place after, before.Opens directory place → before.Confined place after →
      keeps after) (start : keeps before) :
    (rewriteFiles directory naming table).Ensures before (fun _ => keeps) keeps := by
  refine (rewriteFiles_ensures sound).imp ?_ ?_
  · rintro _ after ⟨place, listed, lists, inside, _⟩
    exact confined place after lists.opens inside
  · rintro after (rfl | ⟨place, opens, inside⟩)
    · exact start
    · exact confined place after opens inside

/-- What giving a file below the directory new contents keeps, the pass keeps, whether it comes to
its end or breaks off. -/
theorem rewriteFiles_keeps {naming : Naming} (keeps : FileSystem → Prop) (sound : before.Sound)
    (step : ∀ place above name old fresh now, before.Opens directory place → keeps now →
      now.root.entry? (place ++ above ++ [name]) = some (.leaf (.file old)) →
      keeps (now.put (place ++ above ++ [name]) (.leaf (.file fresh))))
    (start : keeps before) :
    (rewriteFiles directory naming table).Ensures before (fun _ => keeps) keeps := by
  refine Ensures.bind ((ensures_note _).2
    (Ensures.bind ((ensures_examine _).2 ⟨fun listed found => ?_, fun _ _ => start⟩)))
  obtain ⟨place, lists⟩ := filesBelow_ok sound.wellFormed found
  -- A file stays a file when it is rewritten, so the others are there when their turn comes.
  let stands (now : FileSystem) : Prop := now.Opens directory place ∧ ∀ file ∈ listed,
    ∃ contents, now.root.entry? (place ++ file.place) = some (.leaf (.file contents))
  refine Ensures.bind ((ensures_mapM (fun _ left now => (∀ file ∈ left, file ∈ listed) ∧
    stands now ∧ keeps now) ?_ _ ⟨?_, ⟨lists.opens, ?_⟩, start⟩).imp ?_ fun _ failed => failed)
  · rintro results file rest now ⟨inside, ⟨opens, held⟩, kept⟩
    have member := inside file List.mem_cons_self
    have left : ∀ other ∈ rest, other ∈ listed :=
      fun other later => inside other (List.mem_cons_of_mem _ later)
    refine rewriteFile_ensures (fun given after read outcome => ?_) kept
    rcases outcome with ⟨_, rfl⟩ | written
    · exact ⟨left, ⟨opens, held⟩, kept⟩
    · obtain ⟨old, stood⟩ := held file member
      obtain ⟨above, name, whole, _⟩ := lists.above member
      have legal := lists.legal sound.wellFormed member
      rw [lists.descends file member, whole] at written
      rw [whole, ← List.append_assoc] at stood
      rw [whole] at legal
      obtain rfl := opens.write_below stood legal written
      have directory : now.root.entry? (place ++ above) = some .directory :=
        Tree.directory_above stood (by simp)
      have leaf : now.root.entry? (place ++ above ++ [name]) ≠ some .directory := by
        rw [stood]
        simp
      refine ⟨left, ⟨opens.carry (fun query entry there passable => ?_) rfl, fun other among => ?_⟩,
        step place above name old _ now lists.opens kept stood⟩
      · rw [entry?_put_leaf directory leaf, if_neg, there]
        rintro rfl
        rw [stood] at there
        cases there
        cases passable
      · rw [entry?_put_leaf directory leaf]
        split
        · exact ⟨_, rfl⟩
        · exact held other among
  · exact fun file member => (List.mem_filter.1 member).1
  · intro file member
    obtain ⟨contents, _, file⟩ := lists.held file member
    exact ⟨contents, file⟩
  · exact fun findings after held => (ensures_pure _).2 held.2.2

end Pass
end Retarget
