import Retarget.Proofs.Resolution.Below
import Retarget.Proofs.Resolution.Forecast

/-!
Reading a file by a path below a directory. The file is there, so all that can be wrong is the path:
it may be too long as a whole, or have a name in it that is too long for any entry.
-/
namespace Retarget

namespace Tree

variable {tree : Tree} {follow : Bool} {budget : Nat} {place names reached : Place}

/-- Names lead down to what stands at their end, unless one of them is too long. -/
theorem advance_names {entry : Entry} (held : tree.entry? (place ++ names) = some entry)
    (plain : ∀ link, entry ≠ .leaf (.link link)) :
    tree.advance follow place (names.map .into) =
      if ∀ name ∈ names, name.length ≤ nameLimit then .ok (.arrived (place ++ names))
      else .error .nameTooLong := by
  induction names generalizing place with
  | nil => simp [advance]
  | cons name rest ih =>
    have regrouped : place ++ name :: rest = place ++ [name] ++ rest := by simp
    have here : tree.entry? place = some .directory := directory_above held (by simp)
    rw [regrouped] at held ⊢
    by_cases short : name.length ≤ nameLimit
    · have next : ∃ other, tree.entry? (place ++ [name]) = some other ∧
          ∀ link, other ≠ .leaf (.link link) := by
        cases rest with
        | nil => exact ⟨entry, by simpa using held, plain⟩
        | cons first others => exact ⟨.directory, directory_above held (by simp), by simp⟩
      obtain ⟨other, stands, otherPlain⟩ := next
      rw [List.map_cons, advance_into here short, stands]
      simp only [List.forall_mem_cons, short, true_and, ← ih held]
    · obtain ⟨inner, found⟩ := entry?_eq_directory.1 here
      rw [List.map_cons, advance, found, if_neg fun all => short (all name (by simp))]
      simp [Nat.lt_of_not_le short]

/-- Steps that make the same progress lead to the same end. -/
theorem reach_of_advance {first second : Place} {steps others : List Step}
    (same : tree.advance follow first steps = tree.advance follow second others) :
    tree.reach follow budget first steps = tree.reach follow budget second others := by
  cases budget <;> (unfold reach; rw [same])

theorem reach_names {entry : Entry} (held : tree.entry? (place ++ names) = some entry)
    (plain : ∀ link, entry ≠ .leaf (.link link)) :
    tree.reach follow budget place (names.map .into) =
      if ∀ name ∈ names, name.length ≤ nameLimit then .ok (.found (place ++ names))
      else .error .nameTooLong := by
  have progress : tree.advance follow place (names.map .into) = _ := advance_names held plain
  by_cases short : ∀ name ∈ names, name.length ≤ nameLimit
  · rw [if_pos short] at progress ⊢
    cases budget <;> (unfold reach; rw [progress])
  · rw [if_neg short] at progress ⊢
    cases budget <;> (unfold reach; rw [progress])

/-- Steps that come to nothing from where others lead come to nothing behind them. -/
theorem reach_append_error {steps more : List Step} {cause : OsError}
    (led : Leads tree true budget place steps (.found reached)) (goes : more ≠ [])
    (fails : ∀ left, tree.reach follow left reached more = .error cause) :
    tree.reach follow budget place (steps ++ more) = .error cause := by
  generalize ended : Spot.found reached = finish at led
  induction led with
  | arrived =>
    cases ended
    exact fails _
  | stay here _ ih => exact (reach_of_advance (advance_stay here)).trans (ih ended)
  | up here _ ih => exact (reach_of_advance (advance_up here)).trans (ih ended)
  | @into budget place name entry rest spot here short held plain _ ih =>
    refine (reach_of_advance ?_).trans (ih ended)
    rw [List.cons_append, advance_into here short, held]
    cases entry with
    | directory => rfl
    | leaf content =>
      cases content with
      | link link => exact absurd rfl (plain link)
      | file contents => rfl
      | special => rfl
  | vacant => cases ended
  | atLink _ _ _ stop => cases stop
  | @through budget place name target rest spot here short held go written _ ih =>
    have on : ¬(rest ++ more = [] ∧ follow = false) :=
      fun both => goes (List.append_eq_nil_iff.1 both.1).2
    rw [List.cons_append, reach, advance_into here short, held]
    simp only [on, if_false, if_neg written]
    rw [← List.append_assoc]
    exact ih ended

end Tree

namespace Path

/-- A path below another is accepted unless it is too long. -/
theorem check_descend {directory : Path} (accepted : directory.check = .ok ()) {below : Place}
    (legal : ∀ name ∈ below, Tree.Legal name) :
    (directory.descend below).check =
      if pathLimit ≤ (directory.descend below).bytes.length then .error .nameTooLong
      else .ok () := by
  have free : 0 ∉ (directory.descend below).bytes ∧ (directory.descend below).bytes ≠ [] := by
    obtain ⟨zero, written, _⟩ := check_eq_ok_iff.1 accepted
    induction below using List.reverseRecOn with
    | nil => exact ⟨zero, written⟩
    | append_singleton above name ih =>
      have named := legal name (by simp)
      have before := ih fun other member => legal other (by simp [member])
      rw [descend_concat]
      refine ⟨?_, bytes_joinName_ne_nil _ named⟩
      rw [joinName, join_relative _ (isAbsolute_name named), List.mem_append, List.mem_append,
        not_or, not_or]
      refine ⟨⟨before.1, ?_⟩, named.2.2⟩
      unfold seam
      split <;> simp [slash]
  rw [check, if_neg free.1, if_neg free.2]

/-- The system takes the path that leads from a directory down by some names, whatever is there. -/
def InReach (directory : Path) (below : Place) : Prop :=
  (directory.descend below).bytes.length < pathLimit ∧ ∀ name ∈ below, name.length ≤ nameLimit

instance (directory : Path) (below : Place) : Decidable (directory.InReach below) :=
  inferInstanceAs (Decidable (_ ∧ _))

end Path

namespace FileSystem

variable {files : FileSystem} {directory : Path} {place below : Place} {contents : Bytes}

/-- The path to a file below a directory leads there, or is too long. -/
theorem Opens.stat_below (opens : files.Opens directory place)
    (held : files.root.entry? (place ++ below) = some (.leaf (.file contents)))
    (legal : ∀ name ∈ below, Tree.Legal name) :
    files.stat (directory.descend below) =
      if directory.InReach below then .ok (place ++ below, .leaf (.file contents))
      else .error .nameTooLong := by
  have some : below ≠ [] := by
    rintro rfl
    rw [List.append_nil, opens.directory] at held
    cases held
  have goes : below.map Step.into ≠ [] := by simpa using some
  have steps : (directory.descend below).steps = directory.openSteps ++ below.map .into := by
    obtain ⟨above, name, rfl⟩ := (List.eq_nil_or_concat' below).resolve_left some
    rw [Path.steps, Path.openSteps_descend directory legal, Path.descend_concat,
      Path.endsWithSlash_joinName _ (legal name (by simp))]
    simp
  have checked := Path.check_descend opens.accepted legal
  have plain : ∀ link, Entry.leaf (.file contents) ≠ .leaf (.link link) := by simp
  by_cases fits : pathLimit ≤ (directory.descend below).bytes.length
  · rw [if_pos fits] at checked
    rw [if_neg fun inReach => Nat.not_lt.2 fits inReach.1]
    simp [stat, spot, checked, bind, Except.bind]
  · rw [if_neg fits] at checked
    by_cases short : ∀ name ∈ below, name.length ≤ nameLimit
    · rw [if_pos ⟨Nat.lt_of_not_le fits, short⟩]
      have last : Leads files.root true 0 place (below.map .into) (.found (place ++ below)) := by
        rw [← Tree.reach_iff_leads, Tree.reach_names held plain, if_pos short]
      refine stat_iff.2 ⟨checked, ?_, Tree.entry?_eq_leaf.1 held⟩
      rw [steps, Path.start_descend directory legal]
      exact opens.leads.append last goes
    · rw [if_neg fun inReach => short inReach.2]
      have refused : files.root.reach true linkLimit (directory.start files.cwd)
          (directory.openSteps ++ below.map .into) = .error .nameTooLong :=
        Tree.reach_append_error opens.leads goes fun _ =>
          (Tree.reach_names held plain).trans (if_neg short)
      simp [stat, spot, checked, steps, Path.start_descend directory legal, refused, bind,
        Except.bind]

/-- A file below a directory is read by its path, or the path is too long. -/
theorem Opens.read_eq (opens : files.Opens directory place)
    (held : files.root.entry? (place ++ below) = some (.leaf (.file contents)))
    (legal : ∀ name ∈ below, Tree.Legal name) :
    files.read (directory.descend below) =
      if directory.InReach below then .ok contents else .error .nameTooLong := by
  rw [FileSystem.read, opens.stat_below held legal]
  split <;> rfl

end FileSystem
end Retarget
