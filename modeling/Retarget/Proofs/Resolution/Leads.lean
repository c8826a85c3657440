import Retarget.FileSystem.Resolve
import Retarget.Proofs.Tree.Entries

/-!
Resolution as a relation. `Leads` says in one rule for each kind of step where steps lead, links
included; `reach` computes exactly this relation. Everything known of resolution is then an
induction on how steps lead somewhere.
-/
namespace Retarget

/-- Steps lead from a place to a spot through at most `budget` links. -/
inductive Leads (tree : Tree) (follow : Bool) :
    (budget : Nat) → Place → List Step → Spot → Prop where
  | arrived {budget : Nat} {place : Place} : Leads tree follow budget place [] (.found place)
  | stay {budget : Nat} {place : Place} {rest : List Step} {spot : Spot}
      (here : tree.entry? place = some .directory)
      (onward : Leads tree follow budget place rest spot) :
      Leads tree follow budget place (.stay :: rest) spot
  | up {budget : Nat} {place : Place} {rest : List Step} {spot : Spot}
      (here : tree.entry? place = some .directory)
      (onward : Leads tree follow budget place.dropLast rest spot) :
      Leads tree follow budget place (.up :: rest) spot
  | into {budget : Nat} {place : Place} {name : Bytes} {entry : Entry} {rest : List Step}
      {spot : Spot}
      (here : tree.entry? place = some .directory) (short : name.length ≤ nameLimit)
      (held : tree.entry? (place ++ [name]) = some entry)
      (plain : ∀ target, entry ≠ .leaf (.link target))
      (onward : Leads tree follow budget (place ++ [name]) rest spot) :
      Leads tree follow budget place (.into name :: rest) spot
  | vacant {budget : Nat} {place : Place} {name : Bytes}
      (here : tree.entry? place = some .directory) (short : name.length ≤ nameLimit)
      (free : tree.entry? (place ++ [name]) = none) :
      Leads tree follow budget place [.into name] (.vacant place name)
  | atLink {budget : Nat} {place : Place} {name : Bytes} {target : Path}
      (here : tree.entry? place = some .directory) (short : name.length ≤ nameLimit)
      (held : tree.entry? (place ++ [name]) = some (.leaf (.link target))) (stop : follow = false) :
      Leads tree follow budget place [.into name] (.found (place ++ [name]))
  | through {budget : Nat} {place : Place} {name : Bytes} {target : Path} {rest : List Step}
      {spot : Spot}
      (here : tree.entry? place = some .directory) (short : name.length ≤ nameLimit)
      (held : tree.entry? (place ++ [name]) = some (.leaf (.link target)))
      (go : ¬(rest = [] ∧ follow = false)) (written : target.bytes ≠ [])
      (onward : Leads tree follow budget (target.start place) (target.steps ++ rest) spot) :
      Leads tree follow (budget + 1) place (.into name :: rest) spot

/-- How progress up to a link ends, the link being followed. -/
def Progress.Ends (tree : Tree) (follow : Bool) (budget : Nat) (spot : Spot) : Progress → Prop
  | .arrived place => spot = .found place
  | .vacant directory name => spot = .vacant directory name
  | .linked directory target rest => target.bytes ≠ [] ∧
    ∃ less, budget = less + 1 ∧
    Leads tree follow less (target.start directory) (target.steps ++ rest) spot

namespace Tree

variable {tree : Tree} {follow : Bool} {place : Place} {rest : List Step}

theorem advance_stay (here : tree.entry? place = some .directory) :
    tree.advance follow place (.stay :: rest) = tree.advance follow place rest := by
  obtain ⟨inner, found⟩ := entry?_eq_directory.1 here
  simp [advance, found]

theorem advance_up (here : tree.entry? place = some .directory) :
    tree.advance follow place (.up :: rest) = tree.advance follow place.dropLast rest := by
  obtain ⟨inner, found⟩ := entry?_eq_directory.1 here
  simp [advance, found]

/-- What a name leads to next, by the entry that stands under it. -/
theorem advance_into (here : tree.entry? place = some .directory) {name : Bytes}
    (short : name.length ≤ nameLimit) :
    tree.advance follow place (.into name :: rest) =
      match tree.entry? (place ++ [name]) with
      | none => if rest = [] then .ok (.vacant place name) else .error .notFound
      | some (.leaf (.link target)) =>
        if rest = [] ∧ follow = false then .ok (.arrived (place ++ [name])) else .ok
          (.linked place target rest)
      | some _ => tree.advance follow (place ++ [name]) rest := by
  obtain ⟨inner, found⟩ := entry?_eq_directory.1 here
  rw [entry?_concat found]
  simp only [advance, found, Nat.not_lt.2 short, if_false]
  cases inner.find? name with
  | none => rfl
  | some node =>
    cases node with
    | branch held => rfl
    | leaf content => cases content <;> rfl

/-- Only from a directory does a step lead on, and only a name of admissible length. -/
theorem advance_cons_ok {step : Step} {progress : Progress}
    (moved : tree.advance follow place (step :: rest) = .ok progress) :
    tree.entry? place = some .directory ∧ ∀ name, step = .into name → name.length ≤ nameLimit := by
  unfold advance at moved
  split at moved
  · cases moved
  · cases moved
  · rename_i inner found
    refine ⟨entry?_eq_directory.2 ⟨inner, found⟩, ?_⟩
    rintro name rfl
    by_contra long
    simp [Nat.not_le.1 long] at moved

theorem leads_of_advance {steps : List Step} {progress : Progress} {budget : Nat} {spot : Spot}
    (moved : tree.advance follow place steps = .ok progress)
    (ends : progress.Ends tree follow budget spot) :
    Leads tree follow budget place steps spot := by
  induction steps generalizing place with
  | nil =>
    cases moved
    cases ends
    exact .arrived
  | cons step rest ih =>
    obtain ⟨here, short⟩ := advance_cons_ok moved
    cases step with
    | stay =>
      rw [advance_stay here] at moved
      exact .stay here (ih moved)
    | up =>
      rw [advance_up here] at moved
      exact .up here (ih moved)
    | into name =>
      have short := short name rfl
      rw [advance_into here short] at moved
      split at moved
      · rename_i free
        split at moved
        · rename_i last
          subst last
          cases moved
          cases ends
          exact .vacant here short free
        · cases moved
      · rename_i target held
        split at moved
        · rename_i stop
          obtain ⟨last, stop⟩ := stop
          subst last
          cases moved
          cases ends
          exact .atLink here short held stop
        · rename_i go
          cases moved
          obtain ⟨written, less, rfl, onward⟩ := ends
          exact .through here short held go written onward
      · rename_i entry plain held
        exact .into here short held (fun target same => plain target (same ▸ rfl)) (ih moved)

theorem advance_of_leads {steps : List Step} {budget : Nat} {spot : Spot}
    (led : Leads tree follow budget place steps spot) :
    ∃ progress, tree.advance follow place steps = .ok progress ∧
    progress.Ends tree follow budget spot := by
  induction led with
  | arrived => exact ⟨_, rfl, rfl⟩
  | stay here onward ih => rwa [advance_stay here]
  | up here onward ih => rwa [advance_up here]
  | into here short held plain onward ih =>
    rename_i entry rest spot
    rw [advance_into here short, held]
    cases entry with
    | directory => exact ih
    | leaf content =>
      cases content with
      | link target => exact absurd rfl (plain target)
      | file contents => exact ih
      | special => exact ih
  | vacant here short free =>
    exact ⟨.vacant _ _, by rw [advance_into here short, free, if_pos rfl], rfl⟩
  | atLink here short held stop =>
    refine ⟨.arrived _, ?_, rfl⟩
    rw [advance_into here short, held]
    exact if_pos ⟨rfl, stop⟩
  | through here short held go written onward ih =>
    refine ⟨.linked _ _ _, ?_, written, _, rfl, onward⟩
    rw [advance_into here short, held]
    exact if_neg go

theorem leads_iff_advance {steps : List Step} {budget : Nat} {spot : Spot} :
    Leads tree follow budget place steps spot ↔
      ∃ progress, tree.advance follow place steps = .ok progress ∧
      progress.Ends tree follow budget spot :=
  ⟨advance_of_leads, fun ⟨_, moved, ends⟩ => leads_of_advance moved ends⟩

/-- `reach` computes where steps lead. -/
theorem reach_iff_leads {steps : List Step} {budget : Nat} {spot : Spot} :
    tree.reach follow budget place steps = .ok spot ↔
    Leads tree follow budget place steps spot := by
  induction budget generalizing place steps with
  | zero =>
    rw [leads_iff_advance, reach]
    cases tree.advance follow place steps with
    | error cause => simp
    | ok progress => cases progress <;> simp [Progress.Ends, eq_comm]
  | succ less ih =>
    rw [leads_iff_advance, reach]
    cases tree.advance follow place steps with
    | error cause => simp
    | ok progress =>
      cases progress with
      | arrived reached => simp [Progress.Ends, eq_comm]
      | vacant directory name => simp [Progress.Ends, eq_comm]
      | linked directory target rest =>
        by_cases written : target.bytes = [] <;> simp [Progress.Ends, written, ih]

end Tree
end Retarget
