import Retarget.Proofs.Resolution.Leads

/-!
How resolution behaves when steps are joined and when the tree changes. Steps that lead to a place
can be followed by others from that place; steps that lead somewhere still do so in every tree that
keeps the directories and links on the way.
-/
namespace Retarget

/-- Where a spot is, taken or free. -/
def Spot.place : Spot → Place
  | .found place => place
  | .vacant directory name => directory ++ [name]

/-- What a path can lead on from. -/
def Entry.passable : Entry → Bool
  | .directory => true
  | .leaf (.link _) => true
  | .leaf _ => false

/-- Every directory and every link of a tree stands in another tree as well. -/
def Tree.WaysIn (tree other : Tree) : Prop :=
  ∀ place entry, tree.entry? place = some entry → entry.passable = true →
  other.entry? place = some entry

namespace Leads

variable {tree : Tree} {follow : Bool} {budget : Nat} {place : Place} {steps : List Step}
  {spot : Spot}

theorem unique {other : Spot} (first : Leads tree follow budget place steps spot)
    (second : Leads tree follow budget place steps other) : spot = other := by
  rw [← Tree.reach_iff_leads] at first second
  exact Except.ok.inj (first.symm.trans second)

theorem more (led : Leads tree follow budget place steps spot) {allowed : Nat}
    (enough : budget ≤ allowed) :
    Leads tree follow allowed place steps spot := by
  induction led generalizing allowed with
  | arrived => exact .arrived
  | stay here _ ih => exact .stay here (ih enough)
  | up here _ ih => exact .up here (ih enough)
  | into here short held plain _ ih => exact .into here short held plain (ih enough)
  | vacant here short free => exact .vacant here short free
  | atLink here short held stop => exact .atLink here short held stop
  | through here short held go written _ ih =>
    obtain ⟨less, rfl⟩ : ∃ less, allowed = less + 1 := ⟨allowed - 1, by omega⟩
    exact .through here short held go written (ih (by omega))

/-- Two budgets large enough agree on where steps lead. -/
theorem unique_of_budgets {other : Spot} {second : Nat}
    (first : Leads tree follow budget place steps spot)
    (led : Leads tree follow second place steps other) : spot = other :=
  (first.more (Nat.le_max_left budget second)).unique (led.more (Nat.le_max_right budget second))

/-- Steps taken after steps that lead to a place are taken from that place. -/
theorem append {reached : Place} (first : Leads tree true budget place steps (.found reached))
    {left : Nat}
    {more : List Step} (onward : Leads tree follow left reached more spot) (goes : more ≠ []) :
    Leads tree follow (budget + left) place (steps ++ more) spot := by
  generalize ended : Spot.found reached = finish at first
  induction first with
  | arrived =>
    cases ended
    exact onward.more (Nat.le_add_left _ _)
  | stay here _ ih => exact .stay here (ih ended)
  | up here _ ih => exact .up here (ih ended)
  | into here short held plain _ ih => exact .into here short held plain (ih ended)
  | vacant => cases ended
  | atLink _ _ _ stop => cases stop
  | through here short held go written _ ih =>
    rw [Nat.add_right_comm]
    refine .through here short held
      (fun stops => goes (List.append_eq_nil_iff.1 stops.1).2) written ?_
    simpa using ih ended

/-- Steps that lead somewhere lead, up to any point before their end, to a place. -/
theorem split {more : List Step} (led : Leads tree follow budget place (steps ++ more) spot)
    (goes : more ≠ []) :
    ∃ reached first left, first + left = budget ∧
    Leads tree true first place steps (.found reached) ∧
      Leads tree follow left reached more spot := by
  generalize whole : steps ++ more = taken at led
  induction led generalizing steps with
  | arrived => exact absurd (List.append_eq_nil_iff.1 whole).2 goes
  | @stay budget place rest spot here onward ih =>
    rcases List.append_eq_cons_iff.1 whole with ⟨rfl, rfl⟩ | ⟨others, rfl, rfl⟩
    · exact ⟨place, 0, budget, by omega, .arrived, .stay here onward⟩
    · obtain ⟨reached, first, left, sum, led, after⟩ := ih rfl
      exact ⟨reached, first, left, sum, .stay here led, after⟩
  | @up budget place rest spot here onward ih =>
    rcases List.append_eq_cons_iff.1 whole with ⟨rfl, rfl⟩ | ⟨others, rfl, rfl⟩
    · exact ⟨place, 0, budget, by omega, .arrived, .up here onward⟩
    · obtain ⟨reached, first, left, sum, led, after⟩ := ih rfl
      exact ⟨reached, first, left, sum, .up here led, after⟩
  | @into budget place name entry rest spot here short held plain onward ih =>
    rcases List.append_eq_cons_iff.1 whole with ⟨rfl, rfl⟩ | ⟨others, rfl, rfl⟩
    · exact ⟨place, 0, budget, by omega, .arrived, .into here short held plain onward⟩
    · obtain ⟨reached, first, left, sum, led, after⟩ := ih rfl
      exact ⟨reached, first, left, sum, .into here short held plain led, after⟩
  | @vacant budget place name here short free =>
    rcases List.append_eq_cons_iff.1 whole with ⟨rfl, rfl⟩ | ⟨others, rfl, none⟩
    · exact ⟨place, 0, budget, by omega, .arrived, .vacant here short free⟩
    · exact absurd (List.append_eq_nil_iff.1 none.symm).2 goes
  | @atLink budget place name target here short held stop =>
    rcases List.append_eq_cons_iff.1 whole with ⟨rfl, rfl⟩ | ⟨others, rfl, none⟩
    · exact ⟨place, 0, budget, by omega, .arrived, .atLink here short held stop⟩
    · exact absurd (List.append_eq_nil_iff.1 none.symm).2 goes
  | @through budget place name target rest spot here short held go written onward ih =>
    rcases List.append_eq_cons_iff.1 whole with ⟨rfl, rfl⟩ | ⟨others, rfl, rfl⟩
    · exact ⟨place, 0, budget + 1, by omega, .arrived, .through here short held go written onward⟩
    · obtain ⟨reached, first, left, sum, led, after⟩ := ih (List.append_assoc _ _ _)
      exact ⟨reached, first + 1,
        left, by omega, .through here short held (by simp) written led, after⟩

/-- What steps lead to is there, when the place they start from is. -/
theorem present {reached : Place} (led : Leads tree follow budget place steps (.found reached))
    (start : tree.entry? place ≠ none) : tree.entry? reached ≠ none := by
  generalize ended : Spot.found reached = finish at led
  induction led with
  | arrived =>
    cases ended
    exact start
  | stay here _ ih => exact ih start ended
  | @up budget place rest spot here _ ih =>
    refine ih ?_ ended
    cases List.eq_nil_or_concat' place with
    | inl top => simp [top]
    | inr below =>
      obtain ⟨above, name, rfl⟩ := below
      rw [List.dropLast_concat]
      simp [Tree.directory_above here]
  | into here short held plain _ ih => exact ih (by simp [held]) ended
  | vacant => cases ended
  | atLink here short held stop =>
    cases ended
    simp [held]
  | @through budget place name target rest spot here short held go written _ ih =>
    refine ih ?_ ended
    unfold Path.start
    split
    · simp
    · exact start

/-- From a place that is no directory no step leads on. -/
theorem directory_of_cons {step : Step}
    (led : Leads tree follow budget place (step :: steps) spot) :
    tree.entry? place = some .directory := by
  cases led <;> assumption

/-- What is missing is missing from a directory that is there. -/
theorem of_vacant {directory : Place} {name : Bytes}
    (led : Leads tree follow budget place steps (.vacant directory name)) :
    tree.entry? directory = some .directory ∧ tree.entry? (directory ++ [name]) = none := by
  generalize ended : Spot.vacant directory name = finish at led
  induction led with
  | arrived => cases ended
  | stay _ _ ih => exact ih ended
  | up _ _ ih => exact ih ended
  | into _ _ _ _ _ ih => exact ih ended
  | vacant here _ free =>
    cases ended
    exact ⟨here, free⟩
  | atLink => cases ended
  | through _ _ _ _ _ _ ih => exact ih ended

/-- Where the end is no link, it makes no difference whether a link at the end is followed. -/
theorem follow_end {reached : Place} (led : Leads tree false budget place steps (.found reached))
    (plain : ∀ target, tree.entry? reached ≠ some (.leaf (.link target))) :
    Leads tree true budget place steps (.found reached) := by
  generalize ended : Spot.found reached = finish at led
  induction led with
  | arrived => exact .arrived
  | stay here _ ih => exact .stay here (ih ended)
  | up here _ ih => exact .up here (ih ended)
  | into here short held other _ ih => exact .into here short held other (ih ended)
  | vacant => cases ended
  | atLink _ _ held =>
    cases ended
    exact absurd held (plain _)
  | through here short held _ written _ ih =>
    exact .through here short held (by simp) written (ih ended)

/-- Where a link at the end is not followed, steps lead to the same place or end at that link. -/
theorem stop {reached : Place} (led : Leads tree true budget place steps (.found reached)) :
    Leads tree false budget place steps (.found reached) ∨
      ∃ ending link, Leads tree false budget place steps (.found ending) ∧
        tree.entry? ending = some (.leaf (.link link)) := by
  generalize ended : Spot.found reached = finish at led
  induction led with
  | arrived => exact .inl .arrived
  | stay here _ ih =>
    exact (ih ended).imp (.stay here) fun ⟨ending, link, led, held⟩ =>
      ⟨ending, link, .stay here led, held⟩
  | up here _ ih =>
    exact (ih ended).imp (.up here)
      fun ⟨ending, link, led, held⟩ => ⟨ending, link, .up here led, held⟩
  | into here short stands plain _ ih =>
    exact (ih ended).imp (.into here short stands plain) fun ⟨ending, link, led, held⟩ =>
      ⟨ending, link, .into here short stands plain led, held⟩
  | vacant => cases ended
  | atLink _ _ _ stop => cases stop
  | @through budget place name target rest spot here short stands _ written _ ih =>
    by_cases last : rest = []
    · subst last
      exact .inr ⟨_, target, .atLink here short stands rfl, stands⟩
    · have go : ¬(rest = [] ∧ false = false) := fun both => last both.1
      exact (ih ended).imp (.through here short stands go written)
        fun ⟨ending, link, led, held⟩ =>
          ⟨ending, link, .through here short stands go written led, held⟩

/-- Steps lead to the same place in every tree that has the same ways and the same thing at their
end. -/
theorem carry {reached : Place} (led : Leads tree follow budget place steps (.found reached))
    {other : Tree}
    (ways : tree.WaysIn other) (same : other.entry? reached = tree.entry? reached) :
    Leads other follow budget place steps (.found reached) := by
  generalize ended : Spot.found reached = finish at led
  induction led with
  | arrived =>
    cases ended
    exact .arrived
  | stay here _ ih => exact .stay (ways _ _ here rfl) (ih ended)
  | up here _ ih => exact .up (ways _ _ here rfl) (ih ended)
  | @into budget place name entry rest spot here short held plain onward ih =>
    have kept : other.entry? (place ++ [name]) = some entry := by
      cases entry with
      | directory => exact ways _ _ held rfl
      | leaf content =>
        -- Nothing leads on from a leaf that is no link, so this one is the end.
        cases rest with
        | nil =>
          cases onward
          cases ended
          rw [same, held]
        | cons step others =>
          rw [onward.directory_of_cons] at held
          cases held
    exact .into (ways _ _ here rfl) short kept plain (ih ended)
  | vacant => cases ended
  | atLink here short held stop =>
    cases ended
    exact .atLink (ways _ _ here rfl) short (ways _ _ held rfl) stop
  | through here short held go written _ ih =>
    exact .through (ways _ _ here rfl) short (ways _ _ held rfl) go written (ih ended)

/-- A last step that stays asks for a directory and changes nothing else. -/
theorem concat_stay_iff : Leads tree follow budget place (steps ++ [.stay]) spot ↔
    ∃ reached, spot = .found reached ∧ tree.entry? reached = some .directory ∧
      Leads tree true budget place steps (.found reached) := by
  constructor
  · intro led
    obtain ⟨reached, first, left, sum, before, last⟩ := led.split (by simp)
    cases last with
    | stay here onward =>
      cases onward
      exact ⟨reached, rfl, here, before.more (by omega)⟩
  · rintro ⟨reached, rfl, here, led⟩
    have last : Leads tree follow 0 reached [.stay] (.found reached) := .stay here .arrived
    exact led.append last (by simp)

/-- Steps behind others lead on from where those lead. -/
theorem behind {first : List Step} {middle : Place} {spent : Nat}
    (led : Leads tree true budget place (first ++ steps) spot)
    (front : Leads tree true spent place first (.found middle)) :
    ∃ left, Leads tree true left middle steps spot := by
  by_cases none : steps = []
  · subst none
    rw [List.append_nil] at led
    obtain rfl := led.unique_of_budgets front
    exact ⟨0, .arrived⟩
  · obtain ⟨top, _, left, _, before, onward⟩ := led.split none
    obtain rfl := Spot.found.inj (before.unique_of_budgets front)
    exact ⟨left, onward⟩

/-- A name that is stepped into on the way to a place is there. -/
theorem stands {name : Bytes} {reached : Place}
    (led : Leads tree follow budget place (.into name :: steps) (.found reached)) :
    tree.entry? (place ++ [name]) ≠ none := by
  cases led with
  | into _ _ held => simp [held]
  | atLink _ _ held => simp [held]
  | through _ _ held => simp [held]

/-- On the way to a place every name that is stepped into is there. -/
theorem taken {before rest : List Step} {name : Bytes} {reached middle : Place} {spent : Nat}
    (led : Leads tree follow budget place (before ++ .into name :: rest) (.found reached))
    (there : Leads tree true spent place before (.found middle)) :
    tree.entry? (middle ++ [name]) ≠ none := by
  obtain ⟨top, first, left, _, front, last⟩ := led.split (by simp)
  obtain rfl := Spot.found.inj (front.unique_of_budgets there)
  exact last.stands

/-- Nothing leads on from a file. -/
theorem found_file {name contents : Bytes} {reached : Place}
    (led : Leads tree follow budget place (.into name :: steps) (.found reached))
    (held : tree.entry? (place ++ [name]) = some (.leaf (.file contents))) :
    reached = place ++ [name] := by
  cases led with
  | into _ _ _ _ onward =>
    cases steps with
    | nil =>
      cases onward
      rfl
    | cons step others =>
      rw [onward.directory_of_cons] at held
      cases held
  | atLink => rfl
  | through _ _ link =>
    rw [link] at held
    cases held

end Leads
end Retarget
