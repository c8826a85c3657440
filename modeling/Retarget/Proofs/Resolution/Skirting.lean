import Retarget.Proofs.Change.Confined
import Retarget.Proofs.Resolution.Forecast

/-!
Paths that keep clear of a place. Resolution goes from place to place, also where it fails in the
end; a path skirts a place if it comes by nothing in the place, and neither ends nor misses a name on
the way to it. What such a path leads to once something was put at the place, it led to before.
-/
namespace Retarget

/-- Where resolution comes by on its way, with the steps that are left to take there. It stops where
a step is left and no directory stands. -/
inductive Comes (tree : Tree) :
    (budget : Nat) → Place → List Step → (met : Place) → (left : List Step) → Prop where
  | here {budget : Nat} {place : Place} {steps : List Step} :
      Comes tree budget place steps place steps
  | stay {budget : Nat} {place met : Place} {rest left : List Step}
      (here : tree.entry? place = some .directory)
      (onward : Comes tree budget place rest met left) :
      Comes tree budget place (.stay :: rest) met left
  | up {budget : Nat} {place met : Place} {rest left : List Step}
      (here : tree.entry? place = some .directory)
      (onward : Comes tree budget place.dropLast rest met left) :
      Comes tree budget place (.up :: rest) met left
  | into {budget : Nat} {place met : Place} {name : Bytes} {rest left : List Step}
      (here : tree.entry? place = some .directory) (short : name.length ≤ nameLimit)
      (plain : ∀ target, tree.entry? (place ++ [name]) ≠ some (.leaf (.link target)))
      (onward : Comes tree budget (place ++ [name]) rest met left) :
      Comes tree budget place (.into name :: rest) met left
  | link {budget : Nat} {place : Place} {name : Bytes} {target : Path} {rest : List Step}
      (here : tree.entry? place = some .directory) (short : name.length ≤ nameLimit)
      (held : tree.entry? (place ++ [name]) = some (.leaf (.link target))) :
      Comes tree budget place (.into name :: rest) (place ++ [name]) (.into name :: rest)
  | through {budget : Nat} {place met : Place} {name : Bytes} {target : Path}
      {rest left : List Step} (here : tree.entry? place = some .directory)
      (short : name.length ≤ nameLimit)
      (held : tree.entry? (place ++ [name]) = some (.leaf (.link target)))
      (written : target.bytes ≠ [])
      (onward : Comes tree budget (target.start place) (target.steps ++ rest) met left) :
      Comes tree (budget + 1) place (.into name :: rest) met left

/-! ## What is come by first -/

section

variable {tree : Tree} {budget : Nat} {place met : Place} {name : Bytes} {rest left : List Step}

theorem comes_nil_iff : Comes tree budget place [] met left ↔ met = place ∧ left = [] := by
  constructor
  · intro comes
    cases comes
    exact ⟨rfl, rfl⟩
  · rintro ⟨rfl, rfl⟩
    exact .here

theorem comes_stay_iff : Comes tree budget place (.stay :: rest) met left ↔
    (met = place ∧ left = .stay :: rest) ∨
      tree.entry? place = some .directory ∧ Comes tree budget place rest met left := by
  constructor
  · intro comes
    cases comes with
    | here => exact .inl ⟨rfl, rfl⟩
    | stay here onward => exact .inr ⟨here, onward⟩
  · rintro (⟨rfl, rfl⟩ | ⟨here, onward⟩)
    · exact .here
    · exact .stay here onward

theorem comes_up_iff : Comes tree budget place (.up :: rest) met left ↔
    (met = place ∧ left = .up :: rest) ∨
      tree.entry? place = some .directory ∧ Comes tree budget place.dropLast rest met left := by
  constructor
  · intro comes
    cases comes with
    | here => exact .inl ⟨rfl, rfl⟩
    | up here onward => exact .inr ⟨here, onward⟩
  · rintro (⟨rfl, rfl⟩ | ⟨here, onward⟩)
    · exact .here
    · exact .up here onward

/-- A name with no link leads on; a link is come by, and followed unless it is empty. -/
theorem comes_into_iff : Comes tree budget place (.into name :: rest) met left ↔
    (met = place ∧ left = .into name :: rest) ∨
      (tree.entry? place = some .directory ∧ name.length ≤ nameLimit) ∧
        ((∀ target, tree.entry? (place ++ [name]) ≠ some (.leaf (.link target))) ∧
            Comes tree budget (place ++ [name]) rest met left ∨
          ∃ target, tree.entry? (place ++ [name]) = some (.leaf (.link target)) ∧
            ((met = place ++ [name] ∧ left = .into name :: rest) ∨ target.bytes ≠ [] ∧
              ∃ less, budget = less + 1 ∧
                Comes tree less (target.start place) (target.steps ++ rest) met left)) := by
  constructor
  · intro comes
    cases comes with
    | here => exact .inl ⟨rfl, rfl⟩
    | into here short plain onward => exact .inr ⟨⟨here, short⟩, .inl ⟨plain, onward⟩⟩
    | link here short held => exact .inr ⟨⟨here, short⟩, .inr ⟨_, held, .inl ⟨rfl, rfl⟩⟩⟩
    | through here short held written onward =>
      exact .inr ⟨⟨here, short⟩, .inr ⟨_, held, .inr ⟨written, _, rfl, onward⟩⟩⟩
  · rintro (⟨rfl, rfl⟩ | ⟨⟨here, short⟩, ⟨plain, onward⟩ |
      ⟨target, held, ⟨rfl, rfl⟩ | ⟨written, less, rfl, onward⟩⟩⟩)
    · exact .here
    · exact .into here short plain onward
    · exact .link here short held
    · exact .through here short held written onward

end

/-! ## What is come by, computed -/

namespace Tree

variable {tree : Tree} {budget : Nat} {place met : Place} {steps left : List Step}

/-- What is come by up to the first link that is followed, and what is come by from there. -/
def trailWith (tree : Tree) (onward : Place → List Step → List (Place × List Step)) :
    Place → List Step → List (Place × List Step)
  | place, [] => [(place, [])]
  | place, .stay :: rest => (place, .stay :: rest) ::
    if tree.entry? place = some .directory then trailWith tree onward place rest else []
  | place, .up :: rest => (place, .up :: rest) ::
    if tree.entry? place = some .directory then trailWith tree onward place.dropLast rest else []
  | place, .into name :: rest => (place, .into name :: rest) ::
    if tree.entry? place = some .directory ∧ name.length ≤ nameLimit then
      match tree.entry? (place ++ [name]) with
      | some (.leaf (.link target)) => (place ++ [name], .into name :: rest) ::
        if target.bytes = [] then [] else onward (target.start place) (target.steps ++ rest)
      | _ => trailWith tree onward (place ++ [name]) rest
    else []

/-- Everything that resolution comes by. -/
def trail (tree : Tree) : (budget : Nat) → Place → List Step → List (Place × List Step)
  | 0 => tree.trailWith fun _ _ => []
  | budget + 1 => tree.trailWith (tree.trail budget)

theorem mem_trailWith_iff {onward : Place → List Step → List (Place × List Step)}
    (follows : ∀ place steps, (met, left) ∈ onward place steps ↔
      ∃ less, budget = less + 1 ∧ Comes tree less place steps met left) :
    (met, left) ∈ tree.trailWith onward place steps ↔ Comes tree budget place steps met left := by
  induction steps generalizing place with
  | nil => rw [trailWith, List.mem_singleton, Prod.mk.injEq, comes_nil_iff]
  | cons step rest ih =>
    cases step with
    | stay =>
      rw [trailWith, List.mem_cons, Prod.mk.injEq, comes_stay_iff, ← ih]
      split <;> simp [*]
    | up =>
      rw [trailWith, List.mem_cons, Prod.mk.injEq, comes_up_iff, ← ih]
      split <;> simp [*]
    | into name =>
      rw [trailWith, List.mem_cons, Prod.mk.injEq, comes_into_iff, ← ih]
      refine or_congr Iff.rfl ?_
      split
      · rename_i both
        split
        · rename_i target held
          by_cases empty : target.bytes = [] <;> simp [both, held, empty, follows]
        · rename_i plain
          have plain : ∀ target, tree.entry? (place ++ [name]) ≠ some (.leaf (.link target)) := plain
          simp [both, plain]
      · rename_i stopped
        simp [stopped]

theorem mem_trail_iff :
    (met, left) ∈ tree.trail budget place steps ↔ Comes tree budget place steps met left := by
  induction budget generalizing place steps with
  | zero => exact mem_trailWith_iff fun _ _ => by simp
  | succ less ih =>
    refine mem_trailWith_iff fun place steps => ih.trans ?_
    simp

end Tree

namespace FileSystem

variable {files now : FileSystem} {path : Path} {copy place reached : Place} {name : Bytes}

/-- The resolution of a path comes by nothing in a place, and neither ends on the way to the place
nor misses a name there. -/
def Skirts (files : FileSystem) (path : Path) (place : Place) : Prop :=
  ∀ met left, Comes files.root linkLimit (path.start files.cwd) path.openSteps met left →
    ¬place <+: met ∧ (left = [] ∨ files.root.entry? met = none → ¬met <+: place)

instance (files : FileSystem) (path : Path) (place : Place) : Decidable (files.Skirts path place) :=
  decidable_of_iff (∀ visit ∈ files.root.trail linkLimit (path.start files.cwd) path.openSteps,
      ¬place <+: visit.1 ∧
        (visit.2 = [] ∨ files.root.entry? visit.1 = none → ¬visit.1 <+: place)) <| by
    simp only [Prod.forall, Tree.mem_trail_iff, Skirts]

/-- A later state in which nothing changed outside a place, but for directories above it that were
missing. -/
structure Laid (before : FileSystem) (place : Place) (now : FileSystem) : Prop where
  cwd : now.cwd = before.cwd
  outside : ∀ query, ¬place <+: query → now.root.entry? query = before.root.entry? query ∨
    before.root.entry? query = none ∧ query <+: place

theorem Laid.apart (laid : files.Laid copy now) (apart : Apart copy place) :
    now.root.entry? place = files.root.entry? place :=
  (laid.outside place apart.1).resolve_right fun both => apart.2 both.2

/-- What was there outside the place still is. -/
theorem Laid.kept (laid : files.Laid copy now) (outside : ¬copy <+: place)
    (there : files.root.entry? place ≠ none) :
    now.root.entry? place = files.root.entry? place :=
  (laid.outside place outside).resolve_right fun both => there both.1

theorem Apart.below (apart : Apart copy place) (name : Bytes) : Apart copy (place ++ [name]) := by
  refine ⟨fun inside => ?_, fun above => apart.2 ((List.prefix_append _ _).trans above)⟩
  rcases List.prefix_concat_iff.1 inside with same | further
  · exact apart.2 (same ▸ List.prefix_append _ _)
  · exact apart.1 further

/-- What is found under a name on the way was found there before. -/
theorem Laid.next (laid : files.Laid copy now) {budget : Nat}
    {rest : List Step} {entry : Entry} (here : files.root.entry? place = some .directory)
    (short : name.length ≤ nameLimit)
    (skirts : ∀ met left, Comes files.root budget place (.into name :: rest) met left →
      ¬copy <+: met ∧ (left = [] ∨ files.root.entry? met = none → ¬met <+: copy))
    (held : now.root.entry? (place ++ [name]) = some entry) :
    files.root.entry? (place ++ [name]) = some entry := by
  by_cases linked : ∃ link, files.root.entry? (place ++ [name]) = some (.leaf (.link link))
  · obtain ⟨link, stood⟩ := linked
    have outside := (skirts _ _ (.link here short stood)).1
    rw [← laid.kept outside (by simp [stood]), held]
  · obtain ⟨outside, ending⟩ := skirts _ _
      (.into here short (fun link stood => linked ⟨link, stood⟩) .here)
    rcases laid.outside _ outside with same | ⟨free, above⟩
    · rw [← same, held]
    · exact absurd above (ending (.inr free))

/-- Steps that came by nothing in the place lead only where they led before. -/
theorem Laid.leads (laid : files.Laid copy now) {budget : Nat}
    {steps : List Step} (there : files.root.entry? place ≠ none)
    (skirts : ∀ met left, Comes files.root budget place steps met left →
      ¬copy <+: met ∧ (left = [] ∨ files.root.entry? met = none → ¬met <+: copy))
    (led : Leads now.root true budget place steps (.found reached)) :
    Leads files.root true budget place steps (.found reached) ∧ Apart copy reached := by
  generalize ended : Spot.found reached = finish at led
  induction led with
  | arrived =>
    cases ended
    obtain ⟨outside, notAbove⟩ := skirts _ _ .here
    exact ⟨.arrived, outside, notAbove (.inl rfl)⟩
  | stay here _ ih =>
    rw [laid.kept (skirts _ _ .here).1 there] at here
    obtain ⟨onward, apart⟩ := ih there (fun _ _ comes => skirts _ _ (.stay here comes)) ended
    exact ⟨.stay here onward, apart⟩
  | @up budget place rest spot here _ ih =>
    rw [laid.kept (skirts _ _ .here).1 there] at here
    have above : files.root.entry? place.dropLast ≠ none := by
      rcases List.eq_nil_or_concat' place with rfl | ⟨above, name, rfl⟩
      · exact there
      · rw [List.dropLast_concat, Tree.directory_above here (by simp)]
        simp
    obtain ⟨onward, apart⟩ := ih above (fun _ _ comes => skirts _ _ (.up here comes)) ended
    exact ⟨.up here onward, apart⟩
  | into here short held other _ ih =>
    rw [laid.kept (skirts _ _ .here).1 there] at here
    have stood := laid.next here short skirts held
    obtain ⟨onward, apart⟩ := ih (by simp [stood]) (fun _ _ comes => skirts _ _
      (.into here short (fun target same => other target (Option.some.inj (stood.symm.trans same)))
        comes)) ended
    exact ⟨.into here short stood other onward, apart⟩
  | vacant => cases ended
  | atLink _ _ _ stop => cases stop
  | @through budget place name target rest spot here short held go written _ ih =>
    rw [laid.kept (skirts _ _ .here).1 there] at here
    have stood := laid.next here short skirts held
    have start : files.root.entry? (target.start place) ≠ none := by
      unfold Path.start
      split
      · simp
      · exact there
    obtain ⟨onward, apart⟩ := ih start
      (fun _ _ comes => skirts _ _ (.through here short stood written comes)) ended
    exact ⟨.through here short stood go written onward, apart⟩

/-! ## Paths that stay fixed -/

/-- With whatever put at a place, a path leads to nothing but what it led to before, and that apart
from the place. -/
def Fixed (files : FileSystem) (path : Path) (copy : Place) : Prop :=
  ∀ now reached node, files.Laid copy now → now.stat path = .ok (reached, node) →
    Apart copy reached ∧ ∃ same, files.stat path = .ok (reached, same) ∧ same.entry = node.entry

theorem Laid.refl (files : FileSystem) (copy : Place) : files.Laid copy files :=
  ⟨rfl, fun _ _ => .inl rfl⟩

theorem Fixed.apart (fixed : files.Fixed path copy) (opens : files.Opens path place) :
    Apart copy place := by
  obtain ⟨inner, found⟩ := opens_iff.1 opens
  exact (fixed files place _ (.refl files copy) found).1

/-- A directory that a fixed path leads to it led to before. -/
theorem Fixed.opens (fixed : files.Fixed path copy) (laid : files.Laid copy now)
    (opens : now.Opens path place) : files.Opens path place := by
  obtain ⟨inner, found⟩ := opens_iff.1 opens
  obtain ⟨_, node, stood, alike⟩ := fixed now place _ laid found
  obtain ⟨other, rfl⟩ := Node.entry_eq_directory.1 alike
  exact opens_iff.2 ⟨other, stood⟩

/-- What is read from a fixed path was there to be read before. -/
theorem Fixed.read (fixed : files.Fixed path copy) (laid : files.Laid copy now) {contents : Bytes}
    (read : now.read path = .ok contents) : files.read path = .ok contents := by
  obtain ⟨⟨reached, node⟩, found, given⟩ := bind_eq_ok.1 read
  obtain ⟨_, same, stood, alike⟩ := fixed now reached node laid found
  cases node with
  | branch inner => cases given
  | leaf content =>
    obtain rfl := Node.entry_eq_leaf.1 alike
    exact bind_eq_ok.2 ⟨_, stood, given⟩

/-- A path that skirts the place is fixed. -/
theorem Skirts.fixed (standing : files.Standing)
    (skirts : files.Skirts path copy) : files.Fixed path copy := by
  intro now reached node laid found
  obtain ⟨accepted, led, held⟩ := stat_iff.1 found
  have start : files.root.entry? (path.start files.cwd) ≠ none := by
    simp [(standing.start path).1]
  obtain ⟨onward, apart⟩ := laid.leads start skirts (laid.cwd ▸ leads_openSteps led)
  have entry : files.root.entry? reached = some node.entry := by
    rw [← laid.apart apart]
    simp [Tree.entry?, held]
  obtain ⟨same, stood, alike⟩ := Option.map_eq_some_iff.1 entry
  refine ⟨apart, same, stat_iff.2 ⟨accepted, ?_, stood⟩, alike⟩
  unfold Path.steps at led ⊢
  split at led
  · rename_i slash
    obtain ⟨_, here, directory, _⟩ := Leads.concat_stay_iff.1 led
    obtain rfl := Spot.found.inj here
    rw [if_pos slash, Leads.concat_stay_iff]
    exact ⟨reached, rfl, (laid.apart apart).symm.trans directory, onward⟩
  · rename_i slashless
    simpa [slashless] using onward

/-! ## One name more -/

/-- Where a path leads with a name more, it leads to a directory in which the name stands. -/
theorem names_of_stat (written : path.bytes ≠ []) (legal : Tree.Legal name) {node : Node}
    (found : files.stat (path.joinName name) = .ok (reached, node)) :
    ∃ place, files.Opens path place ∧ files.Names (path.joinName name) place name ∧
      files.root.entry? (place ++ [name]) ≠ none := by
  obtain ⟨accepted, led, _⟩ := stat_iff.1 found
  have led := leads_openSteps led
  have start : (path.joinName name).start files.cwd = path.start files.cwd := by
    simp only [Path.start, Path.isAbsolute_joinName path legal]
  have front : path.bytes <+: (path.joinName name).bytes := by
    rw [Path.joinName, Path.join_relative path (Path.isAbsolute_name legal), List.append_assoc]
    exact List.prefix_append _ _
  rw [start, Path.openSteps_joinName path legal] at led
  obtain ⟨place, first, left, sum, before, last⟩ := led.split (by simp)
  have directory := last.directory_of_cons
  have short : name.length ≤ nameLimit := by cases last <;> assumption
  have before := before.more (by omega : first ≤ linkLimit)
  exact ⟨place, ⟨Path.check_of_prefix accepted front written, before, directory⟩, ⟨accepted,
    ⟨path.openSteps, Path.openSteps_joinName path legal, start ▸ before⟩, directory, short⟩, last.stands⟩

/-- A name in the directory of a fixed path is found in it whenever something is found under it. -/
theorem Fixed.names (fixed : files.Fixed path copy) (opens : files.Opens path place)
    (legal : Tree.Legal name) (laid : files.Laid copy now) {node : Node}
    (found : now.stat (path.joinName name) = .ok (reached, node)) :
    now.Names (path.joinName name) place name ∧ files.Names (path.joinName name) place name := by
  obtain ⟨other, reaches, names, _⟩ :=
    names_of_stat (Path.check_eq_ok_iff.1 opens.accepted).2.1 legal found
  obtain rfl := (fixed.opens laid reaches).unique opens
  refine ⟨names, names.accepted, ⟨path.openSteps, Path.openSteps_joinName path legal, ?_⟩,
    opens.directory, names.short⟩
  simpa only [Path.start, Path.isAbsolute_joinName path legal] using opens.leads

/-- With a name more that is no link a fixed path is fixed. -/
theorem Fixed.plain (fixed : files.Fixed path copy) (opens : files.Opens path place)
    (legal : Tree.Legal name) {entry : Entry}
    (held : files.root.entry? (place ++ [name]) = some entry)
    (plain : ∀ link, entry ≠ .leaf (.link link)) : files.Fixed (path.joinName name) copy := by
  intro now reached node laid found
  obtain ⟨names, stood⟩ := fixed.names opens legal laid found
  have closed := Path.endsWithSlash_joinName path legal
  have apart := (fixed.apart opens).below name
  obtain ⟨same, here, alike⟩ := Option.map_eq_some_iff.1 held
  obtain ⟨other, there, stays⟩ := Option.map_eq_some_iff.1 ((laid.apart apart).trans held)
  have first := stat_of_lstat (stood.lstat_closed closed here) fun link is =>
    plain link (by rw [← alike, is]; rfl)
  have second := stat_of_lstat (names.lstat_closed closed there) fun link is =>
    plain link (by rw [← stays, is]; rfl)
  obtain ⟨rfl, rfl⟩ := Prod.mk.inj (Except.ok.inj (second.symm.trans found))
  exact ⟨apart, same, first, alike.trans stays.symm⟩

end FileSystem
end Retarget
