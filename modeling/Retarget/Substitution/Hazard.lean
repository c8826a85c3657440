import Retarget.Substitution.Table

/-!
Pairs of table entries whose order matters. Three containments are looked for: the earlier replacement
holds the later pattern, the later pattern holds the earlier one, the later replacement holds the earlier
pattern.
-/
namespace Retarget

inductive HazardKind where
  | feeds
  | shadowed
  | reintroduces
deriving DecidableEq

namespace HazardKind

/-- The name of a kind in machine-readable output. -/
def name : HazardKind → String
  | feeds => "feeds"
  | shadowed => "shadowed"
  | reintroduces => "reintroduces"

def relation : HazardKind → String
  | feeds => "feeds"
  | shadowed => "is shadowed by"
  | reintroduces => "is reintroduced by"

/-- Whether an earlier and a later entry interact in this way. -/
def holds (earlier later : Substitution) : HazardKind → Bool
  | feeds => occursIn later.pattern.toList earlier.replacement.toList
  | shadowed => occursIn earlier.pattern.toList later.pattern.toList
  | reintroduces => occursIn earlier.pattern.toList later.replacement.toList

def all : List HazardKind := [feeds, shadowed, reintroduces]

end HazardKind

/-- An interaction of two entries, by their positions in the table. -/
structure Hazard where
  earlier : Nat
  later : Nat
  kind : HazardKind
deriving DecidableEq

namespace Hazard

def text (hazard : Hazard) : String :=
  "entry #" ++ toString hazard.earlier ++ " " ++ hazard.kind.relation ++ " entry #" ++ toString hazard.later

def between (i : Nat) (earlier : Substitution) (j : Nat) (later : Substitution) : List Hazard :=
  if earlier.pattern = "" ∨ later.pattern = "" then []
  else (HazardKind.all.filter (HazardKind.holds earlier later)).map (⟨i, j, ·⟩)

/-- The hazards of one entry with those after it, the first of which is number `j`. -/
def withLater (i : Nat) (earlier : Substitution) : (j : Nat) → List Substitution → List Hazard
  | _, [] => []
  | j, later :: rest => between i earlier j later ++ withLater i earlier (j + 1) rest

/-- The hazards among entries, the first of which is number `i`. -/
def among : (i : Nat) → List Substitution → List Hazard
  | _, [] => []
  | i, entry :: rest => withLater i entry (i + 1) rest ++ among (i + 1) rest

end Hazard

def Table.hazards (table : Table) : List Hazard := Hazard.among 0 table.entries

end Retarget
