import Retarget.Substitution.Scan

/-!
An ordered table of literal substitutions, each pattern at most once. A pattern given again keeps its
position and takes the new replacement. Applying the table rewrites a text entry by entry, each entry
working on what the one before it left.
-/
namespace Retarget

structure Substitution where
  pattern : String
  replacement : String
deriving DecidableEq

namespace Substitution

/-- Replaces every occurrence and counts them. An empty pattern does nothing. -/
def apply (entry : Substitution) (text : List Char) : List Char × Nat :=
  if entry.pattern = "" then (text, 0)
  else (replaceAll entry.pattern.toList entry.replacement.toList text, occurrences entry.pattern.toList text)

def patterns (entries : List Substitution) : List String := entries.map pattern

/-- An entry in the place of the one with its pattern, or last. -/
def put (entry : Substitution) : List Substitution → List Substitution
  | [] => [entry]
  | first :: rest => if first.pattern = entry.pattern then entry :: rest else first :: put entry rest

theorem mem_patterns_put {entry : Substitution} {entries : List Substitution} {pattern : String} :
    pattern ∈ patterns (put entry entries) ↔ pattern = entry.pattern ∨ pattern ∈ patterns entries := by
  induction entries with
  | nil => simp [put, patterns]
  | cons first rest ih =>
    simp only [patterns, put, List.map_cons, List.mem_cons] at *
    split
    · rename_i same
      simp [same]
    · rw [List.map_cons, List.mem_cons, ih]
      exact or_left_comm

theorem nodup_patterns_put {entry : Substitution} {entries : List Substitution} (distinct : (patterns entries).Nodup) :
    (patterns (put entry entries)).Nodup := by
  induction entries with
  | nil => simp [put, patterns]
  | cons first rest ih =>
    simp only [patterns, put, List.map_cons, List.nodup_cons] at *
    split
    · rename_i same
      rw [List.map_cons, List.nodup_cons]
      exact ⟨same ▸ distinct.1, distinct.2⟩
    · rename_i other
      rw [List.map_cons, List.nodup_cons]
      refine ⟨fun inside => ?_, ih distinct.2⟩
      exact (mem_patterns_put.1 inside).elim other distinct.1

/-- Applies entries in order and adds up their counts. -/
def applyAll : List Substitution → List Char → List Char × Nat
  | [], text => (text, 0)
  | entry :: rest, text =>
    let (changed, count) := entry.apply text
    let (result, more) := applyAll rest changed
    (result, count + more)

end Substitution

structure Table where
  entries : List Substitution
  distinct : (Substitution.patterns entries).Nodup
deriving DecidableEq

/-- A pattern that was given again, and the replacement it had before. -/
structure Repeat where
  pattern : String
  previous : String
deriving DecidableEq

namespace Table

def empty : Table := ⟨[], List.nodup_nil⟩

def size (table : Table) : Nat := table.entries.length

def isEmpty (table : Table) : Bool := table.entries.isEmpty

def get? (table : Table) (pattern : String) : Option String :=
  (table.entries.find? fun entry => entry.pattern = pattern).map Substitution.replacement

def insert (table : Table) (entry : Substitution) : Table :=
  ⟨Substitution.put entry table.entries, Substitution.nodup_patterns_put table.distinct⟩

def repeat? (table : Table) (entry : Substitution) : Option Repeat :=
  (table.get? entry.pattern).map (⟨entry.pattern, ·⟩)

/-- Inserts entries one after another and notes the patterns that were there already. -/
def insertAll (table : Table) : List Substitution → Table × List Repeat
  | [] => (table, [])
  | entry :: rest =>
    let (result, repeats) := (table.insert entry).insertAll rest
    (result, (table.repeat? entry).toList ++ repeats)

def ofList (entries : List Substitution) : Table × List Repeat := empty.insertAll entries

def patterns (table : Table) : List String := Substitution.patterns table.entries

def apply (table : Table) (text : String) : String × Nat :=
  let (chars, count) := Substitution.applyAll table.entries text.toList
  (String.ofList chars, count)

/-- Whether two tables give every pattern the same replacement, in whatever order. -/
def sameEntries (first second : Table) : Bool :=
  first.size = second.size &&
    first.entries.all fun entry => second.get? entry.pattern = some entry.replacement

end Table
end Retarget
