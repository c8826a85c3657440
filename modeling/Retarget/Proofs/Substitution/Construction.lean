import Mathlib.Data.List.Induction
import Retarget.Proofs.Distinct
import Retarget.Proofs.Substitution.Insertion

/-!
Tables built from any sequence of entries, patterns given again included. A pattern keeps the
position of its first entry and has the replacement of its last: the positions are told by the
patterns alone, the replacements by lookup, and both together settle the table. Everything is
carried from a sequence to one with an entry more.
-/
namespace Retarget

namespace Substitution

variable {entry : Substitution} {entries before : List Substitution}

/-- The replacement that the last of the entries with a pattern gives it. -/
def latest? (entries : List Substitution) (pattern : String) : Option String :=
  (entries.findRev? fun entry => entry.pattern = pattern).map replacement

theorem latest?_concat (before : List Substitution) (entry : Substitution) (pattern : String) :
    latest? (before ++ [entry]) pattern =
      if entry.pattern = pattern then some entry.replacement else latest? before pattern := by
  simp only [latest?, List.findRev?_eq_find?_reverse, List.reverse_concat, List.find?_cons]
  by_cases same : entry.pattern = pattern <;> simp [same]

theorem patterns_put_known (known : entry.pattern ∈ patterns entries) :
    patterns (put entry entries) = patterns entries := by
  induction entries with
  | nil => cases known
  | cons first rest ih =>
    rw [put]
    by_cases same : first.pattern = entry.pattern
    · rw [if_pos same, patterns, List.map_cons, ← same]
      rfl
    · have inside : entry.pattern ∈ patterns rest :=
        (List.mem_cons.1 known).resolve_left (Ne.symm same)
      rw [if_neg same, patterns, List.map_cons, ← patterns, ih inside]
      rfl

theorem patterns_put_fresh (fresh : entry.pattern ∉ patterns entries) :
    patterns (put entry entries) = patterns entries ++ [entry.pattern] := by
  rw [put_fresh fresh, patterns, List.map_append]
  rfl

theorem find?_put (pattern : String) :
    (put entry entries).find? (fun other => other.pattern = pattern) =
      if entry.pattern = pattern then some entry
      else entries.find? fun other => other.pattern = pattern := by
  induction entries with
  | nil => by_cases same : entry.pattern = pattern <;> simp [put, same]
  | cons first rest ih =>
    rw [put]
    by_cases same : first.pattern = entry.pattern
    · by_cases sought : entry.pattern = pattern <;> simp [same, sought]
    · rw [if_neg same, List.find?_cons, List.find?_cons, ih]
      by_cases found : first.pattern = pattern
      · have other : entry.pattern ≠ pattern := fun also => same (found.trans also.symm)
        simp [found, other]
      · simp [found]

end Substitution

namespace Table

open Substitution (latest? latest?_concat find?_put patterns_put_known patterns_put_fresh)

variable {table : Table} {entry : Substitution}

/-! ## One entry -/

theorem get?_insert (table : Table) (entry : Substitution) (pattern : String) :
    (table.insert entry).get? pattern =
      if entry.pattern = pattern then some entry.replacement else table.get? pattern := by
  rw [get?, insert, find?_put]
  split <;> rfl

theorem get?_isSome {pattern : String} :
    (table.get? pattern).isSome ↔ pattern ∈ table.patterns := by
  simp [get?, patterns, Substitution.patterns]

theorem get?_of_mem (member : entry ∈ table.entries) :
    table.get? entry.pattern = some entry.replacement := by
  rw [get?, find?_key table.distinct member]
  rfl

/-- A table is settled by the order of its patterns and by lookup. -/
theorem entries_eq (table : Table) : table.entries.map some =
    table.patterns.map fun pattern => (table.get? pattern).map (⟨pattern, ·⟩) := by
  rw [patterns, Substitution.patterns, List.map_map]
  refine List.map_congr_left fun entry member => ?_
  rw [Function.comp_apply, get?_of_mem member]
  rfl

theorem size_eq (table : Table) : table.size = table.patterns.length := (List.length_map _).symm

theorem insert_known (known : entry.pattern ∈ table.patterns) :
    (table.insert entry).size = table.size ∧ (table.repeat? entry).toList.length = 1 := by
  obtain ⟨previous, found⟩ := Option.isSome_iff_exists.1 (get?_isSome.2 known)
  constructor
  · rw [size_eq, size_eq]
    exact congrArg List.length (patterns_put_known known)
  · rw [repeat?, found]
    rfl

theorem insert_fresh (fresh : entry.pattern ∉ table.patterns) :
    (table.insert entry).size = table.size + 1 ∧ (table.repeat? entry).toList.length = 0 := by
  constructor
  · rw [size_eq, size_eq]
    exact (congrArg List.length (patterns_put_fresh fresh)).trans List.length_append
  · rw [repeat?_fresh fresh]
    rfl

/-- Inserts an entry into the table at hand and gives back the replacement that its pattern had;
that it had one is noted. -/
def enter (entry : Substitution) : StateM (Table × List Repeat) (Option String) := do
  let (table, repeats) ← get
  set (table.insert entry, repeats ++ (table.repeat? entry).toList)
  pure (table.get? entry.pattern)

/-! ## A sequence and one entry more -/

theorem insertAll_concat (table : Table) (before : List Substitution) (entry : Substitution) :
    table.insertAll (before ++ [entry]) =
      ((table.insertAll before).1.insert entry,
        (table.insertAll before).2 ++ ((table.insertAll before).1.repeat? entry).toList) := by
  induction before generalizing table with
  | nil => simp [insertAll]
  | cons first rest ih => simp [insertAll, ih]

theorem ofList_concat (before : List Substitution) (entry : Substitution) :
    ofList (before ++ [entry]) =
      ((ofList before).1.insert entry,
        (ofList before).2 ++ ((ofList before).1.repeat? entry).toList) :=
  insertAll_concat empty before entry

theorem foldl_insert (table : Table) (entries : List Substitution) :
    entries.foldl insert table = (table.insertAll entries).1 := by
  induction entries generalizing table with
  | nil => rfl
  | cons entry rest ih => exact ih _

theorem get?_ofList (entries : List Substitution) (pattern : String) :
    (ofList entries).1.get? pattern = latest? entries pattern := by
  induction entries using List.reverseRecOn with
  | nil => rfl
  | append_singleton before entry ih => rw [ofList_concat, get?_insert, latest?_concat, ih]

theorem patterns_ofList (entries : List Substitution) :
    (ofList entries).1.patterns = (Substitution.patterns entries).eraseDups := by
  induction entries using List.reverseRecOn with
  | nil => rfl
  | append_singleton before entry ih =>
    have seen : entry.pattern ∈ (ofList before).1.patterns ↔
        entry.pattern ∈ Substitution.patterns before := by rw [ih, List.mem_eraseDups]
    rw [ofList_concat, Substitution.patterns, List.map_append, ← Substitution.patterns]
    by_cases known : entry.pattern ∈ Substitution.patterns before
    · rw [List.map_singleton, eraseDups_concat_of_mem known, ← ih]
      exact patterns_put_known (seen.2 known)
    · rw [List.map_singleton, eraseDups_concat_of_not_mem known, ← ih]
      exact patterns_put_fresh fun inside => known (seen.1 inside)

/-- Each entry gives a pattern of its own or repeats one. -/
theorem length_repeats (entries : List Substitution) :
    (ofList entries).2.length + (ofList entries).1.size = entries.length := by
  induction entries using List.reverseRecOn with
  | nil => rfl
  | append_singleton before entry ih =>
    rw [ofList_concat, List.length_append, List.length_append, List.length_singleton, ← ih]
    by_cases known : entry.pattern ∈ (ofList before).1.patterns
    · rw [(insert_known known).1, (insert_known known).2, Nat.add_right_comm]
    · rw [(insert_fresh known).1, (insert_fresh known).2, Nat.add_zero, Nat.add_assoc]

theorem enter_each (entries : List Substitution) :
    (entries.mapM enter).run (empty, []) =
      (entries.mapIdx fun i entry => latest? (entries.take i) entry.pattern, ofList entries) := by
  induction entries using List.reverseRecOn with
  | nil => rfl
  | append_singleton before entry ih =>
    have earlier :
        (before.mapIdx fun i other => latest? ((before ++ [entry]).take i) other.pattern) =
          before.mapIdx fun i other => latest? (before.take i) other.pattern := by
      refine List.mapIdx_eq_mapIdx_iff.2 fun i inside => ?_
      rw [List.take_append_of_le_length (Nat.le_of_lt inside)]
    rw [List.mapM_append, List.mapIdx_concat, earlier, List.take_left, ofList_concat, ← get?_ofList]
    simp only [StateT.run_bind, ih, List.mapM_cons, List.mapM_nil]
    rfl

/-- Entries inserted one after another, with or without regard to what is given back, make the
table of the whole sequence. It holds each pattern once, in the order of their first entries and
with the replacement of the last. What an insert gives back is the replacement of the latest entry
before with that pattern; as many repeats are noted as there are entries beyond the distinct
patterns, so none for the entries of a table, which make it again. -/
theorem entered_in_order (entries : List Substitution) :
    (entries.mapM enter).run (empty, []) =
        (entries.mapIdx fun i entry => latest? (entries.take i) entry.pattern, ofList entries) ∧
      entries.foldl insert empty = (ofList entries).1 ∧
      ((ofList entries).1.entries.map some =
        (Substitution.patterns entries).eraseDups.map fun pattern =>
          (latest? entries pattern).map (⟨pattern, ·⟩)) ∧
      (ofList entries).2.length + (Substitution.patterns entries).eraseDups.length =
        entries.length ∧
      ∀ table : Table, ofList table.entries = (table, []) := by
  refine ⟨enter_each entries, foldl_insert empty entries, ?_, ?_, ofList_entries⟩
  · rw [entries_eq, patterns_ofList]
    simp only [get?_ofList]
  · rw [← patterns_ofList, ← size_eq]
    exact length_repeats entries

example : ofList [⟨"a", "1"⟩, ⟨"b", "2"⟩, ⟨"a", "3"⟩, ⟨"a", "4"⟩] =
    (⟨[⟨"a", "4"⟩, ⟨"b", "2"⟩], by decide⟩, [⟨"a", "1"⟩, ⟨"a", "3"⟩]) := by
  decide

end Table
end Retarget
