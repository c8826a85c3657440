import Mathlib.Tactic.Common
import Retarget.Substitution.Table

/-!
Inserting entries with patterns that are not there yet. Each goes to the end and nothing is repeated,
so the entries of a table, inserted again in their order, make the same table.
-/
namespace Retarget

namespace Substitution

theorem put_fresh {entry : Substitution} {entries : List Substitution}
    (fresh : entry.pattern ∉ patterns entries) : put entry entries = entries ++ [entry] := by
  induction entries with
  | nil => rfl
  | cons first rest ih =>
    simp only [patterns, List.map_cons, List.mem_cons, not_or] at fresh
    rw [put, if_neg (Ne.symm fresh.1), ih fresh.2, List.cons_append]

end Substitution

namespace Table

theorem repeat?_fresh {table : Table} {entry : Substitution}
    (fresh : entry.pattern ∉ table.patterns) : table.repeat? entry = none := by
  have missing : table.entries.find? (fun other => other.pattern = entry.pattern) = none := by
    apply List.find?_eq_none.2
    intro other member same
    apply fresh
    rw [← of_decide_eq_true same]
    exact List.mem_map.2 ⟨other, member, rfl⟩
  rw [repeat?, get?, missing]
  rfl

/-- Entries with new patterns are put behind those of the table, and none of them is a repeat. -/
theorem insertAll_fresh (table : Table) (more : List Substitution)
    (apart : (Substitution.patterns (table.entries ++ more)).Nodup) :
    table.insertAll more = (⟨table.entries ++ more, apart⟩, []) := by
  induction more generalizing table with
  | nil => simp [insertAll]
  | cons entry rest ih =>
    have split : (table.patterns ++ entry.pattern :: Substitution.patterns rest).Nodup := by
      simpa [patterns, Substitution.patterns] using apart
    have fresh : entry.pattern ∉ table.patterns := fun inside =>
      (List.nodup_append.1 split).2.2 _ inside _ List.mem_cons_self rfl
    have inserted : (table.insert entry).entries = table.entries ++ [entry] :=
      Substitution.put_fresh fresh
    have onward := ih (table.insert entry) (by rw [inserted]; simpa [Substitution.patterns] using apart)
    rw [insertAll, onward, repeat?_fresh fresh]
    simp [inserted]

/-- The entries of a table make the table again, without a repeat. -/
theorem ofList_entries (table : Table) : ofList table.entries = (table, []) :=
  insertAll_fresh empty table.entries table.distinct

end Table
end Retarget
