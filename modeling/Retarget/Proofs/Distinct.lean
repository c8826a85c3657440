import Mathlib.Data.List.Nodup

/-!
Items that are told apart. One that alone passes a test is found wherever it stands, so each is found
under a key of its own. With repetitions left out, an item more is a new one or makes no difference.
-/
namespace Retarget

variable {α κ : Type} {items : List α} {item : α}

theorem find?_of_only {test : α → Bool} (member : item ∈ items) (fits : test item = true)
    (only : ∀ other ∈ items, test other = true → other = item) : items.find? test = some item := by
  obtain ⟨found, first⟩ := Option.isSome_iff_exists.1 (List.find?_isSome.2 ⟨item, member, fits⟩)
  rw [first, only found (List.mem_of_find?_eq_some first) (List.find?_some first)]

theorem find?_key [DecidableEq κ] {key : α → κ} (distinct : (items.map key).Nodup)
    (member : item ∈ items) : items.find? (fun other => key other = key item) = some item := by
  refine find?_of_only member (decide_eq_true rfl) fun other inside same => ?_
  exact List.inj_on_of_nodup_map distinct inside member (of_decide_eq_true same)

theorem eraseDups_concat_of_mem [DecidableEq α] (known : item ∈ items) :
    (items ++ [item]).eraseDups = items.eraseDups := by
  have more : [item].removeAll items = [] := by simpa [List.removeAll] using known
  rw [List.eraseDups_append, more, List.eraseDups_nil, List.append_nil]

theorem eraseDups_concat_of_not_mem [DecidableEq α] (fresh : item ∉ items) :
    (items ++ [item]).eraseDups = items.eraseDups ++ [item] := by
  have more : [item].removeAll items = [item] := by simpa [List.removeAll] using fresh
  rw [List.eraseDups_append, more]
  rfl

end Retarget
