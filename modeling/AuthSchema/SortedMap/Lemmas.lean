import AuthSchema.SortedMap.Basic

/-!
How looking up a key sees the operations on sorted maps.
-/
namespace AuthSchema.SortedMap
variable {α : Type u} {β : Type v}

theorem mem_of_lookup {key : String} {value : α} {l : List (String × α)}
    (h : lookup key l = some value) : (key, value) ∈ l := by
  fun_induction lookup key l with
  | case1 => simp at h
  | case2 => simp_all
  | case3 _ _ _ _ ih => exact List.mem_cons_of_mem _ (ih h)

theorem mem_entries_of_get? {m : SortedMap α} {key : String} {value : α}
    (h : m.get? key = some value) : (key, value) ∈ m.entries := mem_of_lookup h

theorem mem_keys_of_get? {m : SortedMap α} {key : String} {value : α}
    (h : m.get? key = some value) : key ∈ m.keys :=
  List.mem_map.mpr ⟨_, mem_entries_of_get? h, rfl⟩

end AuthSchema.SortedMap
