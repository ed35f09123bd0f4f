/-!
Lists without repetitions, in the order of first occurrence.
-/
namespace AuthSchema

variable {α : Type u} [DecidableEq α]

/-- Adds an element at the end unless it is there already. -/
def addNew (seen : List α) (a : α) : List α := if a ∈ seen then seen else seen ++ [a]

/-- The distinct elements of a list, each at its first occurrence. -/
def distinct (l : List α) : List α := l.foldl addNew []

theorem mem_foldl_addNew {seen l : List α} {a : α} :
    a ∈ l.foldl addNew seen ↔ a ∈ seen ∨ a ∈ l := by
  induction l generalizing seen with
  | nil => simp
  | cons b l ih =>
    rw [List.foldl_cons, ih, addNew]
    split <;> grind

theorem mem_distinct {l : List α} {a : α} : a ∈ distinct l ↔ a ∈ l := by
  simp [distinct, mem_foldl_addNew]

theorem nodup_foldl_addNew {seen l : List α} (h : seen.Nodup) : (l.foldl addNew seen).Nodup := by
  induction l generalizing seen with
  | nil => exact h
  | cons b l ih =>
    rw [List.foldl_cons]
    apply ih
    rw [addNew]
    split
    · exact h
    · exact List.nodup_append.mpr ⟨h, by simp, by grind⟩

theorem nodup_distinct (l : List α) : (distinct l).Nodup := nodup_foldl_addNew .nil

/-- Adding elements in turn keeps those that are new, each at its first occurrence. -/
theorem foldl_addNew_eq (seen l : List α) :
    l.foldl addNew seen = seen ++ (l.filter fun a => a ∉ seen).eraseDups := by
  induction l generalizing seen with
  | nil => simp
  | cons b l ih =>
    rw [List.foldl_cons, ih, addNew]
    by_cases hb : b ∈ seen
    · rw [if_pos hb, List.filter_cons_of_neg (by simpa using hb)]
    · have hfilter : (l.filter fun a => a ∉ seen ++ [b]) =
          (l.filter fun a => a ∉ seen).filter fun a => !a == b := by
        rw [List.filter_filter]
        apply List.filter_congr
        intro a _
        by_cases ha : a ∈ seen <;> by_cases hab : a = b <;> simp [ha, hab]
      rw [if_neg hb, List.filter_cons_of_pos (by simpa using hb), List.eraseDups_cons, hfilter,
        List.append_assoc, List.singleton_append]

theorem distinct_eq_eraseDups (l : List α) : distinct l = l.eraseDups := by
  rw [distinct, foldl_addNew_eq, List.nil_append, List.filter_eq_self.mpr (by simp)]

end AuthSchema
