import AuthSchema.Proofs.Subjects

/-! A growing map keeps at each type the least of the subjects that it has been given there: the
object itself before any userset, and usersets in the order of their relations. So a collected map
depends on the set of its subjects only. -/
namespace AuthSchema

namespace SubjectRelation

theorem not_supersedes_self (a : SubjectRelation) : ¬ a.supersedes a := by
  cases a with
  | itself => simp [supersedes]
  | userset relation =>
    rw [supersedes, decide_eq_true_eq]
    exact String.lt_irrefl relation

private theorem not_supersedes_of_supersedes {a b : SubjectRelation} (h : a.supersedes b) :
    ¬ b.supersedes a := by
  cases a with
  | itself => cases b <;> simp_all [supersedes]
  | userset x =>
    cases b with
    | itself => simp [supersedes] at h
    | userset y =>
      simp only [supersedes, decide_eq_true_eq] at h ⊢
      exact String.lt_asymm h

theorem not_supersedes_trans {a b c : SubjectRelation} (hab : ¬ a.supersedes b)
    (hbc : ¬ b.supersedes c) : ¬ a.supersedes c := by
  cases a with
  | itself => cases b <;> cases c <;> simp_all [supersedes]
  | userset x =>
    cases b with
    | itself => cases c <;> simp_all [supersedes]
    | userset y =>
      cases c with
      | itself => simp [supersedes]
      | userset z =>
        simp only [supersedes, decide_eq_true_eq, String.not_lt] at hab hbc ⊢
        exact String.le_trans hbc hab

theorem eq_of_not_supersedes {a b : SubjectRelation} (hab : ¬ a.supersedes b)
    (hba : ¬ b.supersedes a) : a = b := by
  cases a with
  | itself => cases b <;> simp_all [supersedes]
  | userset x =>
    cases b with
    | itself => simp [supersedes] at hba
    | userset y =>
      simp only [supersedes, decide_eq_true_eq, String.not_lt] at hab hba
      rw [String.le_antisymm hba hab]

end SubjectRelation

namespace SubjectMap

theorem growAll_fst (m : SubjectMap) (l : List (String × SubjectRelation)) :
    (m.growAll l).1 = l.foldl (fun m e => (m.grow e.1 e.2).1) m := by
  rw [growAll]
  generalize false = flag
  induction l generalizing m flag with
  | nil => rfl
  | cons e rest ih => exact ih _ _

theorem growAll_cons (m : SubjectMap) (e : String × SubjectRelation)
    (rest : List (String × SubjectRelation)) :
    (m.growAll (e :: rest)).1 = ((m.grow e.1 e.2).1.growAll rest).1 := by
  rw [growAll_fst, growAll_fst]
  rfl

private theorem eq_or_of_get?_grow {m : SubjectMap} {type k : String} {subject v : SubjectRelation}
    (h : (m.grow type subject).1.get? k = some v) :
    m.get? k = some v ∨ (k = type ∧ v = subject) := by
  rw [grow] at h
  split at h
  · exact (SortedMap.get?_of_insert h).symm
  · split at h
    · exact (SortedMap.get?_of_insert h).symm
    · exact Or.inl h

private theorem exists_get?_grow {m : SubjectMap} {type k : String} {subject v : SubjectRelation}
    (h : m.get? k = some v ∨ (k = type ∧ v = subject)) :
    ∃ w, (m.grow type subject).1.get? k = some w ∧ ¬ v.supersedes w := by
  rw [grow]
  by_cases hk : k = type
  · subst hk
    cases hp : m.get? k with
    | none =>
      have hv : v = subject := by simpa [hp] using h
      exact ⟨subject, by simp [SortedMap.get?_insert], hv ▸ v.not_supersedes_self⟩
    | some present =>
      cases hs : subject.supersedes present with
      | true =>
        refine ⟨subject, by simp [SortedMap.get?_insert, hs], ?_⟩
        rcases h with h | ⟨-, rfl⟩
        · obtain rfl : present = v := Option.some.inj (hp.symm.trans h)
          exact SubjectRelation.not_supersedes_of_supersedes hs
        · exact v.not_supersedes_self
      | false =>
        refine ⟨present, by simp [hs, hp], ?_⟩
        rcases h with h | ⟨-, rfl⟩
        · obtain rfl : present = v := Option.some.inj (hp.symm.trans h)
          exact present.not_supersedes_self
        · simp [hs]
  · have hv : m.get? k = some v := h.resolve_right fun h => hk h.1
    refine ⟨v, ?_, v.not_supersedes_self⟩
    split
    · rw [SortedMap.get?_insert, if_neg hk, hv]
    · split
      · rw [SortedMap.get?_insert, if_neg hk, hv]
      · exact hv

/-- What stands in a grown map stood there before or has been added. -/
theorem eq_or_mem_of_get?_growAll {m : SubjectMap} {l : List (String × SubjectRelation)}
    {k : String} {v : SubjectRelation} (h : (m.growAll l).1.get? k = some v) :
    m.get? k = some v ∨ (k, v) ∈ l := by
  induction l generalizing m with
  | nil => exact Or.inl h
  | cons e rest ih =>
    rw [growAll_cons] at h
    rcases ih h with h | h
    · rcases eq_or_of_get?_grow h with h | ⟨rfl, rfl⟩
      · exact Or.inl h
      · exact Or.inr List.mem_cons_self
    · exact Or.inr (List.mem_cons_of_mem _ h)

/-- What is added to a map stands there or has given way to something less. -/
theorem exists_get?_growAll {m : SubjectMap} {l : List (String × SubjectRelation)} {k : String}
    {v : SubjectRelation} (h : m.get? k = some v ∨ (k, v) ∈ l) :
    ∃ w, (m.growAll l).1.get? k = some w ∧ ¬ v.supersedes w := by
  induction l generalizing m v with
  | nil => exact ⟨v, h.resolve_right List.not_mem_nil, v.not_supersedes_self⟩
  | cons e rest ih =>
    rw [growAll_cons]
    have hstep : (m.get? k = some v ∨ (k = e.1 ∧ v = e.2)) ∨ (k, v) ∈ rest := by
      rcases h with h | h
      · exact Or.inl (Or.inl h)
      · rcases List.mem_cons.mp h with rfl | h
        · exact Or.inl (Or.inr ⟨rfl, rfl⟩)
        · exact Or.inr h
    rcases hstep with hnow | hlater
    · obtain ⟨u, hu, hvu⟩ := exists_get?_grow hnow
      obtain ⟨w, hw, huw⟩ := ih (Or.inl hu)
      exact ⟨w, hw, SubjectRelation.not_supersedes_trans hvu huw⟩
    · exact ih (Or.inr hlater)

/-- A grown map has at each type the least of what stood there and what has been added. -/
theorem get?_growAll_eq_some {m : SubjectMap} {l : List (String × SubjectRelation)} {k : String}
    {v : SubjectRelation} : (m.growAll l).1.get? k = some v ↔
      (m.get? k = some v ∨ (k, v) ∈ l) ∧
        ∀ w, (m.get? k = some w ∨ (k, w) ∈ l) → ¬ w.supersedes v := by
  constructor
  · intro h
    refine ⟨eq_or_mem_of_get?_growAll h, fun w hw => ?_⟩
    obtain ⟨u, hu, hwu⟩ := exists_get?_growAll hw
    rw [h] at hu
    cases hu
    exact hwu
  · rintro ⟨hv, hleast⟩
    obtain ⟨w, hw, hvw⟩ := exists_get?_growAll hv
    have hwv := hleast w (eq_or_mem_of_get?_growAll hw)
    rw [hw, SubjectRelation.eq_of_not_supersedes hwv hvw]

theorem mem_of_mem_collect {l : List (String × SubjectRelation)} {e : String × SubjectRelation}
    (h : e ∈ (collect l).entries) : e ∈ l := by
  rcases eq_or_mem_of_get?_growAll (SortedMap.mem_entries_iff.mp h) with hempty | hmem
  · cases hempty
  · exact hmem

/-- What is collected has the types of what is given. -/
theorem mem_keys_collect_iff {l : List (String × SubjectRelation)} {k : String} :
    k ∈ (collect l).keys ↔ k ∈ l.map Prod.fst := by
  constructor
  · exact mem_keys_collect
  · intro h
    obtain ⟨⟨k, v⟩, hmem, rfl⟩ := List.mem_map.mp h
    obtain ⟨w, hw, -⟩ := exists_get?_growAll (m := .empty) (Or.inr hmem)
    exact SortedMap.mem_keys_of_get? hw

theorem collect_not_empty {l : List (String × SubjectRelation)} (h : l ≠ []) :
    (collect l).isEmpty = false := by
  obtain ⟨⟨k, v⟩, hmem⟩ := List.exists_mem_of_ne_nil l h
  obtain ⟨w, hw, -⟩ := exists_get?_growAll (m := .empty) (Or.inr hmem)
  rw [Bool.eq_false_iff]
  intro hempty
  have hnone := SortedMap.isEmpty_iff.mp hempty k
  rw [collect, hw] at hnone
  cases hnone

/-- Order and repetition of the subjects leave no trace in a collected map. -/
theorem collect_congr {l l' : List (String × SubjectRelation)} (h : ∀ e, e ∈ l ↔ e ∈ l') :
    collect l = collect l' := by
  apply SortedMap.ext_get?
  intro k
  apply Option.ext
  intro v
  rw [collect, collect, get?_growAll_eq_some, get?_growAll_eq_some]
  simp only [h]

end SubjectMap

end AuthSchema
