import AuthSchema.Proofs.Maps
import AuthSchema.Subject.Map

/-! What growing an allowed-subject map does when only objects themselves are added. -/
namespace AuthSchema.SubjectMap

/-- Every subject is the object itself; no userset is left. -/
def Plain (m : SubjectMap) : Prop := ∀ type subject, m.get? type = some subject → subject = .itself

theorem plain_empty : Plain (.empty : SubjectMap) := by
  intro type subject h
  cases h

theorem Plain.mem_entries {m : SubjectMap} (hm : m.Plain) {e : String × SubjectRelation}
    (he : e ∈ m.entries) : e.2 = .itself := hm e.1 e.2 (SortedMap.mem_entries_iff.mp he)

theorem Plain.mem_keys_iff {m : SubjectMap} (hm : m.Plain) {type : String} :
    type ∈ m.keys ↔ m.get? type = some .itself := by
  rw [SortedMap.mem_keys_iff]
  constructor
  · rintro ⟨subject, h⟩
    rw [h, hm type subject h]
  · intro h
    exact ⟨_, h⟩

theorem Plain.ext {m m' : SubjectMap} (hm : m.Plain) (hm' : m'.Plain)
    (h : ∀ type, m.get? type = some .itself ↔ m'.get? type = some .itself) : m = m' := by
  apply SortedMap.ext_get?
  intro type
  cases hs : m.get? type with
  | some subject =>
    obtain rfl := hm type subject hs
    exact ((h type).mp hs).symm
  | none =>
    cases hs' : m'.get? type with
    | none => rfl
    | some subject' =>
      obtain rfl := hm' type subject' hs'
      rw [(h type).mpr hs'] at hs
      cases hs

theorem get?_wildcard (type : String) :
    wildcard.get? type = if type = anyType then some .itself else none := by
  rw [wildcard, SortedMap.get?_insert]
  rfl

/-- The object itself takes the place of whatever stands at the type. -/
theorem get?_grow_itself (m : SubjectMap) (type k : String) :
    (m.grow type .itself).1.get? k = if k = type then some .itself else m.get? k := by
  rw [grow]
  split
  · rw [SortedMap.get?_insert]
  · next present hp =>
    cases present with
    | itself =>
      by_cases h : k = type
      · subst h; simp [SubjectRelation.supersedes, hp]
      · simp [SubjectRelation.supersedes, h]
    | userset relation => simp [SubjectRelation.supersedes, SortedMap.get?_insert]

private theorem grow_itself_changed (m : SubjectMap) (type : String) :
    (m.grow type .itself).2 = true ↔ m.get? type ≠ some .itself := by
  rw [grow]
  split
  · next hn => simp [hn]
  · next present hp =>
    cases present <;> simp [SubjectRelation.supersedes, hp]

/-- One step of growing by a list: the map so far, and whether it has changed. -/
def growing (state : SubjectMap × Bool) (e : String × SubjectRelation) :
    SubjectMap × Bool :=
  ((state.1.grow e.1 e.2).1, state.2 || (state.1.grow e.1 e.2).2)

theorem growAll_eq_foldl (m : SubjectMap) (l : List (String × SubjectRelation)) :
    m.growAll l = l.foldl growing (m, false) := rfl

private theorem get?_foldl_growing {l : List (String × SubjectRelation)}
    (hl : ∀ e ∈ l, e.2 = .itself) (state : SubjectMap × Bool) (k : String) :
    (l.foldl growing state).1.get? k =
      if (k, .itself) ∈ l then some .itself else state.1.get? k := by
  induction l generalizing state with
  | nil => simp
  | cons e rest ih =>
    obtain ⟨type, subject⟩ := e
    obtain rfl : subject = .itself := hl _ List.mem_cons_self
    rw [List.foldl_cons, ih fun e he => hl e (List.mem_cons_of_mem _ he)]
    simp only [growing, get?_grow_itself, List.mem_cons, Prod.mk.injEq, and_true]
    by_cases hr : (k, SubjectRelation.itself) ∈ rest <;> simp [hr]

private theorem foldl_growing_changed {l : List (String × SubjectRelation)}
    (hl : ∀ e ∈ l, e.2 = .itself) (state : SubjectMap × Bool) :
    (l.foldl growing state).2 = true ↔
      state.2 = true ∨ ∃ e ∈ l, state.1.get? e.1 ≠ some .itself := by
  induction l generalizing state with
  | nil => simp
  | cons e rest ih =>
    obtain ⟨type, subject⟩ := e
    obtain rfl : subject = .itself := hl _ List.mem_cons_self
    rw [List.foldl_cons, ih fun e he => hl e (List.mem_cons_of_mem _ he)]
    simp only [growing, Bool.or_eq_true, grow_itself_changed, get?_grow_itself,
      List.exists_mem_cons_iff]
    grind

/-- After a list of objects has been added, a type is either one of them or stands as before. -/
theorem get?_growAll_itself {l : List (String × SubjectRelation)} (hl : ∀ e ∈ l, e.2 = .itself)
    (m : SubjectMap) (k : String) :
    (m.growAll l).1.get? k = if (k, .itself) ∈ l then some .itself else m.get? k := by
  rw [growAll_eq_foldl, get?_foldl_growing hl]

/-- The flag of a growth tells whether one of the objects was missing. -/
theorem growAll_itself_changed {l : List (String × SubjectRelation)}
    (hl : ∀ e ∈ l, e.2 = .itself) (m : SubjectMap) :
    (m.growAll l).2 = true ↔ ∃ e ∈ l, m.get? e.1 ≠ some .itself := by
  rw [growAll_eq_foldl, foldl_growing_changed hl]
  simp

theorem Plain.growAll {m : SubjectMap} (hm : m.Plain) {l : List (String × SubjectRelation)}
    (hl : ∀ e ∈ l, e.2 = .itself) : (m.growAll l).1.Plain := by
  intro type subject h
  rw [get?_growAll_itself hl] at h
  split at h
  · exact (Option.some.inj h).symm
  · exact hm type subject h

/-- A growth that reports no change has left the map as it was. -/
theorem growAll_unchanged {l : List (String × SubjectRelation)} (hl : ∀ e ∈ l, e.2 = .itself)
    {m : SubjectMap} (h : (m.growAll l).2 = false) : (m.growAll l).1 = m := by
  apply SortedMap.ext_get?
  intro k
  rw [get?_growAll_itself hl]
  split
  · next hk =>
    by_contra hne
    have hchanged := (growAll_itself_changed hl m).mpr ⟨_, hk, fun he => hne he.symm⟩
    rw [h] at hchanged
    cases hchanged
  · rfl

private theorem mem_keys_grow {m : SubjectMap} {type k : String} {subject : SubjectRelation}
    (h : k ∈ (m.grow type subject).1.keys) : k = type ∨ k ∈ m.keys := by
  have hinsert : k ∈ (m.insert type subject).keys → k = type ∨ k ∈ m.keys := by
    intro hk
    obtain ⟨v, hv⟩ := SortedMap.mem_keys_iff.mp hk
    rw [SortedMap.get?_insert] at hv
    split at hv
    · exact Or.inl ‹_›
    · exact Or.inr (SortedMap.mem_keys_iff.mpr ⟨v, hv⟩)
  rw [grow] at h
  split at h
  · exact hinsert h
  · split at h
    · exact hinsert h
    · exact Or.inr h

private theorem mem_keys_foldl_growing {l : List (String × SubjectRelation)}
    (state : SubjectMap × Bool) {k : String} (h : k ∈ (l.foldl growing state).1.keys) :
    k ∈ state.1.keys ∨ k ∈ l.map Prod.fst := by
  induction l generalizing state with
  | nil => exact Or.inl h
  | cons e rest ih =>
    rcases ih _ h with hk | hk
    · rcases mem_keys_grow hk with rfl | hk
      · exact Or.inr List.mem_cons_self
      · exact Or.inl hk
    · exact Or.inr (List.mem_cons_of_mem _ hk)

theorem mem_keys_collect {l : List (String × SubjectRelation)} {k : String}
    (h : k ∈ (collect l).keys) : k ∈ l.map Prod.fst := by
  rcases mem_keys_foldl_growing (.empty, false) h with hk | hk
  · cases hk
  · exact hk

end AuthSchema.SubjectMap
