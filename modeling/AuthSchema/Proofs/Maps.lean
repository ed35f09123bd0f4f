import AuthSchema.SortedMap.Lemmas
import Mathlib.Data.List.Nodup

/-! Sorted maps as partial functions: each operation is settled by what looking up a key gives,
and two maps in which every look-up agrees are one map. -/
namespace AuthSchema.SortedMap
variable {α : Type u} {β : Type v}

private theorem lookup_place (key k : String) (value : α) (l : List (String × α)) :
    lookup k (place key value l) = if k = key then some value else lookup k l := by
  induction l with
  | nil => simp [place, lookup, eq_comm]
  | cons e rest ih =>
    obtain ⟨k', v'⟩ := e
    rw [place]
    split
    · simp [lookup, eq_comm]
    · split
      · next hlt =>
        have hne : k' ≠ key := fun h => String.lt_irrefl key (h ▸ hlt)
        rw [lookup, ih]
        by_cases h : k' = k
        · subst h; simp [lookup, hne]
        · simp [lookup, h]
      · next hle hge =>
        have he : key = k' := String.le_antisymm (String.not_lt.mp hge) (String.not_lt.mp hle)
        subst he
        by_cases h : key = k <;> simp [lookup, h, eq_comm]

private theorem lookup_map (key : String) (f : String → α → β) (l : List (String × α)) :
    lookup key (l.map fun e => (e.1, f e.1 e.2)) = (lookup key l).map (f key) := by
  induction l with
  | nil => rfl
  | cons e rest ih =>
    obtain ⟨k, v⟩ := e
    rw [List.map_cons, lookup, lookup, ih]
    by_cases h : k = key
    · subst h; simp
    · simp [h]

private theorem lookup_eq_some {key : String} {value : α} {l : List (String × α)}
    (hl : l.Pairwise (fun a b => a.1 < b.1)) (h : (key, value) ∈ l) :
    lookup key l = some value := by
  induction l with
  | nil => cases h
  | cons e rest ih =>
    obtain ⟨k, v⟩ := e
    obtain ⟨hk, hrest⟩ := List.pairwise_cons.mp hl
    rcases List.mem_cons.mp h with he | hmem
    · cases he
      simp [lookup]
    · have hlt : k < key := hk _ hmem
      have hne : k ≠ key := fun he => String.lt_irrefl key (he ▸ hlt)
      rw [lookup, if_neg hne]
      exact ih hrest hmem

theorem get?_insert (m : SortedMap α) (key k : String) (value : α) :
    (m.insert key value).get? k = if k = key then some value else m.get? k :=
  lookup_place key k value m.entries

theorem get?_of_insert {m : SortedMap α} {key k : String} {value v : α}
    (h : (m.insert key value).get? k = some v) : (k = key ∧ v = value) ∨ m.get? k = some v := by
  rw [get?_insert] at h
  split at h
  · exact Or.inl ⟨‹_›, (Option.some.inj h).symm⟩
  · exact Or.inr h

@[simp] theorem get?_map (f : String → α → β) (m : SortedMap α) (key : String) :
    (m.map f).get? key = (m.get? key).map (f key) := lookup_map key f m.entries

theorem mem_entries_iff {m : SortedMap α} {key : String} {value : α} :
    (key, value) ∈ m.entries ↔ m.get? key = some value :=
  ⟨lookup_eq_some m.ascending, mem_entries_of_get?⟩

theorem mem_keys_iff {m : SortedMap α} {key : String} :
    key ∈ m.keys ↔ ∃ value, m.get? key = some value := by
  constructor
  · intro h
    obtain ⟨⟨k, v⟩, hmem, rfl⟩ := List.mem_map.mp h
    exact ⟨v, mem_entries_iff.mp hmem⟩
  · rintro ⟨v, h⟩
    exact mem_keys_of_get? h

theorem contains_eq_true_iff {m : SortedMap α} {key : String} :
    m.contains key = true ↔ key ∈ m.keys := by
  rw [contains, Option.isSome_iff_exists, mem_keys_iff]

theorem mem_values_iff {m : SortedMap α} {value : α} :
    value ∈ m.values ↔ ∃ key, m.get? key = some value := by
  constructor
  · intro h
    obtain ⟨⟨k, v⟩, hmem, rfl⟩ := List.mem_map.mp h
    exact ⟨k, mem_entries_iff.mp hmem⟩
  · rintro ⟨k, h⟩
    exact List.mem_map.mpr ⟨_, mem_entries_iff.mpr h, rfl⟩

theorem nodup_keys (m : SortedMap α) : m.keys.Nodup := by
  refine List.pairwise_map.mpr (m.ascending.imp ?_)
  intro a b h he
  exact String.lt_irrefl b.1 (he ▸ h)

/-- What is read off the values of a map is distinct if no two keys give the same. -/
theorem nodup_map_values_iff (f : α → β) (m : SortedMap α) :
    (m.values.map f).Nodup ↔ ∀ name name' v v', m.get? name = some v → m.get? name' = some v' →
      f v = f v' → name = name' := by
  have hnodup : m.entries.Nodup := List.Nodup.of_map _ (nodup_keys m)
  rw [values, List.map_map, List.nodup_map_iff_inj_on hnodup]
  constructor
  · intro h name name' v v' hv hv' hsame
    have hentry : (name, v) = (name', v') :=
      h _ (mem_entries_iff.mpr hv) _ (mem_entries_iff.mpr hv') hsame
    exact congrArg Prod.fst hentry
  · rintro h ⟨name, v⟩ hv ⟨name', v'⟩ hv' hsame
    rw [mem_entries_iff] at hv hv'
    obtain rfl := h name name' v v' hv hv' hsame
    obtain rfl := Option.some.inj (hv.symm.trans hv')
    rfl

theorem isEmpty_iff {m : SortedMap α} : m.isEmpty = true ↔ ∀ key, m.get? key = none := by
  constructor
  · intro h key
    have he : m.entries = [] := List.isEmpty_iff.mp h
    rw [get?, he, lookup]
  · intro h
    refine List.isEmpty_iff.mpr (List.eq_nil_iff_forall_not_mem.mpr ?_)
    rintro ⟨k, v⟩ hmem
    rw [mem_entries_iff, h k] at hmem
    cases hmem

theorem exists_of_not_empty {m : SortedMap α} (h : m.isEmpty = false) :
    ∃ key value, m.get? key = some value := by
  by_contra hno
  have hempty : m.isEmpty = true := isEmpty_iff.mpr fun key => Option.eq_none_iff_forall_ne_some.mpr
    fun value hvalue => hno ⟨key, value, hvalue⟩
  rw [h] at hempty
  cases hempty

/-- Strict order leaves one arrangement of the entries, so look-ups determine the map. -/
theorem ext_get? {m m' : SortedMap α} (h : ∀ key, m.get? key = m'.get? key) : m = m' := by
  have hmem : ∀ e, e ∈ m.entries ↔ e ∈ m'.entries := by
    rintro ⟨k, v⟩
    rw [mem_entries_iff, mem_entries_iff, h k]
  have hnodup : ∀ m : SortedMap α, m.entries.Nodup := fun m => List.Nodup.of_map _ (nodup_keys m)
  have hperm : m.entries.Perm m'.entries :=
    (List.perm_ext_iff_of_nodup (hnodup m) (hnodup m')).mpr hmem
  have he : m.entries = m'.entries := by
    refine hperm.eq_of_pairwise ?_ m.ascending m'.ascending
    intro a b _ _ hab hba
    exact absurd hba (String.lt_asymm hab)
  cases m
  cases m'
  cases he
  rfl

theorem map_congr {f g : String → α → β} {m : SortedMap α}
    (h : ∀ key value, m.get? key = some value → f key value = g key value) :
    m.map f = m.map g := by
  apply ext_get?
  intro key
  rw [get?_map, get?_map]
  cases hv : m.get? key with
  | none => rfl
  | some value => exact congrArg some (h key value hv)

theorem map_map {γ : Type w} (f : String → α → β) (g : String → β → γ) (m : SortedMap α) :
    (m.map f).map g = m.map fun key value => g key (f key value) := by
  apply ext_get?
  intro key
  rw [get?_map, get?_map, get?_map, Option.map_map]
  rfl

theorem map_eq_self {f : String → α → α} {m : SortedMap α}
    (h : ∀ key value, m.get? key = some value → f key value = value) : m.map f = m := by
  apply ext_get?
  intro key
  rw [get?_map]
  cases hv : m.get? key with
  | none => rfl
  | some value => exact congrArg some (h key value hv)

theorem entries_map (f : String → α → β) (m : SortedMap α) :
    (m.map f).entries = m.entries.map fun e => (e.1, f e.1 e.2) := rfl

theorem values_map (f : α → β) (m : SortedMap α) :
    (m.map fun _ => f).values = m.values.map f := by
  simp [values, map]

@[simp] theorem keys_map (f : String → α → β) (m : SortedMap α) : (m.map f).keys = m.keys := by
  simp [keys, map]

/-- A map has all entries of another one. -/
def Within (m m' : SortedMap α) : Prop := ∀ key v, m.get? key = some v → m'.get? key = some v

theorem Within.get?_eq {m m' : SortedMap α} (h : m.Within m') {key : String}
    (hkey : key ∈ m.keys) : m'.get? key = m.get? key := by
  obtain ⟨v, hv⟩ := mem_keys_iff.mp hkey
  rw [hv, h key v hv]

/-- Values that are changed alike stay where they are. -/
theorem Within.map {m m' : SortedMap α} (h : m.Within m') {f g : String → α → β}
    (hfg : ∀ key v, m.get? key = some v → f key v = g key v) : (m.map f).Within (m'.map g) := by
  intro key w hw
  rw [get?_map] at hw ⊢
  obtain ⟨v, hv, rfl⟩ := Option.map_eq_some_iff.mp hw
  rw [h key v hv, Option.map_some, hfg key v hv]

theorem get?_filterKeys {p : String → Bool} {m : SortedMap α} {key : String} {value : α} :
    (m.filterKeys p).get? key = some value ↔ m.get? key = some value ∧ p key = true := by
  rw [← mem_entries_iff, ← mem_entries_iff, filterKeys, List.mem_filter]

theorem filterKeys_map (p : String → Bool) (f : String → α → β) (m : SortedMap α) :
    (m.map f).filterKeys p = (m.filterKeys p).map f := by
  simp only [filterKeys, map, List.filter_map, Function.comp_def]

end AuthSchema.SortedMap
