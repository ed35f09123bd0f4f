import AuthSchema.Proofs.Maps
import Mathlib.Data.List.Forall2
import Mathlib.Data.List.Induction
import Mathlib.Data.List.Nodup

/-! Lists that are filed by a key. A fold that refuses bad elements and keys that have been seen
takes exactly the lists of good elements with distinct keys, and the map that it fills depends on
the elements only, not on their order. -/
namespace AuthSchema

section Fold
variable {ε α β : Type} {f : β → α → Except ε β} {key : α → String} {Good : α → Prop}
  {Holds : List α → β → Prop}

theorem bind_eq_ok {x : Except ε α} {g : α → Except ε β} {b : β} :
    x >>= g = .ok b ↔ ∃ a, x = .ok a ∧ g a = .ok b := by
  cases x <;> simp [bind, Except.bind]

theorem foldlM_cons_eq_ok {a : α} {rest : List α} {b b' : β} :
    (a :: rest).foldlM f b = .ok b' ↔ ∃ c, f b a = .ok c ∧ rest.foldlM f c = .ok b' := by
  rw [List.foldlM_cons]
  cases f b a with
  | error e => simp [bind, Except.bind]
  | ok c => simp [bind, Except.bind]

/-- A fold fails at its first step that does. -/
theorem foldlM_eq_error {l : List α} {b : β} {e : ε} : l.foldlM f b = .error e ↔
    ∃ done a rest c, l = done ++ a :: rest ∧ done.foldlM f b = .ok c ∧ f c a = .error e := by
  constructor
  · intro h
    induction l generalizing b with
    | nil => cases h
    | cons a l ih =>
      rw [List.foldlM_cons] at h
      cases hstep : f b a with
      | error e' =>
        rw [hstep] at h
        cases h
        exact ⟨[], a, l, b, rfl, rfl, hstep⟩
      | ok c =>
        rw [hstep] at h
        obtain ⟨done, x, rest, c', rfl, hdone, hx⟩ := ih h
        exact ⟨a :: done, x, rest, c', rfl, foldlM_cons_eq_ok.mpr ⟨c, hstep, hdone⟩, hx⟩
  · rintro ⟨done, a, rest, c, rfl, hdone, ha⟩
    rw [List.foldlM_append, hdone, bind, Except.instMonad]
    simp only [Except.bind, List.foldlM_cons, ha, bind]

theorem foldlM_flatMap {γ : Type} (g : γ → List α) (l : List γ) (b : β) :
    (l.flatMap g).foldlM f b = l.foldlM (fun b c => (g c).foldlM f b) b := by
  induction l generalizing b with
  | nil => rfl
  | cons c l ih =>
    rw [List.flatMap_cons, List.foldlM_append, List.foldlM_cons]
    exact bind_congr fun b => ih b

/-- What every step adds to what a state holds, a fold adds for the whole list. -/
theorem foldlM_holds
    (hholds : ∀ done a b b', Holds done b → f b a = .ok b' → Holds (done ++ [a]) b')
    {done rest : List α} {b b' : β} (hb : Holds done b) (h : rest.foldlM f b = .ok b') :
    Holds (done ++ rest) b' := by
  induction rest generalizing done b with
  | nil =>
    cases h
    rw [List.append_nil]
    exact hb
  | cons a rest ih =>
    obtain ⟨c, hc, hrest⟩ := foldlM_cons_eq_ok.mp h
    rw [List.append_cons]
    exact ih (hholds done a b c hb hc) hrest

/-- Where a step takes exactly the good elements with a new key, a fold takes exactly the lists of
good elements with distinct new keys. -/
theorem foldlM_accepts
    (hholds : ∀ done a b b', Holds done b → f b a = .ok b' → Holds (done ++ [a]) b')
    (haccepts : ∀ done a b, Holds done b →
      ((∃ b', f b a = .ok b') ↔ Good a ∧ key a ∉ done.map key))
    {done rest : List α} {b : β} (hb : Holds done b) :
    (∃ b', rest.foldlM f b = .ok b') ↔
      (∀ a ∈ rest, Good a) ∧ (rest.map key).Nodup ∧ ∀ a ∈ rest, key a ∉ done.map key := by
  induction rest generalizing done b with
  | nil => simp [pure, Except.pure]
  | cons a rest ih =>
    simp only [foldlM_cons_eq_ok, List.map_cons, List.nodup_cons, List.forall_mem_cons]
    constructor
    · rintro ⟨b', c, hc, hrest⟩
      obtain ⟨hgood, hnew⟩ := (haccepts done a b hb).mp ⟨c, hc⟩
      obtain ⟨hgoods, hnodup, hnews⟩ := (ih (hholds done a b c hb hc)).mp ⟨b', hrest⟩
      simp only [List.map_append, List.map_cons, List.map_nil, List.mem_append,
        List.mem_singleton, not_or] at hnews
      refine ⟨⟨hgood, hgoods⟩, ⟨?_, hnodup⟩, hnew, fun x hx => (hnews x hx).1⟩
      intro hmem
      obtain ⟨x, hx, hkey⟩ := List.mem_map.mp hmem
      exact (hnews x hx).2 hkey
    · rintro ⟨⟨hgood, hgoods⟩, ⟨hfresh, hnodup⟩, hnew, hnews⟩
      obtain ⟨c, hc⟩ := (haccepts done a b hb).mpr ⟨hgood, hnew⟩
      have hdistinct : ∀ x ∈ rest, key x ∉ (done ++ [a]).map key := by
        intro x hx hmem
        rw [List.map_append, List.mem_append] at hmem
        rcases hmem with hmem | hmem
        · exact hnews x hx hmem
        · exact hfresh (List.mem_map.mpr ⟨x, hx, by simpa using hmem⟩)
      obtain ⟨b', hrest⟩ := (ih (hholds done a b c hb hc)).mpr ⟨hgoods, hnodup, hdistinct⟩
      exact ⟨b', c, hc, hrest⟩

end Fold

/-- A traversal in which every step succeeds is a map. -/
theorem mapM_of_some {α : Type u} {β : Type v} {f : α → Option β} {g : α → β} {l : List α}
    (h : ∀ a ∈ l, f a = some (g a)) : l.mapM f = some (l.map g) := by
  induction l with
  | nil => rfl
  | cons a l ih =>
    have hrest := ih fun b hb => h b (List.mem_cons_of_mem _ hb)
    rw [List.mapM_cons, h a List.mem_cons_self, hrest]
    rfl

/-- An element of a list with distinct keys is what a search for its key finds. -/
theorem find?_key_eq_some {α : Type} {key : α → String} {l : List α} (hl : (l.map key).Nodup)
    {k : String} {a : α} : l.find? (fun x => key x = k) = some a ↔ a ∈ l ∧ key a = k := by
  constructor
  · intro h
    exact ⟨List.mem_of_find?_eq_some h, by simpa using List.find?_some h⟩
  · rintro ⟨ha, rfl⟩
    cases h : l.find? (fun x => key x = key a) with
    | none =>
      have hne := List.find?_eq_none.mp h a ha
      simp at hne
    | some b =>
      have hb : b ∈ l := List.mem_of_find?_eq_some h
      have hkey : key b = key a := by simpa using List.find?_some h
      rw [List.inj_on_of_nodup_map hl hb ha hkey]

section Matched
variable {α : Type u} {β : Type v} {γ : Type w} {R : α → β → Prop} {l : List α} {l' : List β}

theorem exists_mem_of_forall₂ (h : List.Forall₂ R l l') {a : α} (ha : a ∈ l) :
    ∃ b ∈ l', R a b := by
  induction h with
  | nil => cases ha
  | @cons x y xs ys hxy _ ih =>
    rcases List.mem_cons.mp ha with rfl | ha
    · exact ⟨y, List.mem_cons_self, hxy⟩
    · obtain ⟨b, hb, hab⟩ := ih ha
      exact ⟨b, List.mem_cons_of_mem _ hb, hab⟩

theorem map_eq_of_forall₂ {f : α → γ} {g : β → γ} (hkey : ∀ a b, R a b → f a = g b)
    (h : List.Forall₂ R l l') : l.map f = l'.map g := by
  rw [← List.forall₂_eq_eq_eq, List.forall₂_map_left_iff, List.forall₂_map_right_iff]
  exact h.imp hkey

/-- Searches whose tests agree find partners or nothing. -/
theorem find?_forall₂ {p : α → Bool} {q : β → Bool} (htest : ∀ a b, R a b → p a = q b)
    (h : List.Forall₂ R l l') : Option.Rel R (l.find? p) (l'.find? q) := by
  induction h with
  | nil => exact .none
  | @cons a b as bs hab _ ih =>
    rw [List.find?_cons, List.find?_cons, htest a b hab]
    cases q b with
    | true => exact .some hab
    | false => exact ih

end Matched

namespace SortedMap
variable {α : Type u} {β : Type v} {key : α → String} {Stands : α → β → Prop}

/-- A map has at each key what the elements of a list with that key stand for. -/
def Indexes (key : α → String) (Stands : α → β → Prop) (l : List α) (m : SortedMap β) : Prop :=
  ∀ k v, m.get? k = some v ↔ ∃ a ∈ l, key a = k ∧ Stands a v

theorem indexes_empty : Indexes key Stands [] (.empty : SortedMap β) := by
  intro k v
  simp [get?, empty, lookup]

theorem Indexes.get?_eq_none {l : List α} {m : SortedMap β} (h : Indexes key Stands l m)
    {k : String} : m.get? k = none ↔ ∀ a ∈ l, key a = k → ∀ v, ¬ Stands a v := by
  rw [Option.eq_none_iff_forall_ne_some]
  constructor
  · intro hnone a ha hkey v hv
    exact hnone v ((h k v).mpr ⟨a, ha, hkey, hv⟩)
  · intro hno v hv
    obtain ⟨a, ha, hkey, hstands⟩ := (h k v).mp hv
    exact hno a ha hkey v hstands

/-- An element with a new key is added by an insertion. -/
theorem Indexes.insert {l : List α} {m : SortedMap β} (h : Indexes key Stands l m) {a : α} {v : β}
    (hnew : key a ∉ l.map key) (hv : ∀ w, Stands a w ↔ w = v) :
    Indexes key Stands (l ++ [a]) (m.insert (key a) v) := by
  intro k w
  rw [get?_insert]
  simp only [List.mem_append, List.mem_singleton]
  split
  · next hk =>
    subst hk
    constructor
    · intro hw
      exact ⟨a, Or.inr rfl, rfl, (hv w).mpr (Option.some.inj hw).symm⟩
    · rintro ⟨b, hb | rfl, hkey, hstands⟩
      · exact absurd (List.mem_map.mpr ⟨b, hb, hkey⟩) hnew
      · rw [(hv w).mp hstands]
  · next hk =>
    rw [h k w]
    constructor
    · rintro ⟨b, hb, hrest⟩
      exact ⟨b, Or.inl hb, hrest⟩
    · rintro ⟨b, hb | rfl, hkey, hstands⟩
      · exact ⟨b, hb, hkey, hstands⟩
      · exact absurd hkey.symm hk

/-- An element that stands for nothing is added by leaving the map as it is. -/
theorem Indexes.skip {l : List α} {m : SortedMap β} (h : Indexes key Stands l m) {a : α}
    (hno : ∀ v, ¬ Stands a v) : Indexes key Stands (l ++ [a]) m := by
  intro k v
  rw [h k v]
  simp only [List.mem_append, List.mem_singleton]
  constructor
  · rintro ⟨b, hb, hrest⟩
    exact ⟨b, Or.inl hb, hrest⟩
  · rintro ⟨b, hb | rfl, hkey, hstands⟩
    · exact ⟨b, hb, hkey, hstands⟩
    · exact absurd hstands (hno v)

/-- The order in which a list is filed leaves no trace. -/
theorem Indexes.perm {l l' : List α} {m m' : SortedMap β} (h : Indexes key Stands l m)
    (h' : Indexes key Stands l' m') (hl : l.Perm l') : m = m' := by
  apply ext_get?
  intro k
  apply Option.ext
  intro v
  rw [h k v, h' k v]
  simp only [hl.mem_iff]

/-- The keys of a map are those of the elements that stand for something. -/
theorem Indexes.keys_perm {l : List α} {m : SortedMap β} (h : Indexes key Stands l m)
    (hl : (l.map key).Nodup) {p : α → Bool} (hp : ∀ a ∈ l, (∃ v, Stands a v) ↔ p a = true) :
    m.keys.Perm ((l.filter p).map key) := by
  have hnodup : ((l.filter p).map key).Nodup := hl.sublist (List.filter_sublist.map key)
  rw [List.perm_ext_iff_of_nodup (nodup_keys m) hnodup]
  intro k
  rw [mem_keys_iff, List.mem_map]
  constructor
  · rintro ⟨v, hv⟩
    obtain ⟨a, ha, hkey, hstands⟩ := (h k v).mp hv
    exact ⟨a, List.mem_filter.mpr ⟨ha, (hp a ha).mp ⟨v, hstands⟩⟩, hkey⟩
  · rintro ⟨a, ha, hkey⟩
    obtain ⟨hmem, hpa⟩ := List.mem_filter.mp ha
    obtain ⟨v, hv⟩ := (hp a hmem).mpr hpa
    exact ⟨v, (h k v).mpr ⟨a, hmem, hkey, hv⟩⟩

/-- Two maps have the same keys, with related values. -/
structure Matches (R : β → β → Prop) (m m' : SortedMap β) : Prop where
  forth : ∀ key v, m.get? key = some v → ∃ v', m'.get? key = some v' ∧ R v v'
  back : ∀ key v', m'.get? key = some v' → ∃ v, m.get? key = some v ∧ R v v'

namespace Matches
variable {R : β → β → Prop} {m m' : SortedMap β} (h : Matches R m m')
include h

theorem symm (hR : ∀ v v', R v v' → R v' v) : Matches R m' m := by
  constructor
  · intro k v hv
    obtain ⟨v', hv', hrel⟩ := h.back k v hv
    exact ⟨v', hv', hR v' v hrel⟩
  · intro k v hv
    obtain ⟨v', hv', hrel⟩ := h.forth k v hv
    exact ⟨v', hv', hR v v' hrel⟩

theorem get?_eq_none {k : String} (hk : m.get? k = none) : m'.get? k = none := by
  cases hk' : m'.get? k with
  | none => rfl
  | some v' =>
    obtain ⟨v, hv, -⟩ := h.back k v' hk'
    rw [hk] at hv
    cases hv

theorem map_eq {γ : Type w} {f g : String → β → γ}
    (hfg : ∀ k v v', m.get? k = some v → R v v' → f k v = g k v') : m.map f = m'.map g := by
  apply ext_get?
  intro k
  rw [get?_map, get?_map]
  cases hk : m.get? k with
  | none => rw [h.get?_eq_none hk, Option.map_none, Option.map_none]
  | some v =>
    obtain ⟨v', hv', hrel⟩ := h.forth k v hk
    rw [hv', Option.map_some, Option.map_some, hfg k v v' hk hrel]

theorem keys_eq : m.keys = m'.keys := by
  have hsame : (m.map fun _ _ => ()) = m'.map fun _ _ => () := h.map_eq fun _ _ _ _ _ => rfl
  rw [← keys_map (fun _ _ => ()) m, hsame, keys_map]

end Matches

/-- Maps match where partners in two lists stand for related values. -/
theorem Indexes.matches {Stands' : α → β → Prop} {R : β → β → Prop} {P : α → α → Prop}
    {l l' : List α} {m m' : SortedMap β} (h : Indexes key Stands l m)
    (h' : Indexes key Stands' l' m') (hl : List.Forall₂ P l l')
    (hkey : ∀ a a', P a a' → key a = key a')
    (hforth : ∀ a a', P a a' → ∀ v, Stands a v → ∃ v', Stands' a' v' ∧ R v v')
    (hback : ∀ a a', P a a' → ∀ v', Stands' a' v' → ∃ v, Stands a v ∧ R v v') :
    Matches R m m' := by
  constructor
  · intro k v hv
    obtain ⟨a, ha, rfl, hstands⟩ := (h k v).mp hv
    obtain ⟨a', ha', haa'⟩ := exists_mem_of_forall₂ hl ha
    obtain ⟨v', hv', hrel⟩ := hforth a a' haa' v hstands
    exact ⟨v', (h' _ v').mpr ⟨a', ha', (hkey a a' haa').symm, hv'⟩, hrel⟩
  · intro k v' hv'
    obtain ⟨a', ha', rfl, hstands⟩ := (h' k v').mp hv'
    obtain ⟨a, ha, haa'⟩ := exists_mem_of_forall₂ hl.flip ha'
    obtain ⟨v, hv, hrel⟩ := hback a a' haa' v' hstands
    exact ⟨v, (h _ v).mpr ⟨a, ha, hkey a a' haa', hv⟩, hrel⟩

theorem indexes_ofList {f : α → β} {l : List α} (hl : (l.map key).Nodup) :
    Indexes key (fun a v => v = f a) l (ofList (l.map fun a => (key a, f a))) := by
  induction l using List.reverseRecOn with
  | nil => exact indexes_empty
  | append_singleton l a ih =>
    rw [List.map_append, List.nodup_append] at hl
    obtain ⟨hnodup, -, hapart⟩ := hl
    have hnew : key a ∉ l.map key := fun hmem => hapart _ hmem _ (by simp) rfl
    rw [ofList, List.map_append, List.foldl_append]
    exact (ih hnodup).insert hnew fun _ => Iff.rfl

end SortedMap

end AuthSchema
