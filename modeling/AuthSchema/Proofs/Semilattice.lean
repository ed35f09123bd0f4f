import AuthSchema.Proofs.Collected

/-! Allowed-subject maps as a join semilattice. A map grows by single subjects, by other maps and by
collected lists; whatever the steps and their order, it ends with the least of all that was there
and all that has been added, so merging is a join. A step reports a change just when there is one,
since nothing that grows comes back to what it was. -/
namespace AuthSchema

namespace SubjectRelation

/-- The object itself comes before every userset, and usersets stand in the order of their
relations. -/
inductive Precedes : SubjectRelation → SubjectRelation → Prop
  | itself (s : SubjectRelation) : Precedes .itself s
  | userset {a b : String} (h : a ≤ b) : Precedes (.userset a) (.userset b)

theorem precedes_iff {a b : SubjectRelation} : a.Precedes b ↔ ¬ b.supersedes a := by
  constructor
  · intro h
    cases h with
    | itself => cases b <;> simp [supersedes]
    | userset h => simpa only [supersedes, decide_eq_true_eq, String.not_lt] using h
  · intro h
    cases a with
    | itself => exact .itself b
    | userset x =>
      cases b with
      | itself => simp [supersedes] at h
      | userset y =>
        rw [supersedes, decide_eq_true_eq, String.not_lt] at h
        exact .userset h

theorem Precedes.refl (a : SubjectRelation) : a.Precedes a := precedes_iff.mpr a.not_supersedes_self

theorem Precedes.trans {a b c : SubjectRelation} (hab : a.Precedes b) (hbc : b.Precedes c) :
    a.Precedes c :=
  precedes_iff.mpr (not_supersedes_trans (precedes_iff.mp hbc) (precedes_iff.mp hab))

theorem Precedes.antisymm {a b : SubjectRelation} (hab : a.Precedes b) (hba : b.Precedes a) :
    a = b :=
  eq_of_not_supersedes (precedes_iff.mp hba) (precedes_iff.mp hab)

/-- A subject is offered, and none that comes before it is. -/
def Least (Offered : SubjectRelation → Prop) (s : SubjectRelation) : Prop :=
  Offered s ∧ ∀ other, Offered other → s.Precedes other

/-- Offers do not matter for which something at least as good stays on offer. -/
theorem least_iff_of_fewer {Offered Fewer : SubjectRelation → Prop}
    (hfewer : ∀ s, Fewer s → Offered s)
    (hbetter : ∀ s, Offered s → ∃ other, Fewer other ∧ other.Precedes s) {s : SubjectRelation} :
    Least Fewer s ↔ Least Offered s := by
  constructor
  · rintro ⟨hs, hleast⟩
    refine ⟨hfewer s hs, fun other hother => ?_⟩
    obtain ⟨better, hmem, hprecedes⟩ := hbetter other hother
    exact (hleast better hmem).trans hprecedes
  · rintro ⟨hs, hleast⟩
    obtain ⟨better, hmem, hprecedes⟩ := hbetter s hs
    obtain rfl : s = better := (hleast better (hfewer better hmem)).antisymm hprecedes
    exact ⟨hmem, fun other hother => hleast other (hfewer other hother)⟩

end SubjectRelation

open SubjectRelation (Precedes Least)

namespace SubjectMap

/-- A grown map has at each type the least of what stood there and what has been added. -/
theorem get?_growAll_iff_least {m : SubjectMap} {l : List (String × SubjectRelation)} {k : String}
    {v : SubjectRelation} :
    (m.growAll l).1.get? k = some v ↔ Least (fun s => m.get? k = some s ∨ (k, s) ∈ l) v := by
  simp only [get?_growAll_eq_some, Least, SubjectRelation.precedes_iff]

private theorem mem_keys_growAll {m : SubjectMap} {l : List (String × SubjectRelation)}
    {k : String} : k ∈ (m.growAll l).1.keys ↔ k ∈ m.keys ∨ k ∈ l.map Prod.fst := by
  constructor
  · intro h
    obtain ⟨v, hv⟩ := SortedMap.mem_keys_iff.mp h
    rcases eq_or_mem_of_get?_growAll hv with hv | hv
    · exact Or.inl (SortedMap.mem_keys_of_get? hv)
    · exact Or.inr (List.mem_map.mpr ⟨_, hv, rfl⟩)
  · intro h
    have hoffer : ∃ v, m.get? k = some v ∨ (k, v) ∈ l := by
      rcases h with h | h
      · obtain ⟨v, hv⟩ := SortedMap.mem_keys_iff.mp h
        exact ⟨v, Or.inl hv⟩
      · obtain ⟨⟨k, v⟩, hv, rfl⟩ := List.mem_map.mp h
        exact ⟨v, Or.inr hv⟩
    obtain ⟨v, hv⟩ := hoffer
    obtain ⟨w, hw, -⟩ := exists_get?_growAll hv
    exact SortedMap.mem_keys_of_get? hw

private theorem growAll_append (m : SubjectMap) (l l' : List (String × SubjectRelation)) :
    (m.growAll (l ++ l')).1 = ((m.growAll l).1.growAll l').1 := by
  rw [growAll_fst, growAll_fst, growAll_fst, List.foldl_append]

/-- What has been added may be added again, in any order. -/
theorem growAll_congr (m : SubjectMap) {l l' : List (String × SubjectRelation)}
    (h : ∀ e, e ∈ l ↔ e ∈ l') : (m.growAll l).1 = (m.growAll l').1 := by
  apply SortedMap.ext_get?
  intro k
  apply Option.ext
  intro v
  rw [get?_growAll_eq_some, get?_growAll_eq_some]
  simp only [h]

/-- Collecting a list first makes no difference to the map that it is added to. -/
theorem merge_collect (m : SubjectMap) (l : List (String × SubjectRelation)) :
    (m.merge (collect l)).1 = (m.growAll l).1 := by
  apply SortedMap.ext_get?
  intro k
  apply Option.ext
  intro v
  rw [merge, get?_growAll_iff_least, get?_growAll_iff_least]
  apply SubjectRelation.least_iff_of_fewer
  · rintro s (hs | hs)
    · exact Or.inl hs
    · exact Or.inr (mem_of_mem_collect hs)
  · rintro s (hs | hs)
    · exact ⟨s, Or.inl hs, .refl s⟩
    · obtain ⟨w, hw, hprecedes⟩ := exists_get?_growAll (m := .empty) (Or.inr hs)
      exact ⟨w, Or.inr (SortedMap.mem_entries_iff.mpr hw),
        SubjectRelation.precedes_iff.mpr hprecedes⟩

theorem collect_append (l l' : List (String × SubjectRelation)) :
    collect (l ++ l') = ((collect l).merge (collect l')).1 := by
  rw [merge_collect, collect, collect, growAll_append]

/-- A map is what its entries collect to. -/
theorem collect_entries (m : SubjectMap) : collect m.entries = m := by
  apply SortedMap.ext_get?
  intro k
  apply Option.ext
  intro v
  rw [collect, get?_growAll_iff_least, ← SortedMap.mem_entries_iff]
  constructor
  · rintro ⟨hempty | hv, -⟩
    · cases hempty
    · exact hv
  · intro hv
    refine ⟨Or.inr hv, ?_⟩
    rintro other (hempty | hother)
    · cases hempty
    · rw [SortedMap.mem_entries_iff] at hv hother
      obtain rfl : v = other := Option.some.inj (hv.symm.trans hother)
      exact .refl v

private theorem merge_eq_collect (a b : SubjectMap) :
    (a.merge b).1 = collect (a.entries ++ b.entries) := by
  rw [collect_append, collect_entries, collect_entries]

private theorem merge_comm (a b : SubjectMap) : (a.merge b).1 = (b.merge a).1 := by
  rw [merge_eq_collect, merge_eq_collect]
  exact collect_congr fun e => by rw [List.mem_append, List.mem_append, or_comm]

private theorem merge_assoc (a b c : SubjectMap) :
    ((a.merge b).1.merge c).1 = (a.merge (b.merge c).1).1 := by
  rw [merge_eq_collect b c, merge_collect, growAll_append]
  rfl

private theorem merge_self (a : SubjectMap) : (a.merge a).1 = a := by
  rw [merge_eq_collect]
  conv_rhs => rw [← collect_entries a]
  exact collect_congr fun e => by rw [List.mem_append, or_self]

/-- A map allows all that another one allows, or something that comes before it. -/
def Grown (m m' : SubjectMap) : Prop :=
  ∀ k v, m.get? k = some v → ∃ w, m'.get? k = some w ∧ w.Precedes v

theorem Grown.antisymm {a b : SubjectMap} (hab : a.Grown b) (hba : b.Grown a) : a = b := by
  have half : ∀ {a b : SubjectMap}, a.Grown b → b.Grown a → ∀ k v, a.get? k = some v →
      b.get? k = some v := by
    intro a b hab hba k v hv
    obtain ⟨w, hw, hwv⟩ := hab k v hv
    obtain ⟨x, hx, hxw⟩ := hba k w hw
    obtain rfl : v = x := Option.some.inj (hv.symm.trans hx)
    rw [hw, hwv.antisymm hxw]
  apply SortedMap.ext_get?
  intro k
  apply Option.ext
  intro v
  exact ⟨half hab hba k v, half hba hab k v⟩

private theorem grown_growAll (m : SubjectMap) (l : List (String × SubjectRelation)) :
    m.Grown (m.growAll l).1 := by
  intro k v hv
  obtain ⟨w, hw, hprecedes⟩ := exists_get?_growAll (l := l) (Or.inl hv)
  exact ⟨w, hw, SubjectRelation.precedes_iff.mpr hprecedes⟩

private theorem growAll_singleton (m : SubjectMap) (type : String) (subject : SubjectRelation) :
    (m.growAll [(type, subject)]).1 = (m.grow type subject).1 := growAll_cons m (type, subject) []

/-- Adding a subject reports a change just when there is one. -/
theorem grow_changed_iff (m : SubjectMap) (type : String) (subject : SubjectRelation) :
    (m.grow type subject).2 = true ↔ (m.grow type subject).1 ≠ m := by
  have hinsert : m.get? type ≠ some subject → m.insert type subject ≠ m := by
    intro hne heq
    rw [← heq, SortedMap.get?_insert, if_pos rfl] at hne
    exact hne rfl
  rw [grow]
  split
  · next hnone => simpa using hinsert (by simp [hnone])
  · next present hpresent =>
    cases hs : subject.supersedes present with
    | false => simp
    | true =>
      have hne : m.get? type ≠ some subject := by
        rw [hpresent, ne_eq, Option.some.injEq]
        rintro rfl
        exact present.not_supersedes_self hs
      simpa using hinsert hne

/-- A change that has been noticed stays noticed. -/
theorem foldl_growing_flag (l : List (String × SubjectRelation)) (m : SubjectMap)
    (before now : Bool) :
    (l.foldl growing (m, before || now)).2 = (before || (l.foldl growing (m, now)).2) := by
  induction l generalizing m now with
  | nil => rfl
  | cons e rest ih => simp only [List.foldl_cons, growing, Bool.or_assoc, ih]

private theorem growAll_snd_cons (m : SubjectMap) (e : String × SubjectRelation)
    (rest : List (String × SubjectRelation)) :
    (m.growAll (e :: rest)).2 = ((m.grow e.1 e.2).2 || ((m.grow e.1 e.2).1.growAll rest).2) := by
  simp only [growAll_eq_foldl, List.foldl_cons, growing, Bool.false_or]
  rw [← foldl_growing_flag, Bool.or_false]

/-- Adding a list of subjects reports a change just when there is one in the end. -/
theorem growAll_changed_iff (m : SubjectMap) (l : List (String × SubjectRelation)) :
    (m.growAll l).2 = true ↔ (m.growAll l).1 ≠ m := by
  induction l generalizing m with
  | nil => simp [growAll]
  | cons e rest ih =>
    rw [growAll_snd_cons, growAll_cons, Bool.or_eq_true, grow_changed_iff, ih]
    constructor
    · intro hchanged hsame
      have hfirst : m.Grown (m.grow e.1 e.2).1 := growAll_singleton m e.1 e.2 ▸ grown_growAll m [e]
      have hrest : (m.grow e.1 e.2).1.Grown m := by
        have hgrown := grown_growAll (m.grow e.1 e.2).1 rest
        rwa [hsame] at hgrown
      have hback : (m.grow e.1 e.2).1 = m := hrest.antisymm hfirst
      rcases hchanged with hchanged | hchanged
      · exact hchanged hback
      · exact hchanged (hsame.trans hback.symm)
    · intro hchanged
      by_contra hsame
      rw [not_or, not_not, not_not] at hsame
      exact hchanged (hsame.2.trans hsame.1)

/-- A step by which a map grows. -/
inductive Growth where
  /-- One more subject. -/
  | one (type : String) (subject : SubjectRelation)
  /-- All subjects of another map. -/
  | all (other : SubjectMap)
  /-- A list of subjects, collected to a map first. -/
  | collected (subjects : List (String × SubjectRelation))

namespace Growth

/-- The subjects that a step adds. -/
def subjects : Growth → List (String × SubjectRelation)
  | .one type subject => [(type, subject)]
  | .all other => other.entries
  | .collected subjects => subjects

/-- Takes a step, and tells whether the map has changed. -/
def apply (m : SubjectMap) : Growth → SubjectMap × Bool
  | .one type subject => m.grow type subject
  | .all other => m.merge other
  | .collected subjects => m.merge (collect subjects)

private theorem apply_fst (m : SubjectMap) (g : Growth) :
    (g.apply m).1 = (m.growAll g.subjects).1 := by
  cases g with
  | one type subject => exact (growAll_singleton m type subject).symm
  | all other => rfl
  | collected subjects => exact merge_collect m subjects

theorem apply_changed_iff (m : SubjectMap) (g : Growth) :
    (g.apply m).2 = true ↔ (g.apply m).1 ≠ m := by
  cases g with
  | one type subject => exact grow_changed_iff m type subject
  | all other => exact growAll_changed_iff m other.entries
  | collected subjects => exact growAll_changed_iff m (collect subjects).entries

end Growth

/-- The map after a list of steps. -/
def growThrough (m : SubjectMap) (steps : List Growth) : SubjectMap :=
  steps.foldl (fun m g => (g.apply m).1) m

/-- A run of steps adds what its steps add, and nothing else of them shows. -/
theorem growThrough_eq (m : SubjectMap) (steps : List Growth) :
    m.growThrough steps = (m.growAll (steps.flatMap Growth.subjects)).1 := by
  induction steps generalizing m with
  | nil => rfl
  | cons g rest ih =>
    have hstep : m.growThrough (g :: rest) = (g.apply m).1.growThrough rest := rfl
    rw [hstep, ih, Growth.apply_fst, List.flatMap_cons, growAll_append]

/-- Maps of allowed subjects are a join semilattice. A run of steps leaves at each type the least of
what stood there and what has been added, loses no type, and depends on the set of what is added
only; merging is commutative, associative and idempotent; and a step tells truly whether it has
changed the map. -/
theorem growThrough_least :
    (∀ (m : SubjectMap) (steps : List Growth) (k : String) (v : SubjectRelation),
      (m.growThrough steps).get? k = some v ↔
        Least (fun s => m.get? k = some s ∨ ∃ g ∈ steps, (k, s) ∈ g.subjects) v) ∧
    (∀ (m : SubjectMap) (steps : List Growth) (k : String), k ∈ (m.growThrough steps).keys ↔
      k ∈ m.keys ∨ ∃ g ∈ steps, ∃ s, (k, s) ∈ g.subjects) ∧
    (∀ (m : SubjectMap) (steps steps' : List Growth),
      (∀ e, (∃ g ∈ steps, e ∈ g.subjects) ↔ ∃ g ∈ steps', e ∈ g.subjects) →
        m.growThrough steps = m.growThrough steps') ∧
    (∀ (l : List (String × SubjectRelation)) (k : String) (v : SubjectRelation),
      (collect l).get? k = some v ↔ Least (fun s => (k, s) ∈ l) v) ∧
    (∀ a b : SubjectMap, (a.merge b).1 = (b.merge a).1) ∧
    (∀ a b c : SubjectMap, ((a.merge b).1.merge c).1 = (a.merge (b.merge c).1).1) ∧
    (∀ a : SubjectMap, (a.merge a).1 = a) ∧
    ∀ (m : SubjectMap) (g : Growth), (g.apply m).2 = true ↔ (g.apply m).1 ≠ m := by
  refine ⟨?_, ?_, ?_, ?_, merge_comm, merge_assoc, merge_self, Growth.apply_changed_iff⟩
  · intro m steps k v
    rw [growThrough_eq, get?_growAll_iff_least]
    simp only [List.mem_flatMap]
  · intro m steps k
    rw [growThrough_eq, mem_keys_growAll]
    simp only [List.mem_map, List.mem_flatMap, Prod.exists, exists_and_right, exists_eq_right]
    grind
  · intro m steps steps' h
    rw [growThrough_eq, growThrough_eq]
    apply growAll_congr
    simpa only [List.mem_flatMap] using h
  · intro l k v
    have hempty : (SortedMap.empty : SubjectMap).get? k = none := rfl
    rw [collect, get?_growAll_iff_least]
    simp only [hempty, reduceCtorEq, false_or]

/-- Teams by their owners, then by their members together with users. -/
def ownersFirst : List Growth :=
  [.one "team" (.userset "owner"), .collected [("team", .userset "member"), ("user", .itself)]]

/-- The same subjects the other way round, some of them twice. -/
def ownersLast : List Growth :=
  [.one "user" .itself, .all (collect [("user", .itself), ("team", .userset "member")]),
    .one "team" (.userset "owner"), .one "team" (.userset "owner")]

theorem growThrough_least_owners :
    (∀ e, (∃ g ∈ ownersFirst, e ∈ g.subjects) ↔ ∃ g ∈ ownersLast, e ∈ g.subjects) ∧
    wildcard.growThrough ownersFirst = wildcard.growThrough ownersLast ∧
    (wildcard.growThrough ownersFirst).get? "team" = some (.userset "member") := by
  have hteams : (collect [("user", .itself), ("team", .userset "member")]).entries =
      [("team", .userset "member"), ("user", .itself)] := by decide +kernel
  have hsame : ∀ e, (∃ g ∈ ownersFirst, e ∈ g.subjects) ↔ ∃ g ∈ ownersLast, e ∈ g.subjects := by
    intro e
    simp only [ownersFirst, ownersLast, Growth.subjects, hteams, List.mem_cons, List.not_mem_nil,
      exists_eq_or_imp, or_false, exists_eq_left]
    grind
  exact ⟨hsame, growThrough_least.2.2.1 wildcard _ _ hsame, by decide +kernel⟩

end SubjectMap

end AuthSchema
