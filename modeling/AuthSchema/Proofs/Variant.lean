import AuthSchema.Proofs.Subjects
import AuthSchema.Proofs.Walk
import AuthSchema.Resolution.Solve
import Mathlib.Logic.Function.Basic

/-! The tables that resolution of permissions goes through are one table with varying subjects at
its open permissions, those whose subjects follow from their edges. All else about such a table,
its references included, stays the same. -/
namespace AuthSchema.Resolution

/-- The permission of two names. -/
def permission? (t : Table) (m : MemberId) : Option Member :=
  (t.get? m.type).bind fun r => r.permissions.get? m.member

/-- A permission that is to be solved. -/
def IsOpen (t : Table) (m : MemberId) : Prop :=
  ∃ p, permission? t m = some p ∧ followsEdges p = true

/-- Gives subjects to a permission if it is open. -/
def give (subjects : SubjectMap) (p : Member) : Member :=
  if followsEdges p then { p with subjects } else p

/-- Gives subjects to all open permissions. -/
def assign (t : Table) (σ : MemberId → SubjectMap) : Table :=
  t.map fun type r =>
    { r with permissions := r.permissions.map fun name p => give (σ ⟨type, name⟩) p }

/-- Two tables that differ at most in the subjects of their open permissions. -/
def Variant (t t' : Table) : Prop := ∃ σ, t' = assign t σ

theorem followsEdges_iff {m : Member} :
    followsEdges m = true ↔ m.activeOverride = none ∧ m.edges ≠ [] := by
  simp [followsEdges]

theorem permission?_iff {t : Table} {m : MemberId} {p : Member} : permission? t m = some p ↔
    ∃ r, t.get? m.type = some r ∧ r.permissions.get? m.member = some p :=
  Option.bind_eq_some_iff

theorem mem_openPermissions {t : Table} {m : MemberId} {edges : List Edge} :
    (m, edges) ∈ openPermissions t ↔
      ∃ p, permission? t m = some p ∧ followsEdges p = true ∧ p.edges = edges := by
  rw [openPermissions, List.mem_flatMap]
  constructor
  · rintro ⟨⟨type, r⟩, hr, hm⟩
    obtain ⟨⟨name, p⟩, hp, he⟩ := List.mem_map.mp hm
    obtain ⟨hmem, hfollows⟩ := List.mem_filter.mp hp
    cases he
    exact ⟨p, permission?_iff.mpr ⟨r, SortedMap.mem_entries_iff.mp hr,
      SortedMap.mem_entries_iff.mp hmem⟩, hfollows, rfl⟩
  · rintro ⟨p, hp, hfollows, rfl⟩
    obtain ⟨r, hr, hget⟩ := permission?_iff.mp hp
    refine ⟨(m.type, r), SortedMap.mem_entries_iff.mpr hr, ?_⟩
    refine List.mem_map.mpr ⟨(m.member, p), ?_, rfl⟩
    exact List.mem_filter.mpr ⟨SortedMap.mem_entries_iff.mpr hget, hfollows⟩

theorem isOpen_iff {t : Table} {m : MemberId} :
    IsOpen t m ↔ ∃ edges, (m, edges) ∈ openPermissions t := by
  simp only [mem_openPermissions]
  constructor
  · rintro ⟨p, hp, hfollows⟩
    exact ⟨p.edges, p, hp, hfollows, rfl⟩
  · rintro ⟨edges, p, hp, hfollows, -⟩
    exact ⟨p, hp, hfollows⟩

theorem subjectsAt_of_permission? {t : Table} {m : MemberId} {p : Member}
    (h : permission? t m = some p) : subjectsAt t m = p.subjects := by
  change ((permission? t m).map Member.subjects).getD .empty = p.subjects
  rw [h]
  rfl

@[simp] private theorem followsEdges_give (subjects : SubjectMap) (p : Member) :
    followsEdges (give subjects p) = followsEdges p := by
  rw [give]
  split <;> rfl

private theorem give_of_follows {p : Member} (h : followsEdges p = true) (subjects : SubjectMap) :
    give subjects p = { p with subjects } := if_pos h

private theorem give_of_not_follows {p : Member} (h : followsEdges p = false)
    (subjects : SubjectMap) : give subjects p = p := if_neg (by simp [h])

@[simp] private theorem give_give (subjects subjects' : SubjectMap) (p : Member) :
    give subjects' (give subjects p) = give subjects' p := by
  cases h : followsEdges p with
  | true =>
    rw [give_of_follows h, give_of_follows h]
    exact give_of_follows (p := { p with subjects }) h subjects'
  | false => rw [give_of_not_follows h]

@[simp] private theorem give_subjects (p : Member) : give p.subjects p = p := by
  rw [give]
  split <;> rfl

@[simp] private theorem edges_give (subjects : SubjectMap) (p : Member) :
    (give subjects p).edges = p.edges := by
  rw [give]
  split <;> rfl

theorem outgoing_of_relation {p : Member} (hk : p.kind = .relation) (hf : followsEdges p = true) :
    outgoing p = p.edges.map fun e => (e.type, e.subject) := by simp [outgoing, hk, hf]

theorem outgoing_of_not_relation {p : Member} (hk : p.kind ≠ .relation) :
    outgoing p = p.subjects.entries := by simp [outgoing, hk]

/-- Giving subjects matters to the references of an open permission only, and not even to these
if it is filed as a relation, which has its edges. -/
theorem outgoing_give (subjects : SubjectMap) (p : Member) :
    outgoing (give subjects p) = outgoing p ∨ (followsEdges p = true ∧
      outgoing p = p.subjects.entries ∧
      outgoing (give subjects p) = subjects.entries) := by
  cases hf : followsEdges p with
  | false => exact Or.inl (by rw [give_of_not_follows hf])
  | true =>
    rw [give_of_follows hf]
    by_cases hk : p.kind = .relation
    · left
      rw [outgoing_of_relation hk hf]
      exact outgoing_of_relation (p := { p with subjects }) hk hf
    · right
      exact ⟨rfl, outgoing_of_not_relation hk,
        outgoing_of_not_relation (p := { p with subjects }) hk⟩

private theorem permission?_assign (t : Table) (σ : MemberId → SubjectMap) (m : MemberId) :
    permission? (assign t σ) m = (permission? t m).map (give (σ m)) := by
  rw [permission?, permission?, assign, SortedMap.get?_map]
  cases t.get? m.type with
  | none => rfl
  | some r => exact SortedMap.get?_map _ _ _

theorem isOpen_assign {t : Table} {σ : MemberId → SubjectMap} {m : MemberId} :
    IsOpen (assign t σ) m ↔ IsOpen t m := by
  simp [IsOpen, permission?_assign]

theorem subjectsAt_assign {t : Table} {m : MemberId} (h : IsOpen t m) (σ : MemberId → SubjectMap) :
    subjectsAt (assign t σ) m = σ m := by
  obtain ⟨p, hp, hfollows⟩ := h
  have hassigned : permission? (assign t σ) m = some (give (σ m) p) := by
    rw [permission?_assign, hp, Option.map_some]
  rw [subjectsAt_of_permission? hassigned, give_of_follows hfollows]

theorem subjectsAt_assign_of_not_isOpen {t : Table} {m : MemberId} (h : ¬ IsOpen t m)
    (σ : MemberId → SubjectMap) : subjectsAt (assign t σ) m = subjectsAt t m := by
  change ((permission? (assign t σ) m).map Member.subjects).getD .empty =
    ((permission? t m).map Member.subjects).getD .empty
  rw [permission?_assign]
  cases hp : permission? t m with
  | none => rfl
  | some p =>
    have hfollows : followsEdges p = false := Bool.eq_false_iff.mpr fun hf => h ⟨p, hp, hf⟩
    rw [Option.map_some, give_of_not_follows hfollows]

/-- Assignments that agree on the open permissions give the same table. -/
theorem assign_congr {t : Table} {σ σ' : MemberId → SubjectMap}
    (h : ∀ m, IsOpen t m → σ m = σ' m) : assign t σ = assign t σ' := by
  refine SortedMap.map_congr fun type r hr => ?_
  have hps : (r.permissions.map fun name p => give (σ ⟨type, name⟩) p) =
      r.permissions.map fun name p => give (σ' ⟨type, name⟩) p := by
    refine SortedMap.map_congr fun name p hp => ?_
    cases hf : followsEdges p with
    | true => rw [h ⟨type, name⟩ ⟨p, permission?_iff.mpr ⟨r, hr, hp⟩, hf⟩]
    | false => rw [give_of_not_follows hf, give_of_not_follows hf]
  rw [hps]

theorem assign_assign (t : Table) (σ σ' : MemberId → SubjectMap) :
    assign (assign t σ) σ' = assign t σ' := by
  rw [assign, assign, assign, SortedMap.map_map]
  refine SortedMap.map_congr fun type r _ => ?_
  simp only [SortedMap.map_map, give_give]

private theorem give_present {t : Table} {type name : String} {r : Resource} {p : Member}
    (hr : t.get? type = some r) (hp : r.permissions.get? name = some p) :
    give (subjectsAt t ⟨type, name⟩) p = p := by
  rw [subjectsAt_of_permission? (permission?_iff.mpr ⟨r, hr, hp⟩), give_subjects]

theorem assign_subjectsAt (t : Table) : assign t (subjectsAt t) = t := by
  refine SortedMap.map_eq_self fun type r hr => ?_
  rw [SortedMap.map_eq_self fun name p hp => give_present hr hp]

theorem openPermissions_assign (t : Table) (σ : MemberId → SubjectMap) :
    openPermissions (assign t σ) = openPermissions t := by
  simp only [openPermissions, assign, SortedMap.map, List.flatMap_map, List.filter_map,
    List.map_map, Function.comp_def, followsEdges_give, edges_give]

private theorem memberIds_assign (t : Table) (σ : MemberId → SubjectMap) :
    memberIds (assign t σ) = memberIds t := by
  simp only [memberIds, assign, SortedMap.map, SortedMap.keys, List.flatMap_map, List.map_map,
    Function.comp_def]

/-- Setting the subjects of an open permission is an assignment. -/
theorem setSubjects_eq {t : Table} {m : MemberId} (h : IsOpen t m) (subjects : SubjectMap) :
    setSubjects t m subjects = assign t (Function.update (subjectsAt t) m subjects) := by
  obtain ⟨p₀, hp₀, hfollows⟩ := h
  rw [setSubjects, SortedMap.modify, assign]
  refine SortedMap.map_congr fun type r hr => ?_
  by_cases htype : type = m.type
  · subst htype
    rw [if_pos rfl, SortedMap.modify]
    congr 1
    refine SortedMap.map_congr fun name p hp => ?_
    by_cases hname : name = m.member
    · subst hname
      obtain rfl : p = p₀ :=
        Option.some.inj ((permission?_iff.mpr ⟨r, hr, hp⟩).symm.trans hp₀)
      rw [if_pos rfl, Function.update_self, give_of_follows hfollows]
    · have hne : (⟨m.type, name⟩ : MemberId) ≠ m := fun he => hname (congrArg MemberId.member he)
      rw [if_neg hname, Function.update_of_ne hne, give_present hr hp]
  · rw [if_neg htype]
    have hps : (r.permissions.map fun name p =>
        give (Function.update (subjectsAt t) m subjects ⟨type, name⟩) p) = r.permissions := by
      refine SortedMap.map_eq_self fun name p hp => ?_
      have hne : (⟨type, name⟩ : MemberId) ≠ m := fun he => htype (congrArg MemberId.type he)
      rw [Function.update_of_ne hne, give_present hr hp]
    rw [hps]

namespace Variant

theorem refl (t : Table) : Variant t t := ⟨subjectsAt t, (assign_subjectsAt t).symm⟩

theorem symm {t t' : Table} (h : Variant t t') : Variant t' t := by
  obtain ⟨σ, rfl⟩ := h
  exact ⟨subjectsAt t, by rw [assign_assign, assign_subjectsAt]⟩

theorem trans {t t' t'' : Table} (h : Variant t t') (h' : Variant t' t'') : Variant t t'' := by
  obtain ⟨σ, rfl⟩ := h
  obtain ⟨σ', rfl⟩ := h'
  exact ⟨σ', assign_assign t σ σ'⟩

theorem openPermissions_eq {t t' : Table} (h : Variant t t') :
    openPermissions t' = openPermissions t := by
  obtain ⟨σ, rfl⟩ := h
  exact openPermissions_assign t σ

theorem isOpen_iff {t t' : Table} (h : Variant t t') {m : MemberId} :
    IsOpen t' m ↔ IsOpen t m := by
  obtain ⟨σ, rfl⟩ := h
  exact isOpen_assign

theorem subjectsAt_eq {t t' : Table} (h : Variant t t') {m : MemberId} (hm : ¬ IsOpen t m) :
    subjectsAt t' m = subjectsAt t m := by
  obtain ⟨σ, rfl⟩ := h
  exact subjectsAt_assign_of_not_isOpen hm σ

/-- Variants with the same subjects at the open permissions are the same table. -/
theorem ext {t t' : Table} (h : Variant t t')
    (hs : ∀ m, IsOpen t m → subjectsAt t' m = subjectsAt t m) : t' = t := by
  obtain ⟨σ, rfl⟩ := h
  calc assign t σ = assign t (subjectsAt t) :=
        assign_congr fun m hm => by rw [← hs m hm, subjectsAt_assign hm]
    _ = t := assign_subjectsAt t

theorem memberIds_eq {t t' : Table} (h : Variant t t') : memberIds t' = memberIds t := by
  obtain ⟨σ, rfl⟩ := h
  exact memberIds_assign t σ

theorem contains_eq {t t' : Table} (h : Variant t t') (type : String) :
    t'.contains type = t.contains type := by
  obtain ⟨σ, rfl⟩ := h
  rw [SortedMap.contains, SortedMap.contains, assign, SortedMap.get?_map, Option.isSome_map]

/-- Only a member that is found as an open permission has references that vary, and these are its
subjects: a relation that follows its edges has the edges themselves. -/
theorem references_eq {t t' : Table} (h : Variant t t') (m : MemberId) :
    references t' m = references t m ∨ (IsOpen t m ∧
      references t m = .ok (subjectsAt t m).entries ∧
      references t' m = .ok (subjectsAt t' m).entries) := by
  obtain ⟨σ, rfl⟩ := h
  have hget : (assign t σ).get? m.type = (t.get? m.type).map fun r =>
      { r with permissions := r.permissions.map fun name p => give (σ ⟨m.type, name⟩) p } :=
    SortedMap.get?_map _ _ _
  rw [references, references, find, find, hget]
  cases hr : t.get? m.type with
  | none => exact Or.inl rfl
  | some r =>
    simp only [Option.map_some, Resource.member?, SortedMap.get?_map]
    cases hrel : r.relations.get? m.member with
    | some rel => exact Or.inl rfl
    | none =>
      cases hp : r.permissions.get? m.member with
      | none => exact Or.inl rfl
      | some p =>
        have hperm : permission? t m = some p := permission?_iff.mpr ⟨r, hr, hp⟩
        rcases outgoing_give (σ m) p with hsame | ⟨hf, hout, hout'⟩
        · exact Or.inl (congrArg Except.ok hsame)
        · have ho : IsOpen t m := ⟨p, hperm, hf⟩
          rw [subjectsAt_assign ho, subjectsAt_of_permission? hperm]
          exact Or.inr ⟨ho, congrArg Except.ok hout, congrArg Except.ok hout'⟩

end Variant

end AuthSchema.Resolution
