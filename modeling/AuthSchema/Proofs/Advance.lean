import AuthSchema.Proofs.Reading

/-! Expanding one permission adds to it what its expansion comes upon and touches nothing else. Runs
of such steps, in whatever order, only add; a pass is one of them, and a pass without a change
shows that no further step adds anything. -/
namespace AuthSchema.Resolution
variable {limit : Option Nat}

/-- The table once a permission has been expanded. -/
def extend (limit : Option Nat) (t : Table) (p : MemberId × List Edge) : Table :=
  (advance limit { table := t } p).table

/-- One open permission is expanded. -/
def Extends (limit : Option Nat) (t t' : Table) : Prop :=
  ∃ p ∈ openPermissions t, t' = extend limit t p

/-- Open permissions are expanded one after the other, in any order. -/
abbrev Run (limit : Option Nat) : Table → Table → Prop := Relation.ReflTransGen (Extends limit)

/-- No open permission is missing a subject type that its expansion comes upon. -/
def Settled (limit : Option Nat) (t : Table) : Prop :=
  ∀ p ∈ openPermissions t, ∀ type, .subject type ∈ expand t limit p.1 p.2 → Allows t p.1 type

theorem mem_subjects {findings : List Finding} {type : String} {subject : SubjectRelation} :
    (type, subject) ∈ findings.filterMap Finding.subject? ↔
      subject = .itself ∧ .subject type ∈ findings := by
  rw [List.mem_filterMap]
  constructor
  · rintro ⟨f, hf, he⟩
    cases f with
    | subject type' =>
      cases he
      exact ⟨rfl, hf⟩
    | fault reason trail => cases he
  · rintro ⟨rfl, hf⟩
    exact ⟨_, hf, rfl⟩

private theorem subjects_itself (findings : List Finding) :
    ∀ e ∈ findings.filterMap Finding.subject?, e.2 = .itself :=
  fun _ he => (mem_subjects.mp he).1

/-- The subjects of a permission after its expansion. -/
private def grown (limit : Option Nat) (t : Table) (p : MemberId × List Edge) : SubjectMap :=
  ((subjectsAt t p.1).growAll ((expand t limit p.1 p.2).filterMap Finding.subject?)).1

private theorem get?_grown (t : Table) (p : MemberId × List Edge) (type : String) :
    (grown limit t p).get? type = some .itself ↔
      Allows t p.1 type ∨ .subject type ∈ expand t limit p.1 p.2 := by
  rw [grown, SubjectMap.get?_growAll_itself (subjects_itself _), Allows]
  by_cases h : (type, SubjectRelation.itself) ∈
      (expand t limit p.1 p.2).filterMap Finding.subject?
  · simp [h, (mem_subjects.mp h).2]
  · have hno : .subject type ∉ expand t limit p.1 p.2 := fun hf => h (mem_subjects.mpr ⟨rfl, hf⟩)
    simp [h, hno]

/-- An expansion changes the table unless the permission has all that it comes upon. -/
theorem advance_changed (progress : Progress) (p : MemberId × List Edge) :
    (advance limit progress p).changed = true ↔ progress.changed = true ∨
      ∃ type, .subject type ∈ expand progress.table limit p.1 p.2 ∧
        ¬ Allows progress.table p.1 type := by
  simp only [advance, Bool.or_eq_true,
    SubjectMap.growAll_itself_changed (subjects_itself _)]
  refine or_congr_right ?_
  constructor
  · rintro ⟨⟨type, subject⟩, he, hne⟩
    obtain ⟨rfl, hf⟩ := mem_subjects.mp he
    exact ⟨type, hf, hne⟩
  · rintro ⟨type, hf, hne⟩
    exact ⟨(type, .itself), mem_subjects.mpr ⟨rfl, hf⟩, hne⟩

private theorem extend_eq_assign {t : Table} {p : MemberId × List Edge} (ho : IsOpen t p.1) :
    extend limit t p = assign t (Function.update (subjectsAt t) p.1 (grown limit t p)) := by
  simp only [extend, advance]
  split
  · exact setSubjects_eq ho _
  · next h =>
    have hsame : grown limit t p = subjectsAt t p.1 :=
      SubjectMap.growAll_unchanged (subjects_itself _) (Bool.eq_false_iff.mpr h)
    rw [hsame, Function.update_eq_self, assign_subjectsAt]

theorem isOpen_of_mem {t : Table} {p : MemberId × List Edge} (h : p ∈ openPermissions t) :
    IsOpen t p.1 := isOpen_iff.mpr ⟨p.2, h⟩

theorem variant_extend {t : Table} {p : MemberId × List Edge} (h : p ∈ openPermissions t) :
    Variant t (extend limit t p) := ⟨_, extend_eq_assign (isOpen_of_mem h)⟩

theorem allows_extend {t : Table} {p : MemberId × List Edge} (h : p ∈ openPermissions t)
    {m : MemberId} {type : String} : Allows (extend limit t p) m type ↔
      Allows t m type ∨ (m = p.1 ∧ .subject type ∈ expand t limit p.1 p.2) := by
  have ho := isOpen_of_mem h
  rw [extend_eq_assign ho, Allows]
  by_cases hm : m = p.1
  · subst hm
    rw [subjectsAt_assign ho, Function.update_self, get?_grown]
    simp
  · have hsame : subjectsAt (assign t (Function.update (subjectsAt t) p.1 (grown limit t p))) m =
        subjectsAt t m := by
      by_cases hopen : IsOpen t m
      · rw [subjectsAt_assign hopen, Function.update_of_ne hm]
      · rw [subjectsAt_assign_of_not_isOpen hopen]
    rw [hsame]
    simp [hm, Allows]

theorem plainOpen_extend {t : Table} (hp : PlainOpen t) {p : MemberId × List Edge}
    (h : p ∈ openPermissions t) : PlainOpen (extend limit t p) := by
  intro m hm
  have ho := isOpen_of_mem h
  have hopen : IsOpen t m := (variant_extend h).isOpen_iff.mp hm
  rw [extend_eq_assign ho, subjectsAt_assign hopen]
  by_cases hmp : m = p.1
  · subst hmp
    rw [Function.update_self]
    exact (hp _ ho).growAll (subjects_itself _)
  · rw [Function.update_of_ne hmp]
    exact hp m hopen

/-- Variants with plain subjects that allow the same are the same table. -/
theorem eq_of_allows_iff {t t' : Table} (h : Variant t t') (hp : PlainOpen t) (hp' : PlainOpen t')
    (hs : ∀ m, IsOpen t m → ∀ type, Allows t m type ↔ Allows t' m type) : t' = t := by
  refine h.ext fun m hm => ?_
  exact (hp' m (h.isOpen_iff.mpr hm)).ext (hp m hm) fun type => (hs m hm type).symm

theorem extend_eq_self {t : Table} (hp : PlainOpen t) {p : MemberId × List Edge}
    (h : p ∈ openPermissions t)
    (hall : ∀ type, .subject type ∈ expand t limit p.1 p.2 → Allows t p.1 type) :
    extend limit t p = t := by
  refine eq_of_allows_iff (variant_extend h) hp (plainOpen_extend hp h) fun m _ type => ?_
  rw [allows_extend h]
  constructor
  · exact Or.inl
  · rintro (ha | ⟨rfl, hf⟩)
    · exact ha
    · exact hall type hf

namespace Run

theorem variant {t t' : Table} (h : Run limit t t') : Variant t t' := by
  induction h with
  | refl => exact Variant.refl t
  | tail _ hstep ih =>
    obtain ⟨p, hp, rfl⟩ := hstep
    exact ih.trans (variant_extend hp)

theorem plainOpen {t t' : Table} (h : Run limit t t') (hp : PlainOpen t) : PlainOpen t' := by
  induction h with
  | refl => exact hp
  | tail _ hstep ih =>
    obtain ⟨p, hmem, rfl⟩ := hstep
    exact plainOpen_extend ih hmem

theorem allows {t t' : Table} (h : Run limit t t') {m : MemberId} {type : String}
    (ha : Allows t m type) : Allows t' m type := by
  induction h with
  | refl => exact ha
  | tail _ hstep ih =>
    obtain ⟨p, hmem, rfl⟩ := hstep
    exact (allows_extend hmem).mpr (Or.inl ih)

end Run

end AuthSchema.Resolution
