import AuthSchema.Proofs.Acceptance
import AuthSchema.Proofs.Collected
import AuthSchema.Proofs.Termination

/-! The members of a solution. Each is a member of the table with subjects that are fixed, collected
from its edges, or found by expansion; where resolution has no complaint they are never empty, and
all that they name has its grounds in the table. -/
namespace AuthSchema

/-- A type stands in the override of some member of a table. -/
def Overrides (t : Table) (type : String) : Prop :=
  ∃ m found subjects, t.member? m = some found ∧ found.override = some subjects ∧
    type ∈ subjects.keys

namespace Resolution
variable {limit : Option Nat}

private theorem mem_wildcard {ref : String × SubjectRelation} :
    ref ∈ SubjectMap.wildcard.entries ↔ ref = (anyType, .itself) := List.mem_singleton

private theorem fixedSubjects_eq_wildcard {m : Member} (h : m.activeOverride = none) :
    fixedSubjects m = SubjectMap.wildcard := by
  rw [fixedSubjects, h, Option.getD_none]

theorem relationSubjects_of_not_follows {t : Table} {m : Member} (h : followsEdges m = false) :
    relationSubjects t m = fixedSubjects m := if_neg (by simp [h])

section Stage
variable {t s : Table} (hs : Variant (seeded t) s)
include hs

theorem keys_stage : s.keys = t.keys := by
  obtain ⟨σ, rfl⟩ := hs
  simp only [assign, seeded, seed, resolveRelations, SortedMap.keys_map]

/-- The subjects of a member while permissions are being solved. -/
def stageSubjects (t s : Table) (m : MemberId) (source : Member) : SubjectMap :=
  if source.kind = .permission ∧ followsEdges source = true then subjectsAt s m
  else relationSubjects t source

theorem member?_stage (ht : Filed t) (m : MemberId) : s.member? m = (t.member? m).map fun source =>
    { source with subjects := stageSubjects t s m source } := by
  rw [Table.member?, Table.member?, get?_stage hs]
  cases hr : t.get? m.type with
  | none => rfl
  | some r =>
    have hfiled := ht m.type r hr
    simp only [Option.map_some, Option.bind_some, Resource.member?, SortedMap.get?_map]
    cases hrel : r.relations.get? m.member with
    | some rel =>
      obtain ⟨hkind, -⟩ := hfiled.relation _ rel hrel
      simp [stageSubjects, hkind]
    | none =>
      cases hp : r.permissions.get? m.member with
      | none => rfl
      | some p =>
        obtain ⟨hkind, -⟩ := hfiled.permission _ p hp
        cases hf : followsEdges p with
        | true => simp [stageSubjects, hkind, hf]
        | false => simp [stageSubjects, hf, relationSubjects_of_not_follows hf]

end Stage

theorem names_iff_exists {t : Table} {ref : String × SubjectRelation} : Names t ref ↔
    ref.1 ∈ t.keys ∧ ∀ relation, ref.2 = .userset relation →
      ∃ found, t.member? ⟨ref.1, relation⟩ = some found := by
  rw [Names, SortedMap.mem_keys_iff]
  constructor
  · rintro ⟨r, hr, hmember⟩
    refine ⟨⟨r, hr⟩, fun relation hrelation => ?_⟩
    obtain ⟨found, hfound⟩ := hmember relation hrelation
    exact ⟨found, Option.bind_eq_some_iff.mpr ⟨r, hr, hfound⟩⟩
  · rintro ⟨⟨r, hr⟩, hmember⟩
    refine ⟨r, hr, fun relation hrelation => ?_⟩
    obtain ⟨found, hfound⟩ := hmember relation hrelation
    obtain ⟨r', hr', hfound'⟩ := Option.bind_eq_some_iff.mp hfound
    obtain rfl := Option.some.inj (hr.symm.trans hr')
    exact ⟨found, hfound'⟩

theorem names_stage {t s : Table} (hs : Variant (seeded t) s) (ht : Filed t)
    {ref : String × SubjectRelation} : Names s ref ↔ Names t ref := by
  rw [names_iff_exists, names_iff_exists, keys_stage hs]
  simp [member?_stage hs ht]

/-- The types of a table, the type that stands for any, and those of the overrides. -/
def grounds (t : Table) : List String :=
  t.keys ++ anyType :: (members t).flatMap fun m =>
    ((t.member? m).bind Member.override).elim [] SortedMap.keys

theorem mem_grounds {t : Table} {type : String} :
    type ∈ grounds t ↔ type ∈ t.keys ∨ type = anyType ∨ Overrides t type := by
  rw [grounds, List.mem_append, List.mem_cons, List.mem_flatMap]
  refine or_congr_right (or_congr_right ?_)
  constructor
  · rintro ⟨m, -, htype⟩
    cases ho : (t.member? m).bind Member.override with
    | none =>
      rw [ho] at htype
      cases htype
    | some subjects =>
      rw [ho] at htype
      obtain ⟨found, hfound, hoverride⟩ := Option.bind_eq_some_iff.mp ho
      exact ⟨m, found, subjects, hfound, hoverride, htype⟩
  · rintro ⟨m, found, subjects, hfound, hoverride, htype⟩
    refine ⟨m, mem_members.mpr ⟨found, hfound⟩, ?_⟩
    rw [hfound, Option.bind_some, hoverride]
    exact htype

theorem overrides_stage {t s : Table} (hs : Variant (seeded t) s) (ht : Filed t) {type : String} :
    Overrides s type ↔ Overrides t type := by
  simp [Overrides, member?_stage hs ht]

private theorem mem_grounds_of_override {t : Table} {m : MemberId} {found : Member}
    {subjects : SubjectMap} (hfound : t.member? m = some found)
    (ho : found.activeOverride = some subjects) {ref : String × SubjectRelation}
    (href : ref ∈ subjects.entries) : ref.1 ∈ grounds t := by
  obtain ⟨hoverride, -⟩ := Option.filter_eq_some_iff.mp ho
  refine mem_grounds.mpr (Or.inr (Or.inr ⟨m, found, subjects, hfound, hoverride, ?_⟩))
  exact List.mem_map.mpr ⟨ref, href, rfl⟩

theorem allRelationDiagnostics_eq_nil {t : Table} (ht : Filed t) : allRelationDiagnostics t = [] ↔
    ∀ m rel, relation? t m = some rel → rel.activeOverride = none →
      ∀ e ∈ rel.edges, Names t (e.type, e.subject) := by
  rw [List.eq_nil_iff_forall_not_mem]
  constructor
  · intro h m rel hrel ho e he
    refine names_iff.mpr fun reason hd => ?_
    obtain ⟨d, hmem, -⟩ := (mem_allRelationDiagnostics ht).mpr ⟨rel, hrel, ho, e, he, hd⟩
    exact h d hmem
  · intro h d hmem
    obtain ⟨rel, hrel, ho, e, he, hd⟩ := (mem_allRelationDiagnostics ht).mp ⟨d, hmem, rfl, rfl⟩
    exact names_iff.mp (h _ rel hrel ho e he) _ hd

/-- A permission whose expansion finds no fault has edges that name what exists. -/
theorem names_of_edge {s : Table} (hnone : permissionDiagnostics limit s = [])
    {p : MemberId × List Edge} (hp : p ∈ openPermissions s) {e : Edge} (he : e ∈ p.2) :
    Names s (e.type, e.subject) := by
  refine names_iff.mpr fun reason hdangles => ?_
  have hfault : ∃ trail, .fault reason trail ∈ expandEdge s limit p.1 e := by
    rw [expandEdge]
    cases hsubject : e.subject with
    | itself =>
      rw [hsubject] at hdangles
      cases hdangles with
      | type hget => exact ⟨[p.1], by simp [SortedMap.contains, hget]⟩
    | userset relation =>
      rw [hsubject] at hdangles
      refine ⟨[p.1], mem_expandMember.mpr (Or.inl ?_)⟩
      rw [steps, find_eq_error.mpr hdangles]
      exact List.mem_singleton_self _
  obtain ⟨trail, hfault⟩ := hfault
  exact permissionDiagnostics_eq_nil.mp hnone p hp _ trail (mem_expand.mpr ⟨e, he, hfault⟩)

private theorem contains_of_edge {s : Table} (hnone : permissionDiagnostics limit s = [])
    {p : MemberId × List Edge} (hp : p ∈ openPermissions s) {e : Edge} (he : e ∈ p.2) :
    s.contains e.type = true := by
  obtain ⟨r, hr, -⟩ := names_of_edge hnone hp he
  exact SortedMap.contains_eq_true_iff.mpr (SortedMap.mem_keys_of_get? hr)

/-- Where references are good, they are on grounds only. -/
theorem covers_grounds {t : Table} (ht : Filed t) (hrelations : allRelationDiagnostics t = [])
    (hpermissions : permissionDiagnostics limit (seeded t) = []) :
    Covers (grounds t) (seeded t) := by
  refine ⟨?_, ?_, fun m hm type ha => absurd ha (not_allows_seeded (isOpen_seeded.mp hm) type)⟩
  · intro p hp e he
    have hin := contains_of_edge hpermissions hp he
    rw [SortedMap.contains_eq_true_iff, keys_stage (Variant.refl _)] at hin
    exact mem_grounds.mpr (Or.inl hin)
  · intro m refs hrefs ref href
    rcases references_stage ht (Variant.refl (seeded t)) m with ⟨ho, hopen⟩ | ⟨hno, hdeclared⟩
    · rw [hrefs, Except.ok.injEq] at hopen
      rw [hopen, subjectsAt_seeded ho] at href
      cases href
    · obtain ⟨found, hfound, rfl⟩ :=
        declared_of_references ht (Variant.refl (seeded t)) hno hrefs
      cases ho : found.activeOverride with
      | some subjects =>
        rw [declared_of_override ho] at href
        exact mem_grounds_of_override hfound ho href
      | none =>
        cases hf : followsEdges found with
        | false =>
          rw [declared_of_not_follows hf, fixedSubjects_eq_wildcard ho, mem_wildcard] at href
          rw [href]
          exact mem_grounds.mpr (Or.inr (Or.inl rfl))
        | true =>
          rw [declared_of_follows hf] at href
          obtain ⟨e, he, rfl⟩ := List.mem_map.mp href
          rcases relation_or_permission hfound with hrel | hp
          · have hnames := (allRelationDiagnostics_eq_nil ht).mp hrelations _ _ hrel ho e he
            obtain ⟨hin, -⟩ := names_iff_exists.mp hnames
            exact mem_grounds.mpr (Or.inl hin)
          · exact absurd ⟨found, hp, hf⟩ hno

theorem filed_stage {t s : Table} (hs : Variant (seeded t) s) (ht : Filed t) : Filed s := by
  intro type r hr
  rw [get?_stage hs] at hr
  obtain ⟨source, hsource, rfl⟩ := Option.map_eq_some_iff.mp hr
  have hfiled := ht type source hsource
  refine ⟨?_, ?_, ?_⟩
  · intro name found hfound
    rw [SortedMap.get?_map] at hfound
    obtain ⟨rel, hrel, rfl⟩ := Option.map_eq_some_iff.mp hfound
    exact hfiled.relation name rel hrel
  · intro name found hfound
    rw [SortedMap.get?_map] at hfound
    obtain ⟨p, hp, rfl⟩ := Option.map_eq_some_iff.mp hfound
    exact hfiled.permission name p hp
  · intro name found hfound
    rw [SortedMap.get?_map] at hfound ⊢
    obtain ⟨rel, hrel, -⟩ := Option.map_eq_some_iff.mp hfound
    rw [hfiled.apart name rel hrel, Option.map_none]

/-- Dead ends are told just where a permission that follows its edges has come out empty. -/
theorem deadEnds_solution_eq_nil {t : Table} : deadEnds (solution limit t) = [] ↔
    ∀ m, IsOpen t m → (subjectsAt (solution limit t) m).isEmpty = false := by
  have hs := variant_solution limit t
  rw [List.eq_nil_iff_forall_not_mem]
  constructor
  · rintro h m ⟨p, hp, hf⟩
    rw [Bool.eq_false_iff]
    intro hempty
    exact h _ (mem_deadEnds.mpr ⟨m, _, permission?_stage hs hp hf, hempty, rfl⟩)
  · intro h d hd
    obtain ⟨m, p, hp, hempty, -⟩ := mem_deadEnds.mp hd
    have hinhabited := h m (isOpen_of_isEmpty hs hp hempty)
    rw [subjectsAt_of_permission? hp, hempty] at hinhabited
    cases hinhabited

private theorem relationSubjects_eq_collect {t : Table} (ht : Filed t)
    (hrelations : allRelationDiagnostics t = []) {m : MemberId} {rel : Member}
    (hrel : relation? t m = some rel) (hf : followsEdges rel = true) :
    relationSubjects t rel = SubjectMap.collect (rel.edges.map fun e => (e.type, e.subject)) := by
  have hgood : ∀ e ∈ rel.edges, (edgeFault? t e).isNone = true := by
    intro e he
    rw [Option.isNone_iff_eq_none, Option.eq_none_iff_forall_ne_some]
    intro reason hfault
    have hnames := (allRelationDiagnostics_eq_nil ht).mp hrelations _ _ hrel
      (followsEdges_iff.mp hf).1 e he
    exact names_iff.mp hnames reason (edgeFault?_iff.mp hfault)
  rw [relationSubjects, if_pos hf, List.filter_eq_self.mpr hgood]

section Accepted
variable {t : Table} (ht : Filed t) (hnone : complaints limit t = [])
include ht hnone

/-- A member of the solution, with the member of the table that it has been made of. -/
theorem member?_solution {m : MemberId} {found : Member}
    (hfound : (solution limit t).member? m = some found) : ∃ source subjects,
      t.member? m = some source ∧ found = { source with subjects } ∧
      ((followsEdges source = false ∧ subjects = fixedSubjects source) ∨
        (followsEdges source = true ∧ relation? t m = some source ∧
          subjects = SubjectMap.collect (source.edges.map fun e => (e.type, e.subject))) ∨
        (followsEdges source = true ∧ permission? t m = some source ∧
          subjects = subjectsAt (solution limit t) m)) := by
  rw [member?_stage (variant_solution limit t) ht] at hfound
  obtain ⟨source, hsource, rfl⟩ := Option.map_eq_some_iff.mp hfound
  refine ⟨source, _, hsource, rfl, ?_⟩
  obtain ⟨hrelations, -⟩ := complaints_eq_nil.mp hnone
  cases hf : followsEdges source with
  | false =>
    left
    rw [stageSubjects, if_neg (by simp [hf]), relationSubjects_of_not_follows hf]
    exact ⟨rfl, rfl⟩
  | true =>
    right
    rcases relation_or_permission hsource with hrel | hp
    · left
      rw [stageSubjects, if_neg (by simp [ht.relation_kind hrel])]
      exact ⟨rfl, hrel, relationSubjects_eq_collect ht hrelations hrel hf⟩
    · right
      rw [stageSubjects, if_pos ⟨ht.permission_kind hp, hf⟩]
      exact ⟨rfl, hp, rfl⟩

/-- The edges of a member without override name what exists. -/
theorem names_of_member? {m : MemberId} {found : Member} (hfound : t.member? m = some found)
    (ho : found.activeOverride = none) {e : Edge} (he : e ∈ found.edges) :
    Names t (e.type, e.subject) := by
  obtain ⟨hrelations, hpermissions, -⟩ := complaints_eq_nil.mp hnone
  rcases relation_or_permission hfound with hrel | hp
  · exact (allRelationDiagnostics_eq_nil ht).mp hrelations m found hrel ho e he
  · have hfollows := followsEdges_iff.mpr ⟨ho, List.ne_nil_of_mem he⟩
    have hopen : (m, found.edges) ∈ openPermissions (seeded t) := by
      rw [openPermissions_seeded]
      exact mem_openPermissions.mpr ⟨found, hp, hfollows, rfl⟩
    exact (names_stage (Variant.refl _) ht).mp (names_of_edge hpermissions hopen he)

theorem inhabited_solution {m : MemberId} {found : Member}
    (hfound : (solution limit t).member? m = some found) : found.subjects.isEmpty = false := by
  obtain ⟨source, subjects, -, rfl, ⟨-, rfl⟩ | ⟨hf, -, rfl⟩ | ⟨hf, hp, rfl⟩⟩ :=
    member?_solution ht hnone hfound
  · exact fixedSubjects_not_empty source
  · have hedges := (followsEdges_iff.mp hf).2
    exact SubjectMap.collect_not_empty (by simpa using hedges)
  · obtain ⟨-, -, hdead⟩ := complaints_eq_nil.mp hnone
    exact deadEnds_solution_eq_nil.mp hdead m ⟨source, hp, hf⟩

theorem relation_solution {m : MemberId} {found : Member}
    (hfound : (solution limit t).member? m = some found) (hkind : found.kind = .relation)
    (ho : found.activeOverride = none) :
    (found.edges = [] ∧ found.subjects = SubjectMap.wildcard) ∨
      (found.edges ≠ [] ∧ ∀ ref ∈ found.subjects.entries, Names (solution limit t) ref) := by
  obtain ⟨source, subjects, -, rfl, ⟨hf, rfl⟩ | ⟨hf, hrel, rfl⟩ | ⟨-, hp, rfl⟩⟩ :=
    member?_solution ht hnone hfound
  · left
    refine ⟨?_, fixedSubjects_eq_wildcard ho⟩
    by_contra hedges
    have hfollows : followsEdges source = true := followsEdges_iff.mpr ⟨ho, hedges⟩
    rw [hf] at hfollows
    cases hfollows
  · right
    refine ⟨(followsEdges_iff.mp hf).2, fun ref href => ?_⟩
    obtain ⟨e, he, rfl⟩ := List.mem_map.mp (SubjectMap.mem_of_mem_collect href)
    obtain ⟨hrelations, -⟩ := complaints_eq_nil.mp hnone
    rw [names_stage (variant_solution limit t) ht]
    exact (allRelationDiagnostics_eq_nil ht).mp hrelations _ _ hrel ho e he
  · have hperm : source.kind = .permission := ht.permission_kind hp
    rw [hperm] at hkind
    cases hkind

theorem permission_solution {m : MemberId} {found : Member}
    (hfound : (solution limit t).member? m = some found) (hkind : found.kind = .permission)
    (ho : found.activeOverride = none) {type : String} {subject : SubjectRelation}
    (hmem : (type, subject) ∈ found.subjects.entries) :
    subject = .itself ∧ type ∈ grounds t := by
  obtain ⟨source, subjects, -, rfl, ⟨hf, rfl⟩ | ⟨-, hrel, rfl⟩ | ⟨hf, hp, rfl⟩⟩ :=
    member?_solution ht hnone hfound
  · have hwildcard : fixedSubjects source = SubjectMap.wildcard := fixedSubjects_eq_wildcard ho
    rw [hwildcard, mem_wildcard] at hmem
    cases hmem
    exact ⟨rfl, mem_grounds.mpr (Or.inr (Or.inl rfl))⟩
  · have hrelation : source.kind = .relation := ht.relation_kind hrel
    rw [hrelation] at hkind
    cases hkind
  · have hopen : IsOpen (solution limit t) m :=
      (isOpen_stage (variant_solution limit t)).mpr ⟨source, hp, hf⟩
    have hself : subject = .itself := (plainOpen_solution limit t m hopen).mem_entries hmem
    refine ⟨hself, ?_⟩
    obtain ⟨hrelations, hpermissions, -⟩ := complaints_eq_nil.mp hnone
    have hcovers := (covers_grounds ht hrelations hpermissions).run (plainOpen_seeded t)
      (run_solution limit t)
    subst hself
    exact hcovers.subjects m hopen type (SortedMap.mem_entries_iff.mp hmem)

end Accepted

end Resolution

end AuthSchema
