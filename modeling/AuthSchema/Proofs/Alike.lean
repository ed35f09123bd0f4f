import AuthSchema.Proofs.LeastSolution
import AuthSchema.Proofs.Members

/-! Tables that differ in the order, the repetition and the caveats of edges only. An expansion
comes upon the same in both, though in another order, so what is settled in one is settled in the
other: either both resolutions succeed or none, and with the same subjects. -/
namespace AuthSchema

/-- Two lists of edges have the same references, in whatever order and under whatever caveats. -/
def SameReferences (edges edges' : List Edge) : Prop :=
  ∀ type subject, (∃ e ∈ edges, e.type = type ∧ e.subject = subject) ↔
    ∃ e ∈ edges', e.type = type ∧ e.subject = subject

/-- All of a member but its edges. -/
def Member.withoutEdges (m : Member) : Member := { m with edges := [] }

def Resource.withoutEdges (r : Resource) : Resource :=
  { r with permissions := r.permissions.map fun _ m => m.withoutEdges
           relations := r.relations.map fun _ m => m.withoutEdges }

/-- All of a table but the edges of its members. -/
def Table.withoutEdges (t : Table) : Table := t.map fun _ r => r.withoutEdges

/-- Members that are the same up to the shape of their edges. -/
structure Member.Alike (m m' : Member) : Prop where
  withoutEdges : m.withoutEdges = m'.withoutEdges
  edges : SameReferences m.edges m'.edges

structure Resource.Alike (r r' : Resource) : Prop where
  name : r.name = r'.name
  permissionSubject : r.permissionSubject = r'.permissionSubject
  relationSubject : r.relationSubject = r'.relationSubject
  relations : SortedMap.Matches Member.Alike r.relations r'.relations
  permissions : SortedMap.Matches Member.Alike r.permissions r'.permissions

/-- Tables that are the same up to the shape of the edges in them. -/
abbrev Table.Alike (t t' : Table) : Prop := SortedMap.Matches Resource.Alike t t'

namespace SameReferences
variable {edges edges' : List Edge} (h : SameReferences edges edges')
include h

theorem symm : SameReferences edges' edges := fun type subject => (h type subject).symm

private theorem exists_mem {e : Edge} (he : e ∈ edges) :
    ∃ e' ∈ edges', e'.type = e.type ∧ e'.subject = e.subject :=
  (h e.type e.subject).mp ⟨e, he, rfl, rfl⟩

theorem eq_nil_iff : edges = [] ↔ edges' = [] := by
  constructor
  · rintro rfl
    apply List.eq_nil_iff_forall_not_mem.mpr
    intro e he
    obtain ⟨e', he', -⟩ := h.symm.exists_mem he
    cases he'
  · rintro rfl
    apply List.eq_nil_iff_forall_not_mem.mpr
    intro e he
    obtain ⟨e', he', -⟩ := h.exists_mem he
    cases he'

end SameReferences

/-- An override does not depend on edges. -/
theorem Member.activeOverride_eq_of_withoutEdges {m m' : Member}
    (h : m.withoutEdges = m'.withoutEdges) : m.activeOverride = m'.activeOverride := by
  have hoverride := congrArg Member.activeOverride h
  exact hoverride

namespace Member.Alike
variable {m m' : Member} (h : m.Alike m')
include h

theorem symm : m'.Alike m := ⟨h.withoutEdges.symm, h.edges.symm⟩

private theorem activeOverride_eq : m.activeOverride = m'.activeOverride :=
  activeOverride_eq_of_withoutEdges h.withoutEdges

private theorem followsEdges_eq : Resolution.followsEdges m = Resolution.followsEdges m' := by
  rw [Bool.eq_iff_iff, Resolution.followsEdges_iff, Resolution.followsEdges_iff,
    h.activeOverride_eq, Ne, h.edges.eq_nil_iff]

private theorem fixedSubjects_eq : Resolution.fixedSubjects m = Resolution.fixedSubjects m' := by
  rw [Resolution.fixedSubjects, Resolution.fixedSubjects, h.activeOverride_eq]

private theorem mem_declared {ref : String × SubjectRelation} (href : ref ∈ Resolution.declared m) :
    ref ∈ Resolution.declared m' := by
  cases hf : Resolution.followsEdges m with
  | true =>
    rw [Resolution.declared_of_follows hf] at href
    obtain ⟨e, he, rfl⟩ := List.mem_map.mp href
    obtain ⟨e', he', htype, hsubject⟩ := h.edges.exists_mem he
    rw [Resolution.declared_of_follows (h.followsEdges_eq ▸ hf)]
    exact List.mem_map.mpr ⟨e', he', by rw [htype, hsubject]⟩
  | false =>
    rw [Resolution.declared_of_not_follows hf, h.fixedSubjects_eq] at href
    rw [Resolution.declared_of_not_follows (h.followsEdges_eq ▸ hf)]
    exact href

private theorem withSubjects {subjects subjects' : SubjectMap} (hsubjects : subjects = subjects') :
    Member.withoutEdges { m with subjects } =
      Member.withoutEdges { m' with subjects := subjects' } := by
  rw [hsubjects]
  exact congrArg (fun n : Member => { n with subjects := subjects' }) h.withoutEdges

end Member.Alike

namespace Resource.Alike
variable {r r' : Resource} (h : r.Alike r')
include h

theorem symm : r'.Alike r :=
  ⟨h.name.symm, h.permissionSubject.symm, h.relationSubject.symm,
    h.relations.symm fun _ _ => Member.Alike.symm, h.permissions.symm fun _ _ => Member.Alike.symm⟩

private theorem member? {name : String} {found : Member} (hfound : r.member? name = some found) :
    ∃ found', r'.member? name = some found' ∧ found.Alike found' := by
  rw [Resource.member?]
  rcases Option.or_eq_some_iff.mp hfound with hrel | ⟨hnone, hp⟩
  · obtain ⟨rel', hrel', halike⟩ := h.relations.forth name found hrel
    exact ⟨rel', by rw [hrel', Option.some_or], halike⟩
  · obtain ⟨p', hp', halike⟩ := h.permissions.forth name found hp
    exact ⟨p', by rw [h.relations.get?_eq_none hnone, Option.none_or, hp'], halike⟩

end Resource.Alike

namespace Table.Alike
variable {t t' : Table} (h : t.Alike t')
include h

theorem symm : t'.Alike t := SortedMap.Matches.symm h fun _ _ => Resource.Alike.symm

private theorem member? {m : MemberId} {found : Member} (hfound : t.member? m = some found) :
    ∃ found', t'.member? m = some found' ∧ found.Alike found' := by
  obtain ⟨r, hr, hmember⟩ := Option.bind_eq_some_iff.mp hfound
  obtain ⟨r', hr', halike⟩ := h.forth m.type r hr
  obtain ⟨found', hfound', hmembers⟩ := halike.member? hmember
  exact ⟨found', Option.bind_eq_some_iff.mpr ⟨r', hr', hfound'⟩, hmembers⟩

private theorem contains_eq (type : String) : t.contains type = t'.contains type := by
  rw [SortedMap.contains, SortedMap.contains]
  cases hr : t.get? type with
  | none => rw [h.get?_eq_none hr]
  | some r =>
    obtain ⟨r', hr', -⟩ := h.forth type r hr
    rw [hr']
    rfl

private theorem relation? {m : MemberId} {rel : Member}
    (hrel : Resolution.relation? t m = some rel) :
    ∃ rel', Resolution.relation? t' m = some rel' ∧ rel.Alike rel' := by
  obtain ⟨r, hr, hget⟩ := Resolution.relation?_iff.mp hrel
  obtain ⟨r', hr', halike⟩ := h.forth m.type r hr
  obtain ⟨rel', hrel', hmembers⟩ := halike.relations.forth _ rel hget
  exact ⟨rel', Resolution.relation?_iff.mpr ⟨r', hr', hrel'⟩, hmembers⟩

private theorem permission? {m : MemberId} {p : Member} (hp : Resolution.permission? t m = some p) :
    ∃ p', Resolution.permission? t' m = some p' ∧ p.Alike p' := by
  obtain ⟨r, hr, hget⟩ := Resolution.permission?_iff.mp hp
  obtain ⟨r', hr', halike⟩ := h.forth m.type r hr
  obtain ⟨p', hp', hmembers⟩ := halike.permissions.forth _ p hget
  exact ⟨p', Resolution.permission?_iff.mpr ⟨r', hr', hp'⟩, hmembers⟩

private theorem isOpen {m : MemberId} (hm : Resolution.IsOpen t m) : Resolution.IsOpen t' m := by
  obtain ⟨p, hp, hf⟩ := hm
  obtain ⟨p', hp', halike⟩ := h.permission? hp
  exact ⟨p', hp', halike.followsEdges_eq ▸ hf⟩

private theorem mem_openPermissions {m : MemberId} {edges : List Edge}
    (hm : (m, edges) ∈ Resolution.openPermissions t) :
    ∃ edges', (m, edges') ∈ Resolution.openPermissions t' ∧ SameReferences edges edges' := by
  obtain ⟨p, hp, hf, rfl⟩ := Resolution.mem_openPermissions.mp hm
  obtain ⟨p', hp', halike⟩ := h.permission? hp
  exact ⟨p'.edges, Resolution.mem_openPermissions.mpr ⟨p', hp', halike.followsEdges_eq ▸ hf, rfl⟩,
    halike.edges⟩

private theorem dangles {ref : String × SubjectRelation} {reason : Resolution.Fault}
    (hd : Resolution.Dangles t ref reason) : Resolution.Dangles t' ref reason := by
  cases hd with
  | type hr => exact .type (h.get?_eq_none hr)
  | @member type relation r hr hnone =>
    obtain ⟨r', hr', halike⟩ := h.forth type r hr
    refine .member hr' ?_
    cases hmember : r'.member? relation with
    | none => rfl
    | some found' =>
      obtain ⟨found, hfound, -⟩ := halike.symm.member? hmember
      rw [hnone] at hfound
      cases hfound

theorem dangles_iff {ref : String × SubjectRelation} {reason : Resolution.Fault} :
    Resolution.Dangles t ref reason ↔ Resolution.Dangles t' ref reason :=
  ⟨h.dangles, h.symm.dangles⟩

private theorem names {ref : String × SubjectRelation} (href : Resolution.Names t ref) :
    Resolution.Names t' ref :=
  Resolution.names_iff.mpr fun reason hd =>
    Resolution.names_iff.mp href reason (h.symm.dangles hd)

private theorem edgeFault?_eq {e e' : Edge} (htype : e'.type = e.type)
    (hsubject : e'.subject = e.subject) :
    Resolution.edgeFault? t e = Resolution.edgeFault? t' e' := by
  apply Option.ext
  intro reason
  rw [Resolution.edgeFault?_iff, Resolution.edgeFault?_iff, htype, hsubject, h.dangles_iff]

private theorem mem_good {m m' : Member} (hm : m.Alike m') {ref : String × SubjectRelation}
    (href : ref ∈ (m.edges.filter fun e => (Resolution.edgeFault? t e).isNone).map
      fun e => (e.type, e.subject)) :
    ref ∈ (m'.edges.filter fun e => (Resolution.edgeFault? t' e).isNone).map
      fun e => (e.type, e.subject) := by
  obtain ⟨e, he, rfl⟩ := List.mem_map.mp href
  obtain ⟨hmem, hgood⟩ := List.mem_filter.mp he
  obtain ⟨e', he', htype, hsubject⟩ := hm.edges.exists_mem hmem
  refine List.mem_map.mpr ⟨e', List.mem_filter.mpr ⟨he', ?_⟩, by rw [htype, hsubject]⟩
  rw [← h.edgeFault?_eq htype hsubject]
  exact hgood

/-- The subjects of a relation depend on the set of its references only. -/
theorem relationSubjects_eq {m m' : Member} (hm : m.Alike m') :
    Resolution.relationSubjects t m = Resolution.relationSubjects t' m' := by
  rw [Resolution.relationSubjects, Resolution.relationSubjects, hm.followsEdges_eq,
    hm.fixedSubjects_eq]
  split
  · exact SubjectMap.collect_congr fun ref => ⟨h.mem_good hm, h.symm.mem_good hm.symm⟩
  · rfl

end Table.Alike

namespace Resolution
variable {limit : Option Nat}

/-- All that an expansion comes upon in one table is there in another, maybe in another order. -/
structure ReadsAs (s s' : Table) : Prop where
  contains : ∀ type, s.contains type = s'.contains type
  missing : ∀ m reason, references s m = .error reason → references s' m = .error reason
  references : ∀ m refs, references s m = .ok refs →
    ∃ refs', references s' m = .ok refs' ∧ ∀ ref ∈ refs, ref ∈ refs'

namespace ReadsAs
variable {s s' : Table} (h : ReadsAs s s')
include h

private theorem mem_steps {trail : Trail} {m : MemberId} {step : Step}
    (hstep : step ∈ steps s limit trail m) : step ∈ steps s' limit trail m := by
  rw [steps_eq] at hstep ⊢
  cases hrefs : Resolution.references s m with
  | error reason =>
    rw [h.missing m reason hrefs]
    rw [hrefs] at hstep
    exact hstep
  | ok refs =>
    obtain ⟨refs', hrefs', hsub⟩ := h.references m refs hrefs
    rw [hrefs] at hstep
    rw [hrefs']
    by_cases hm : m ∈ trail
    · simp only [if_pos hm] at hstep
      cases hstep
    · simp only [if_neg hm] at hstep ⊢
      obtain ⟨ref, href, hat⟩ := List.mem_filterMap.mp hstep
      exact List.mem_filterMap.mpr ⟨ref, hsub ref href, hat⟩

private theorem mem_expandMember (trail : Trail) (m : MemberId) {f : Finding}
    (hf : f ∈ expandMember s limit trail m) : f ∈ expandMember s' limit trail m := by
  induction trail, m using expand_induction s limit with
  | step trail m ih =>
    rcases Resolution.mem_expandMember.mp hf with hfound | ⟨next, hnext, hrest⟩
    · exact Resolution.mem_expandMember.mpr (Or.inl (h.mem_steps hfound))
    · exact Resolution.mem_expandMember.mpr
        (Or.inr ⟨next, h.mem_steps hnext, ih next hnext hrest⟩)

private theorem mem_expand {start : MemberId} {edges edges' : List Edge}
    (hedges : SameReferences edges edges') {f : Finding} (hf : f ∈ expand s limit start edges) :
    f ∈ expand s' limit start edges' := by
  obtain ⟨e, he, hfe⟩ := Resolution.mem_expand.mp hf
  obtain ⟨e', he', htype, hsubject⟩ := hedges.exists_mem he
  refine Resolution.mem_expand.mpr ⟨e', he', ?_⟩
  rw [expandEdge] at hfe ⊢
  rw [hsubject, htype]
  cases hs : e.subject with
  | itself =>
    simp only [hs, h.contains] at hfe
    exact hfe
  | userset relation =>
    simp only [hs] at hfe
    exact h.mem_expandMember _ _ hfe

end ReadsAs

section Alike
variable {t t' : Table} (ht : Filed t) (ht' : Filed t') (h : t.Alike t')
include ht ht' h

/-- Alike tables with the same subjects at their open permissions read the same. -/
theorem readsAs {s s' : Table} (hs : Variant (seeded t) s) (hs' : Variant (seeded t') s')
    (hsubjects : ∀ m, IsOpen t m → subjectsAt s m = subjectsAt s' m) : ReadsAs s s' := by
  refine ⟨?_, ?_, ?_⟩
  · intro type
    have hcontains := h.contains_eq type
    rw [SortedMap.contains, SortedMap.contains] at hcontains
    rw [contains_stage hs, contains_stage hs', hcontains]
  · intro m reason hmissing
    rw [find_stage ht hs, find_eq_error] at hmissing
    rw [find_stage ht' hs', find_eq_error]
    exact h.dangles hmissing
  · intro m refs hrefs
    by_cases hm : IsOpen t m
    · rw [references_of_open ht hs hm, Except.ok.injEq] at hrefs
      refine ⟨_, references_of_open ht' hs' (h.isOpen hm), fun ref href => ?_⟩
      rw [← hsubjects m hm, hrefs]
      exact href
    · obtain ⟨found, hfound, rfl⟩ := declared_of_references ht hs hm hrefs
      obtain ⟨found', hfound', halike⟩ := h.member? hfound
      have hm' : ¬ IsOpen t' m := fun hopen => hm (h.symm.isOpen hopen)
      exact ⟨_, references_of_not_open ht' hs' hm' hfound', fun _ => halike.mem_declared⟩

private theorem readsAs_seeded : ReadsAs (seeded t) (seeded t') := by
  refine readsAs ht ht' h (Variant.refl _) (Variant.refl _) fun m hm => ?_
  rw [subjectsAt_seeded hm, subjectsAt_seeded (h.isOpen hm)]

/-- What the solution of one table allows, taken over into another, is settled there as well. So it
bounds the solution there. -/
theorem allows_solution {m : MemberId} (hm : IsOpen t m) {type : String}
    (ha : Allows (solution limit t) m type) : Allows (solution limit t') m type := by
  have hreads : ReadsAs (assign (seeded t) (subjectsAt (solution limit t'))) (solution limit t') :=
    readsAs ht ht' h ⟨_, rfl⟩ (variant_solution limit t')
      fun m hm => subjectsAt_assign_seeded hm _
  refine solution_le_assignment (fun m hm => plain_solution limit (h.isOpen hm)) ?_ hm ha
  intro p hp type hf
  obtain ⟨edges', hp', hedges⟩ := h.mem_openPermissions hp
  rw [← openPermissions_stage (variant_solution limit t')] at hp'
  exact settled_solution limit t' _ hp' type (hreads.mem_expand hedges hf)

private theorem subjectsAt_solution_eq {m : MemberId} (hm : IsOpen t m) :
    subjectsAt (solution limit t) m = subjectsAt (solution limit t') m := by
  refine (plain_solution limit hm).ext (plain_solution limit (h.isOpen hm)) fun type => ?_
  exact ⟨allows_solution ht ht' h hm, allows_solution ht' ht h.symm (h.isOpen hm)⟩

/-- A table alike one without complaints has none either. -/
theorem complaints_eq_nil_of_alike (hnone : complaints limit t = []) :
    complaints limit t' = [] := by
  obtain ⟨hrelations, hpermissions, hdead⟩ := complaints_eq_nil.mp hnone
  refine complaints_eq_nil.mpr ⟨?_, ?_, ?_⟩
  · rw [allRelationDiagnostics_eq_nil ht']
    intro m rel' hrel' ho e' he'
    obtain ⟨rel, hrel, halike⟩ := h.symm.relation? hrel'
    obtain ⟨e, he, htype, hsubject⟩ := halike.edges.exists_mem he'
    rw [halike.activeOverride_eq] at ho
    rw [← htype, ← hsubject]
    exact h.names ((allRelationDiagnostics_eq_nil ht).mp hrelations m rel hrel ho e he)
  · rw [permissionDiagnostics_eq_nil] at hpermissions ⊢
    rintro ⟨m, edges'⟩ hp' reason trail hf
    rw [openPermissions_seeded] at hp'
    obtain ⟨edges, hp, hedges⟩ := h.symm.mem_openPermissions hp'
    rw [← openPermissions_seeded] at hp
    exact hpermissions _ hp reason trail ((readsAs_seeded ht' ht h.symm).mem_expand hedges hf)
  · rw [deadEnds_solution_eq_nil] at hdead ⊢
    intro m hm'
    have hm := h.symm.isOpen hm'
    rw [← subjectsAt_solution_eq ht ht' h hm]
    exact hdead m hm

/-- Solutions of alike tables differ in the edges of members at most. -/
theorem solution_withoutEdges_eq :
    Table.withoutEdges (solution limit t) = Table.withoutEdges (solution limit t') := by
  apply SortedMap.ext_get?
  intro type
  rw [Table.withoutEdges, Table.withoutEdges, SortedMap.get?_map, SortedMap.get?_map,
    get?_stage (variant_solution limit t), get?_stage (variant_solution limit t')]
  cases hr : t.get? type with
  | none => simp only [h.get?_eq_none hr, Option.map_none]
  | some r =>
    obtain ⟨r', hr', halike⟩ := h.forth type r hr
    simp only [hr', Option.map_some, Resource.withoutEdges, SortedMap.map_map, Option.some.injEq,
      Resource.mk.injEq]
    refine ⟨halike.name, ?_, ?_, halike.permissionSubject, halike.relationSubject⟩
    · refine halike.permissions.map_eq fun name p p' hp hmember => ?_
      apply hmember.withSubjects
      rw [← hmember.followsEdges_eq, hmember.fixedSubjects_eq]
      split
      · next hf =>
        exact subjectsAt_solution_eq ht ht' h ⟨p, permission?_iff.mpr ⟨r, hr, hp⟩, hf⟩
      · rfl
    · refine halike.relations.map_eq fun name rel rel' hrel hmember => ?_
      exact hmember.withSubjects (h.relationSubjects_eq hmember)

end Alike

end Resolution

end AuthSchema
