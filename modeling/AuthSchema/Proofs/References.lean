import AuthSchema.Proofs.Reachability

/-! References that name something missing. Those of relations and of open permissions are told by
the member they stand in. Overrides are looked at only where a permission leads to them, so what is
missing there is told by the permissions whose walks come to it. -/
namespace AuthSchema.Resolution

/-- The resource type of a reference exists, and the member that it goes through. -/
def Names (t : Table) (ref : String × SubjectRelation) : Prop :=
  ∃ r, t.get? ref.1 = some r ∧
    ∀ relation, ref.2 = .userset relation → ∃ found, r.member? relation = some found

/-- What is missing of a reference. -/
inductive Dangles (t : Table) : String × SubjectRelation → Fault → Prop
  | type {type subject} (h : t.get? type = none) : Dangles t (type, subject) (.unknownType type)
  | member {type relation r} (hr : t.get? type = some r) (h : r.member? relation = none) :
      Dangles t (type, .userset relation) (.unknownMember ⟨type, relation⟩)

theorem names_iff {t : Table} {ref : String × SubjectRelation} :
    Names t ref ↔ ∀ reason, ¬ Dangles t ref reason := by
  obtain ⟨type, subject⟩ := ref
  constructor
  · rintro ⟨r, hr, hmember⟩ reason hd
    cases hd with
    | type h =>
      rw [hr] at h
      cases h
    | member hr' h =>
      obtain rfl := Option.some.inj (hr.symm.trans hr')
      obtain ⟨found, hfound⟩ := hmember _ rfl
      rw [h] at hfound
      cases hfound
  · intro h
    cases hr : t.get? type with
    | none => exact absurd (.type hr) (h _)
    | some r =>
      refine ⟨r, hr, ?_⟩
      rintro relation rfl
      cases hmember : r.member? relation with
      | none => exact absurd (.member hr hmember) (h _)
      | some found => exact ⟨found, rfl⟩

theorem edgeFault?_iff {t : Table} {e : Edge} {reason : Fault} :
    edgeFault? t e = some reason ↔ Dangles t (e.type, e.subject) reason := by
  obtain ⟨type, subject, caveat⟩ := e
  rw [edgeFault?]
  constructor
  · intro h
    split at h
    · next hr =>
      cases h
      exact .type hr
    · next r hr =>
      cases subject with
      | itself => cases h
      | userset relation =>
        simp only at h
        split at h
        · cases h
        · next hmember =>
          cases h
          exact .member hr (by simpa using hmember)
  · intro h
    cases h with
    | type hr => rw [hr]
    | member hr hmember => simp [hr, hmember]

theorem find_eq_error {t : Table} {m : MemberId} {reason : Fault} :
    find t m = .error reason ↔ Dangles t (m.type, .userset m.member) reason := by
  rw [find]
  constructor
  · intro h
    split at h
    · next hr =>
      cases h
      exact .type hr
    · next r hr =>
      split at h
      · next hmember =>
        cases h
        exact .member hr hmember
      · cases h
  · intro h
    cases h with
    | type hr => rw [hr]
    | member hr hmember => simp [hr, hmember]

/-- The relation of two names. -/
def relation? (t : Table) (m : MemberId) : Option Member :=
  (t.get? m.type).bind fun r => r.relations.get? m.member

theorem relation?_iff {t : Table} {m : MemberId} {rel : Member} : relation? t m = some rel ↔
    ∃ r, t.get? m.type = some r ∧ r.relations.get? m.member = some rel :=
  Option.bind_eq_some_iff

theorem Filed.relation_kind {t : Table} (ht : Filed t) {m : MemberId} {rel : Member}
    (hrel : relation? t m = some rel) : rel.kind = .relation := by
  obtain ⟨r, hr, hget⟩ := relation?_iff.mp hrel
  exact ((ht m.type r hr).relation m.member rel hget).1

theorem relation_or_permission {t : Table} {m : MemberId} {found : Member}
    (h : t.member? m = some found) : relation? t m = some found ∨ permission? t m = some found := by
  obtain ⟨r, hr, hmember⟩ := Option.bind_eq_some_iff.mp h
  rcases Option.or_eq_some_iff.mp hmember with hrel | ⟨-, hp⟩
  · exact Or.inl (relation?_iff.mpr ⟨r, hr, hrel⟩)
  · exact Or.inr (permission?_iff.mpr ⟨r, hr, hp⟩)

theorem permission?_iff_member? {t : Table} (ht : Filed t) {m : MemberId} {p : Member} :
    permission? t m = some p ↔ t.member? m = some p ∧ p.kind = .permission := by
  constructor
  · intro hp
    exact ⟨ht.member?_eq hp, ht.permission_kind hp⟩
  · rintro ⟨hfound, hkind⟩
    rcases relation_or_permission hfound with hrel | hp
    · rw [ht.relation_kind hrel] at hkind
      cases hkind
    · exact hp

theorem isOpen_iff_of_member? {t : Table} (ht : Filed t) {m : MemberId} {found : Member}
    (hfound : t.member? m = some found) :
    IsOpen t m ↔ found.kind = .permission ∧ followsEdges found = true := by
  simp only [IsOpen, permission?_iff_member? ht, hfound, Option.some.injEq, and_assoc,
    exists_eq_left']

theorem relation?_iff_member? {t : Table} (ht : Filed t) {m : MemberId} {rel : Member} :
    relation? t m = some rel ↔ t.member? m = some rel ∧ rel.kind = .relation := by
  constructor
  · intro hrel
    obtain ⟨r, hr, hget⟩ := relation?_iff.mp hrel
    refine ⟨Option.bind_eq_some_iff.mpr ⟨r, hr, ?_⟩, ht.relation_kind hrel⟩
    rw [Resource.member?, hget, Option.some_or]
  · rintro ⟨hfound, hkind⟩
    rcases relation_or_permission hfound with hrel | hp
    · exact hrel
    · rw [ht.permission_kind hp] at hkind
      cases hkind

/-- The diagnostics of relations tell the missing parts of their references. -/
theorem mem_allRelationDiagnostics {t : Table} (ht : Filed t) {m : MemberId} {reason : Fault} :
    (∃ d ∈ allRelationDiagnostics t, d.member = m ∧ d.fault = reason) ↔
      ∃ rel, relation? t m = some rel ∧ rel.activeOverride = none ∧
        ∃ e ∈ rel.edges, Dangles t (e.type, e.subject) reason := by
  constructor
  · rintro ⟨d, hd, rfl, rfl⟩
    obtain ⟨⟨type, r⟩, hr, hd⟩ := List.mem_flatMap.mp hd
    obtain ⟨rel, hrel, hd⟩ := List.mem_flatMap.mp hd
    have hget : t.get? type = some r := SortedMap.mem_entries_iff.mp hr
    obtain ⟨name, hname⟩ := SortedMap.mem_values_iff.mp hrel
    obtain rfl : rel.name = name := ((ht type r hget).relation name rel hname).2
    rw [relationDiagnostics] at hd
    split at hd
    · next hf =>
      obtain ⟨reason, hreason, rfl⟩ := List.mem_map.mp hd
      obtain ⟨e, he, hfault⟩ := List.mem_filterMap.mp hreason
      refine ⟨rel, relation?_iff.mpr ⟨r, hget, hname⟩, ?_, e, he, edgeFault?_iff.mp hfault⟩
      exact (followsEdges_iff.mp hf).1
    · cases hd
  · rintro ⟨rel, hrel, hoverride, e, he, hd⟩
    obtain ⟨r, hr, hget⟩ := relation?_iff.mp hrel
    have hname : rel.name = m.member := ((ht m.type r hr).relation m.member rel hget).2
    have hf : followsEdges rel = true :=
      followsEdges_iff.mpr ⟨hoverride, List.ne_nil_of_mem he⟩
    refine ⟨⟨⟨m.type, rel.name⟩, reason, [⟨m.type, rel.name⟩]⟩, ?_, by rw [hname], rfl⟩
    refine List.mem_flatMap.mpr ⟨_, SortedMap.mem_entries_iff.mpr hr, ?_⟩
    refine List.mem_flatMap.mpr ⟨rel, SortedMap.mem_values_iff.mpr ⟨_, hget⟩, ?_⟩
    rw [relationDiagnostics, if_pos hf]
    exact List.mem_map.mpr ⟨reason, List.mem_filterMap.mpr ⟨e, he, edgeFault?_iff.mpr hd⟩, rfl⟩

/-- A declared reference of one member to another. -/
def DeclaredHop (t : Table) (a b : MemberId) : Prop := ∃ found, t.member? a = some found ∧
  (b.type, .userset b.member) ∈ declared found ∧ b.type ≠ anyType

/-- Declared references lead from one member to another. -/
abbrev Leads (t : Table) : MemberId → MemberId → Prop := Relation.ReflTransGen (DeclaredHop t)

/-- A userset in the override of a member that a permission without override leads to. -/
inductive Deferred (t : Table) : String × SubjectRelation → Prop
  | intro {start p b found subjects type relation} (hstart : permission? t start = some p)
      (hoverride : p.activeOverride = none) (hleads : Leads t start b)
      (hfound : t.member? b = some found) (hsubjects : found.activeOverride = some subjects)
      (hmem : (type, .userset relation) ∈ subjects.entries) (hany : type ≠ anyType) :
      Deferred t (type, .userset relation)

/-- A reference of a member without override that names something missing. -/
inductive BadReference (t : Table) (m : MemberId) (reason : Fault) : Prop
  | relation {rel e} (hrel : relation? t m = some rel) (hoverride : rel.activeOverride = none)
      (he : e ∈ rel.edges) (h : Dangles t (e.type, e.subject) reason)
  | permission {p e} (hp : permission? t m = some p) (hoverride : p.activeOverride = none)
      (he : e ∈ p.edges) (h : Dangles t (e.type, e.subject) reason)

/-- A reference that resolution follows names something missing. -/
inductive Broken (t : Table) (reason : Fault) : Prop
  | reference {m} (h : BadReference t m reason)
  | override {ref} (hdeferred : Deferred t ref) (h : Dangles t ref reason)

/-- All references that resolution follows name what exists. -/
structure Linked (t : Table) : Prop where
  relations : ∀ m rel, relation? t m = some rel → rel.activeOverride = none →
    ∀ e ∈ rel.edges, Names t (e.type, e.subject)
  permissions : ∀ m p, permission? t m = some p → p.activeOverride = none →
    ∀ e ∈ p.edges, Names t (e.type, e.subject)
  overrides : ∀ ref, Deferred t ref → Names t ref

theorem linked_iff_not_broken {t : Table} : Linked t ↔ ∀ reason, ¬ Broken t reason := by
  constructor
  · rintro ⟨hrelations, hpermissions, hoverrides⟩ reason h
    rcases h with ⟨hrel | hp⟩ | ⟨hdeferred, h⟩
    · next hoverride he h => exact names_iff.mp (hrelations _ _ hrel hoverride _ he) reason h
    · next hoverride he h => exact names_iff.mp (hpermissions _ _ hp hoverride _ he) reason h
    · exact names_iff.mp (hoverrides _ hdeferred) reason h
  · intro h
    refine ⟨?_, ?_, ?_⟩
    · intro m rel hrel hoverride e he
      exact names_iff.mpr fun reason hd => h reason (.reference (.relation hrel hoverride he hd))
    · intro m p hp hoverride e he
      exact names_iff.mpr fun reason hd => h reason (.reference (.permission hp hoverride he hd))
    · intro ref hdeferred
      exact names_iff.mpr fun reason hd => h reason (.override hdeferred hd)

theorem declared_of_override {m : Member} {subjects : SubjectMap}
    (h : m.activeOverride = some subjects) : declared m = subjects.entries := by
  rw [declared, h]

/-- A member without override goes on to other members by its edges only. -/
theorem edge_of_userset {m : Member} (h : m.activeOverride = none) {type relation : String}
    (hmem : (type, .userset relation) ∈ declared m) :
    ∃ e ∈ m.edges, e.type = type ∧ e.subject = .userset relation := by
  cases hf : followsEdges m with
  | true =>
    rw [declared_of_follows hf] at hmem
    obtain ⟨e, he, heq⟩ := List.mem_map.mp hmem
    exact ⟨e, he, Prod.mk.inj heq⟩
  | false =>
    have hfixed : fixedSubjects m = SubjectMap.wildcard := by rw [fixedSubjects, h]; rfl
    rw [declared_of_not_follows hf, hfixed] at hmem
    simp [SubjectMap.wildcard, SortedMap.insert, SortedMap.place, SortedMap.empty] at hmem

/-- An edge of an open permission leads to a member by a walk that stays clear of the permission. -/
def Entered (t s : Table) (b : MemberId) : Prop :=
  ∃ m edges, (m, edges) ∈ openPermissions t ∧ ∃ e ∈ edges, ∃ x, e.target? = some x ∧ x ≠ m ∧
    Walk s [m] x b

theorem entered_of_target {t s : Table} {m : MemberId} {edges : List Edge} {e : Edge}
    {x : MemberId} (hm : (m, edges) ∈ openPermissions t) (he : e ∈ edges)
    (htarget : e.target? = some x) : IsOpen t x ∨ Entered t s x := by
  by_cases hx : x = m
  · exact Or.inl (hx ▸ isOpen_iff.mpr ⟨edges, hm⟩)
  · exact Or.inr ⟨m, edges, hm, e, he, x, htarget, hx, .refl⟩

/-- Declared references lead from members that are open or entered to such members only. -/
theorem entered_of_leads {t s : Table} (ht : Filed t) (hs : Variant (seeded t) s) {a b : MemberId}
    (ha : IsOpen t a ∨ Entered t s a) (h : Leads t a b) : IsOpen t b ∨ Entered t s b := by
  induction h with
  | refl => exact ha
  | @tail b c _ hstep ih =>
    obtain ⟨found, hfound, hmem, hany⟩ := hstep
    by_cases hb : IsOpen t b
    · obtain ⟨edges, hopen, e, he, htype, hsubject⟩ := edge_of_declared ht hb hfound hmem
      exact entered_of_target hopen he (target?_eq.mpr ⟨htype, hsubject⟩)
    · obtain ⟨m, edges, hopen, e, he, x, htarget, hne, hw⟩ := ih.resolve_left hb
      by_cases hc : c = m
      · exact Or.inl (hc ▸ isOpen_iff.mpr ⟨edges, hopen⟩)
      · have hhop : Hop s b c := ⟨_, references_of_not_open ht hs hb hfound, hmem, hany⟩
        have hw' : Walk s [m] x c := hw.tail ⟨hhop, by simpa using hc⟩
        exact Or.inr ⟨m, edges, hopen, e, he, x, htarget, hne, hw'⟩

private theorem not_dangles_of_open {t : Table} (ht : Filed t) {m : MemberId} (hm : IsOpen t m)
    (reason : Fault) : ¬ Dangles t (m.type, .userset m.member) reason := by
  obtain ⟨p, hp, -⟩ := hm
  intro h
  have hfind := find_eq_error.mpr h
  rw [find_eq_ok.mpr (ht.member?_eq hp)] at hfind
  cases hfind

theorem not_override_of_open {t : Table} (ht : Filed t) {m : MemberId} (hm : IsOpen t m)
    {found : Member} (hfound : t.member? m = some found) : found.activeOverride = none := by
  obtain ⟨p, hp, hfollows⟩ := hm
  obtain rfl := Option.some.inj ((ht.member?_eq hp).symm.trans hfound)
  exact (followsEdges_iff.mp hfollows).1

/-- A permission without override leads to overridden members by its edges, so it is open. -/
theorem isOpen_of_leads {t : Table} (ht : Filed t) {start b : MemberId} {p found : Member}
    {subjects : SubjectMap} (hstart : permission? t start = some p)
    (hoverride : p.activeOverride = none) (hleads : Leads t start b)
    (hfound : t.member? b = some found) (hsubjects : found.activeOverride = some subjects) :
    IsOpen t start := by
  have hp := ht.member?_eq hstart
  rcases hleads.cases_head with rfl | ⟨next, ⟨first, hfirst, hmem, -⟩, -⟩
  · obtain rfl := Option.some.inj (hp.symm.trans hfound)
    rw [hsubjects] at hoverride
    cases hoverride
  · obtain rfl := Option.some.inj (hp.symm.trans hfirst)
    obtain ⟨e, he, -⟩ := edge_of_userset hoverride hmem
    exact ⟨p, hstart, followsEdges_iff.mpr ⟨hoverride, List.ne_nil_of_mem he⟩⟩

section Stage
variable {t s : Table} (ht : Filed t) (hs : Variant (seeded t) s)
include ht hs

theorem gives_missing {m : MemberId} {reason : Fault}
    (h : Dangles t (m.type, .userset m.member) reason) : Gives s m (.error reason) :=
  .missing ((find_stage ht hs).mpr (find_eq_error.mpr h))

/-- A permission comes upon what is missing of its own references. -/
theorem edgeGives_of_dangles {m : MemberId} (hm : IsOpen t m) {e : Edge} {reason : Fault}
    (h : Dangles t (e.type, e.subject) reason) : EdgeGives s m e (.error reason) := by
  obtain ⟨type, subject, caveat⟩ := e
  cases subject with
  | itself =>
    cases h with
    | type hr =>
      refine .noType rfl ?_
      rw [contains_stage hs, hr]
      rfl
  | userset relation =>
    have hne : (⟨type, relation⟩ : MemberId) ≠ m := by
      rintro rfl
      exact not_dangles_of_open ht hm reason h
    exact .walk (x := ⟨type, relation⟩) rfl hne .refl (gives_missing ht hs h)

/-- Some permission comes upon what is missing of a member that an entered member refers to. -/
theorem edgeGives_of_entered {b c : MemberId} {reason : Fault} (hentered : Entered t s b)
    (hhop : Hop s b c) (h : Dangles t (c.type, .userset c.member) reason) :
    ∃ m edges, (m, edges) ∈ openPermissions t ∧ ∃ e ∈ edges, EdgeGives s m e (.error reason) := by
  obtain ⟨m, edges, hm, e, he, x, htarget, hne, hw⟩ := hentered
  have hnew : c ∉ [m] := by
    rw [List.mem_singleton]
    rintro rfl
    exact not_dangles_of_open ht (isOpen_iff.mpr ⟨edges, hm⟩) reason h
  have hw' : Walk s [m] x c := hw.tail ⟨hhop, hnew⟩
  exact ⟨m, edges, hm, e, he, .walk htarget hne hw' (gives_missing ht hs h)⟩

/-- Some permission comes upon what is missing of a deferred reference. -/
theorem edgeGives_of_deferred {ref : String × SubjectRelation} {reason : Fault}
    (hdeferred : Deferred t ref) (h : Dangles t ref reason) :
    ∃ m edges, (m, edges) ∈ openPermissions t ∧ ∃ e ∈ edges, EdgeGives s m e (.error reason) := by
  cases hdeferred with
  | @intro start p b found subjects type relation hstart hoverride hleads hfound hsubjects hmem
      hany =>
    have hopen := isOpen_of_leads ht hstart hoverride hleads hfound hsubjects
    have hb : ¬ IsOpen t b := fun ho => by
      have hnone := not_override_of_open ht ho hfound
      rw [hsubjects] at hnone
      cases hnone
    have hentered := (entered_of_leads ht hs (Or.inl hopen) hleads).resolve_left hb
    have hhop : Hop s b ⟨type, relation⟩ :=
      ⟨_, references_of_not_open ht hs hb hfound, declared_of_override hsubjects ▸ hmem, hany⟩
    exact edgeGives_of_entered ht hs hentered hhop h

end Stage

private theorem broken_of_hop {t : Table} {start a b : MemberId} {p : Member} {reason : Fault}
    (hstart : permission? t start = some p) (hoverride : p.activeOverride = none)
    (hleads : Leads t start a) (hhop : DeclaredHop t a b)
    (h : Dangles t (b.type, .userset b.member) reason) : Broken t reason := by
  obtain ⟨found, hfound, hmem, hany⟩ := hhop
  cases ho : found.activeOverride with
  | some subjects =>
    rw [declared_of_override ho] at hmem
    exact .override (.intro hstart hoverride hleads hfound ho hmem hany) h
  | none =>
    obtain ⟨e, he, htype, hsubject⟩ := edge_of_userset ho hmem
    rw [← htype, ← hsubject] at h
    rcases relation_or_permission hfound with hrel | hp
    · exact .reference (.relation hrel ho he h)
    · exact .reference (.permission hp ho he h)

theorem leads_of_walk {t s : Table} (ht : Filed t) (hs : Variant (seeded t) s) (hp : PlainOpen s)
    {avoid : Trail} {a b : MemberId} (h : Walk s avoid a b) : Leads t a b := by
  induction h with
  | refl => exact .refl
  | tail _ hstep ih =>
    obtain ⟨-, hany, found, hfound, hmem⟩ := declared_of_hop ht hs hp hstep.1
    exact ih.tail ⟨found, hfound, hmem, hany⟩

/-- A walk of a permission's edge stays at its target or ends with a declared reference of a member
that the permission leads to. -/
theorem hop_of_edge_walk {t s : Table} (ht : Filed t) (hstar : t.get? anyType = none)
    (hs : Variant (seeded t) s) (hplain : PlainOpen s) {m x b : MemberId} {p : Member} {e : Edge}
    (hp : permission? t m = some p) (hfollows : followsEdges p = true) (he : e ∈ p.edges)
    (htarget : e.target? = some x) (hw : Walk s [m] x b) :
    b = x ∨ ∃ a, Leads t m a ∧ DeclaredHop t a b := by
  rcases (leads_of_walk ht hs hplain hw).cases_tail with rfl | ⟨a, hleads, hhop⟩
  · exact Or.inl rfl
  · have hx : ∃ found, t.member? x = some found := by
      rcases hleads.cases_head with rfl | ⟨_, ⟨found, hfound, -⟩, -⟩
      · obtain ⟨found, hfound, -⟩ := hhop
        exact ⟨found, hfound⟩
      · exact ⟨found, hfound⟩
    obtain ⟨found, hfound⟩ := hx
    obtain ⟨htype, hsubject⟩ := target?_eq.mp htarget
    have hmem : (x.type, .userset x.member) ∈ declared p := by
      rw [declared_of_follows hfollows, ← htype, ← hsubject]
      exact List.mem_map.mpr ⟨e, he, rfl⟩
    have hfirst : DeclaredHop t m x := ⟨p, ht.member?_eq hp, hmem, type_ne_any hstar hfound⟩
    exact Or.inr ⟨a, .head hfirst hleads, hhop⟩

private theorem broken_of_edgeGives {t s : Table} (ht : Filed t) (hstar : t.get? anyType = none)
    (hs : Variant (seeded t) s) (hplain : PlainOpen s) {m : MemberId} {edges : List Edge} {e : Edge}
    {reason : Fault} (hm : (m, edges) ∈ openPermissions t) (he : e ∈ edges)
    (h : EdgeGives s m e (.error reason)) : Broken t reason := by
  obtain ⟨p, hp, hfollows, rfl⟩ := mem_openPermissions.mp hm
  have hoverride : p.activeOverride = none := (followsEdges_iff.mp hfollows).1
  generalize ho : Except.error reason = o at h
  cases h with
  | object => cases ho
  | noType _ hno =>
    cases ho
    have hnone : t.get? e.type = none := by
      rw [contains_stage hs] at hno
      simpa using hno
    exact .reference (.permission hp hoverride he (.type hnone))
  | @walk x b _ htarget _ hw hg =>
    subst ho
    cases hg with
    | missing hmissing =>
      have hdangles := find_eq_error.mp ((find_stage ht hs).mp hmissing)
      rcases hop_of_edge_walk ht hstar hs hplain hp hfollows he htarget hw with
        rfl | ⟨a, hleads, hhop⟩
      · obtain ⟨htype, hsubject⟩ := target?_eq.mp htarget
        rw [← htype, ← hsubject] at hdangles
        exact .reference (.permission hp hoverride he hdangles)
      · exact broken_of_hop hp hoverride hleads hhop hdangles

/-- The diagnostics of references: those of relations and those of permissions. -/
def referenceDiagnostics (t : Table) : List Diagnostic :=
  allRelationDiagnostics t ++ permissionDiagnostics none (seeded t)

theorem mem_referenceDiagnostics_of_badReference {t : Table} (ht : Filed t) {m : MemberId}
    {reason : Fault} (h : BadReference t m reason) :
    ∃ d ∈ referenceDiagnostics t, d.member = m ∧ d.fault = reason := by
  cases h with
  | relation hrel hoverride he h =>
    obtain ⟨d, hd, htells⟩ := (mem_allRelationDiagnostics ht).mpr ⟨_, hrel, hoverride, _, he, h⟩
    exact ⟨d, List.mem_append_left _ hd, htells⟩
  | @permission p e hp hoverride he h =>
    have hfollows := followsEdges_iff.mpr ⟨hoverride, List.ne_nil_of_mem he⟩
    have hopen : (m, p.edges) ∈ openPermissions (seeded t) := by
      rw [openPermissions_seeded]
      exact mem_openPermissions.mpr ⟨p, hp, hfollows, rfl⟩
    have hgives := edgeGives_of_dangles ht (Variant.refl (seeded t)) ⟨p, hp, hfollows⟩ h
    obtain ⟨d, hd, htells⟩ := mem_permissionDiagnostics.mpr ⟨p.edges, hopen, e, he, hgives⟩
    exact ⟨d, List.mem_append_right _ hd, htells⟩

/-- The faults that are told of references are what is broken. -/
theorem broken_iff {t : Table} (ht : Filed t) (hstar : t.get? anyType = none) {reason : Fault} :
    Broken t reason ↔ ∃ d ∈ referenceDiagnostics t, d.fault = reason := by
  constructor
  · rintro (h | ⟨hdeferred, h⟩)
    · obtain ⟨d, hd, -, hfault⟩ := mem_referenceDiagnostics_of_badReference ht h
      exact ⟨d, hd, hfault⟩
    · obtain ⟨m, edges, hm, e, he, hgives⟩ :=
        edgeGives_of_deferred ht (Variant.refl (seeded t)) hdeferred h
      rw [← openPermissions_seeded] at hm
      obtain ⟨d, hd, -, hfault⟩ := mem_permissionDiagnostics.mpr ⟨edges, hm, e, he, hgives⟩
      exact ⟨d, List.mem_append_right _ hd, hfault⟩
  · rintro ⟨d, hd, rfl⟩
    rcases List.mem_append.mp hd with hd | hd
    · obtain ⟨rel, hrel, hoverride, e, he, hdangles⟩ :=
        (mem_allRelationDiagnostics ht).mp ⟨d, hd, rfl, rfl⟩
      exact .reference (.relation hrel hoverride he hdangles)
    · obtain ⟨edges, hm, e, he, hgives⟩ := mem_permissionDiagnostics.mp ⟨d, hd, rfl, rfl⟩
      rw [openPermissions_seeded] at hm
      exact broken_of_edgeGives ht hstar (Variant.refl _) (plainOpen_seeded t) hm he hgives

/-- The first two stages of resolution find nothing wrong just where all references name what
exists. -/
theorem linked_iff {t : Table} (ht : Filed t) (hstar : t.get? anyType = none) :
    Linked t ↔ referenceDiagnostics t = [] := by
  rw [linked_iff_not_broken, List.eq_nil_iff_forall_not_mem]
  constructor
  · intro h d hd
    exact h d.fault ((broken_iff ht hstar).mpr ⟨d, hd, rfl⟩)
  · intro h reason hbroken
    obtain ⟨d, hd, -⟩ := (broken_iff ht hstar).mp hbroken
    exact h d hd

theorem Linked.faultless {t s : Table} (h : Linked t) (ht : Filed t) (hstar : t.get? anyType = none)
    (hs : Variant (seeded t) s) (hplain : PlainOpen s) : Faultless t s :=
  (faultless_iff hs hplain).mpr (List.append_eq_nil_iff.mp ((linked_iff ht hstar).mp h)).2

end AuthSchema.Resolution
