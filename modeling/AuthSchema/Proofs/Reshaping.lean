import AuthSchema.Proofs.Alike
import AuthSchema.Proofs.Leaves
import AuthSchema.Proofs.Pipeline

/-! The shape in which members are written down. Only the set of the leaves of an expression matters
and, of direct constraints, only the set of the subjects they admit; nesting, order, repetition, the
kind of set operation and caveats show in the edges of a resolved schema and nowhere else. -/
namespace AuthSchema

namespace Compiled

/-- Subjects of a type may be assigned directly, under whatever caveat. -/
def Declaration.Admits (m : Declaration) (type : String) (subject : SubjectRelation) : Prop :=
  ∃ c ∈ m.constraints.getD [], c.type = type ∧ c.edge.subject = subject

/-- The same member with the leaves of its expression, and the subjects it admits directly, written
down in any other way. -/
structure Declaration.Reshaped (m m' : Declaration) : Prop where
  name : m.name = m'.name
  notes : m.notes = m'.notes
  leaves : ∀ leaf, m.HasLeaf leaf ↔ m'.HasLeaf leaf
  admits : ∀ type subject, m.Admits type subject ↔ m'.Admits type subject

structure Definition.Reshaped (d d' : Definition) : Prop where
  name : d.name = d'.name
  members : List.Forall₂ Declaration.Reshaped d.members d'.members

/-- The same definitions with the same members, each of them in any shape. -/
def Schema.Reshaped (c c' : Schema) : Prop :=
  List.Forall₂ Definition.Reshaped c.definitions c'.definitions

theorem Declaration.mem_constrainedTypes {m : Declaration} {type : String} :
    type ∈ m.constrainedTypes ↔ ∃ subject, m.Admits type subject := by
  rw [constrainedTypes, mem_distinct, List.mem_map]
  constructor
  · rintro ⟨c, hc, rfl⟩
    exact ⟨_, c, hc, rfl, rfl⟩
  · rintro ⟨_, c, hc, htype, -⟩
    exact ⟨c, hc, htype⟩

/-- The member of a name has direct constraints on a type. -/
def Definition.Points (d : Definition) (tupleset type : String) : Prop :=
  ∃ m subject, d.member? tupleset = some m ∧ m.Admits type subject

private theorem Definition.mem_tuplesetTypes {d : Definition} {tupleset type : String} :
    type ∈ d.tuplesetTypes tupleset ↔ d.Points tupleset type ∨
      (type = tupleset ∧ ∀ other, ¬ d.Points tupleset other) := by
  have hpoints : ∀ other, other ∈ (d.member? tupleset).elim [] Declaration.constrainedTypes ↔
      d.Points tupleset other := by
    intro other
    cases hm : d.member? tupleset with
    | none => simp [Points, hm]
    | some m => simp [Points, hm, Declaration.mem_constrainedTypes]
  simp only [← hpoints]
  rw [tuplesetTypes]
  split
  · next hnil => simp [hnil]
  · next hne =>
    have hsome : ∃ other, other ∈ (d.member? tupleset).elim [] Declaration.constrainedTypes :=
      List.exists_mem_of_ne_nil _ hne
    constructor
    · exact Or.inl
    · rintro (h | ⟨-, hnone⟩)
      · exact h
      · obtain ⟨other, hother⟩ := hsome
        exact absurd hother (hnone other)

theorem Declaration.Reshaped.symm {m m' : Declaration} (h : m.Reshaped m') : m'.Reshaped m :=
  ⟨h.name.symm, h.notes.symm, fun leaf => (h.leaves leaf).symm,
    fun type subject => (h.admits type subject).symm⟩

namespace Definition.Reshaped
variable {d d' : Definition} (h : d.Reshaped d')
include h

theorem symm : d'.Reshaped d :=
  ⟨h.name.symm, (h.members.imp fun _ _ => Declaration.Reshaped.symm).flip⟩

private theorem wellNamed (hwell : d.WellNamed) : d'.WellNamed := by
  constructor
  · intro m' hm'
    obtain ⟨m, hm, hmember⟩ := exists_mem_of_forall₂ h.symm.members hm'
    rw [hmember.notes]
    exact hwell.classified m hm
  · have hnames : d.members.map Declaration.name = d'.members.map Declaration.name :=
      map_eq_of_forall₂ (fun _ _ => Declaration.Reshaped.name) h.members
    rw [← hnames]
    exact hwell.distinct

private theorem points {tupleset type : String} (hp : d.Points tupleset type) :
    d'.Points tupleset type := by
  obtain ⟨m, subject, hm, hadmits⟩ := hp
  have hfound : Option.Rel Declaration.Reshaped (d.member? tupleset) (d'.member? tupleset) :=
    find?_forall₂ (fun a b hab => by rw [hab.name]) h.members
  rw [hm] at hfound
  generalize hm' : d'.member? tupleset = found at hfound
  cases hfound with
  | some hmember => exact ⟨_, subject, hm', (hmember.admits type subject).mp hadmits⟩

private theorem mem_operandEdges {o : Operand} {e : Edge} (he : e ∈ o.edges d) :
    e ∈ o.edges d' := by
  cases o with
  | this => cases he
  | nested => cases he
  | computed relation =>
    rw [Operand.edges, ← h.name]
    exact he
  | arrow tupleset relation =>
    obtain ⟨type, htype, rfl⟩ := List.mem_map.mp he
    refine List.mem_map.mpr ⟨type, ?_, rfl⟩
    rw [mem_tuplesetTypes] at htype ⊢
    rcases htype with hp | ⟨rfl, hnone⟩
    · exact Or.inl (h.points hp)
    · exact Or.inr ⟨rfl, fun other hp => hnone other (h.symm.points hp)⟩

private theorem mem_edges {m m' : Declaration} (hm : m.Reshaped m') {kind : Kind} {e : Edge}
    (he : e ∈ m.edges d kind) :
    ∃ e' ∈ m'.edges d' kind, e'.type = e.type ∧ e'.subject = e.subject := by
  rcases Declaration.mem_edges.mp he with ⟨leaf, hleaf, hgives⟩ | ⟨hkind, c, hc, rfl⟩
  · refine ⟨e, Declaration.mem_edges.mpr (Or.inl ⟨leaf, ?_, h.mem_operandEdges hgives⟩), rfl, rfl⟩
    exact (hm.leaves leaf).mp hleaf
  · obtain ⟨c', hc', htype, hsubject⟩ := (hm.admits _ _).mp ⟨c, hc, rfl, rfl⟩
    exact ⟨c'.edge, Declaration.mem_edges.mpr (Or.inr ⟨hkind, c', hc', rfl⟩), htype, hsubject⟩

private theorem sameReferences {m m' : Declaration} (hm : m.Reshaped m') (kind : Kind) :
    SameReferences (m.edges d kind) (m'.edges d' kind) := by
  intro type subject
  constructor
  · rintro ⟨e, he, rfl, rfl⟩
    exact h.mem_edges hm he
  · rintro ⟨e, he, rfl, rfl⟩
    exact h.symm.mem_edges hm.symm he

private theorem unresolved {m m' : Declaration} (hm : m.Reshaped m') :
    (Member.unresolved d m).Alike (Member.unresolved d' m') := by
  have hrest : (Member.unresolved d m).withoutEdges = (Member.unresolved d' m').withoutEdges := by
    simp only [Member.unresolved, Member.withoutEdges, Declaration.comments, hm.name, hm.notes]
  have hoverride : (Member.unresolved d m).activeOverride =
      (Member.unresolved d' m').activeOverride := Member.activeOverride_eq_of_withoutEdges hrest
  refine ⟨hrest, ?_⟩
  rw [Member.unresolved_edges, Member.unresolved_edges, hoverride, hm.notes]
  split
  · exact fun _ _ => Iff.rfl
  · exact h.sameReferences hm _

private theorem lists {kind : Kind} {members members' : SortedMap Member}
    (hlist : Resource.Lists d kind d.members members)
    (hlist' : Resource.Lists d' kind d'.members members') :
    SortedMap.Matches Member.Alike members members' := by
  refine hlist.matches hlist' h.members (fun _ _ => Declaration.Reshaped.name) ?_ ?_
  · rintro m m' hm _ ⟨hkind, rfl⟩
    exact ⟨_, ⟨hm.notes ▸ hkind, rfl⟩, h.unresolved hm⟩
  · rintro m m' hm _ ⟨hkind, rfl⟩
    exact ⟨_, ⟨hm.notes ▸ hkind, rfl⟩, h.unresolved hm⟩

private theorem ofDefinition {r : Resource} (hr : Resource.ofDefinition d = .ok r) :
    ∃ r', Resource.ofDefinition d' = .ok r' ∧ r.Alike r' := by
  have hwell := Resource.exists_ofDefinition.mp ⟨r, hr⟩
  obtain ⟨r', hr'⟩ := Resource.exists_ofDefinition.mpr (h.wellNamed hwell)
  have hholds := Resource.holds_ofDefinition hr
  have hholds' := Resource.holds_ofDefinition hr'
  refine ⟨r', hr', ?_, ?_, ?_, ?_, ?_⟩
  · rw [hholds.name, hholds'.name, h.name]
  · rw [hholds.permissionSubject, hholds'.permissionSubject]
  · rw [hholds.relationSubject, hholds'.relationSubject]
  · exact h.lists hholds.relations hholds'.relations
  · exact h.lists hholds.permissions hholds'.permissions

end Definition.Reshaped

namespace Schema.Reshaped
variable {c c' : Schema} (h : c.Reshaped c')
include h

theorem symm : c'.Reshaped c := (h.imp fun _ _ => Definition.Reshaped.symm).flip

private theorem wellNamed (hwell : c.WellNamed) : c'.WellNamed := by
  constructor
  · intro d' hd'
    obtain ⟨d, hd, hd'd⟩ := exists_mem_of_forall₂ h.symm hd'
    exact hd'd.symm.wellNamed (hwell.definitions d hd)
  · have hnames : c.definitions.map Definition.name = c'.definitions.map Definition.name :=
      map_eq_of_forall₂ (fun _ _ => Definition.Reshaped.name) h
    rw [← hnames]
    exact hwell.distinct

/-- Schemas of the same shape have alike tables. -/
theorem ofCompiled {t : Table} (ht : Table.ofCompiled c = .ok t) :
    ∃ t', Table.ofCompiled c' = .ok t' ∧ t.Alike t' := by
  have hwell := Table.exists_ofCompiled.mp ⟨t, ht⟩
  obtain ⟨t', ht'⟩ := Table.exists_ofCompiled.mpr (h.wellNamed hwell)
  refine ⟨t', ht', ?_⟩
  refine (Table.holds_ofCompiled ht).resources.matches (Table.holds_ofCompiled ht').resources h
    (fun _ _ => Definition.Reshaped.name) ?_ ?_
  · exact fun d d' hd r hr => hd.ofDefinition hr
  · intro d d' hd r' hr'
    obtain ⟨r, hr, halike⟩ := hd.symm.ofDefinition hr'
    exact ⟨r, hr, halike.symm⟩

end Schema.Reshaped

/-- The same member with its expression twice below other operations and beside what is assigned to
it, and its constraints backwards, each with a caveat and without. -/
def Declaration.entangled (m : Declaration) : Declaration :=
  let inner := m.expression.toList.map Expression.toOperand
  { m with
    constraints := some ((m.constraints.getD []).reverse.flatMap
      fun c => [{ c with caveat := some "office_hours" }, c])
    expression := some (.ofIntersection
      [.nested none (some inner) none, .this, .nested (some inner) none none]) }

def Schema.entangled (c : Schema) : Schema :=
  { c with definitions :=
      c.definitions.map fun d => { d with members := d.members.map Declaration.entangled } }

private theorem Declaration.reshaped_entangled (m : Declaration) : m.Reshaped m.entangled := by
  refine ⟨rfl, rfl, ?_, ?_⟩
  · intro leaf
    constructor
    · rintro ⟨x, hx, h⟩
      refine ⟨_, rfl, .intersection List.mem_cons_self (.exclusion ?_ h)⟩
      simp [hx]
    · rintro ⟨x, hx, h⟩
      cases hx
      cases h with
      | intersection hchild h =>
        have hinner : ∀ child ∈ m.expression.toList.map Expression.toOperand,
            child.HasLeaf leaf → m.HasLeaf leaf := by
          intro child hchild h
          obtain ⟨x, hx, rfl⟩ := List.mem_map.mp hchild
          exact ⟨x, Option.mem_toList.mp hx, h⟩
        simp only [List.mem_cons, List.not_mem_nil, or_false] at hchild
        rcases hchild with rfl | rfl | rfl
        · cases h with
          | exclusion hchild h => exact hinner _ hchild h
        · cases h
        · cases h with
          | union hchild h => exact hinner _ hchild h
  · intro type subject
    constructor
    · rintro ⟨c, hc, htype, hsubject⟩
      exact ⟨c, List.mem_flatMap.mpr ⟨c, List.mem_reverse.mpr hc, by simp⟩, htype, hsubject⟩
    · rintro ⟨c, hc, htype, hsubject⟩
      obtain ⟨source, hsource, hc⟩ := List.mem_flatMap.mp hc
      refine ⟨source, List.mem_reverse.mp hsource, ?_⟩
      rcases List.mem_pair.mp hc with rfl | rfl
      · exact ⟨htype, hsubject⟩
      · exact ⟨htype, hsubject⟩

private theorem Schema.reshaped_entangled (c : Schema) : c.Reshaped c.entangled := by
  rw [Reshaped, entangled, List.forall₂_map_right_iff, List.forall₂_same]
  intro d _
  refine ⟨rfl, ?_⟩
  rw [List.forall₂_map_right_iff, List.forall₂_same]
  intro m _
  exact m.reshaped_entangled

end Compiled

private theorem subjectTypes_withoutEdges (members : SortedMap Member) :
    subjectTypes (members.map fun _ m => m.withoutEdges) = subjectTypes members := by
  simp only [subjectTypes, SortedMap.values, SortedMap.map, List.map_map, List.flatMap_map,
    Function.comp_def]
  rfl

private theorem Table.narrow_withoutEdges (t : Table) :
    t.narrow.withoutEdges = t.withoutEdges.narrow := by
  simp only [withoutEdges, narrow, SortedMap.map_map, Resource.narrow, Resource.withoutEdges,
    subjectTypes_withoutEdges]

private theorem Schema.hide_withoutEdges (s : Schema) (hidden : String) :
    Table.withoutEdges (s.hide hidden).resources =
      (hide { s with resources := Table.withoutEdges s.resources } hidden).resources := by
  rw [hide, hide]
  split
  · rfl
  · simp only [Table.withoutEdges, SortedMap.map_map, Resource.withoutEdges,
      SortedMap.filterKeys_map]

namespace Schema
variable {c c' : Compiled.Schema} {plan : Plan}

private theorem ofCompiled_of_reshaped (h : c.Reshaped c') {s : Schema}
    (hs : ofCompiled plan c = .ok s) : ∃ s', ofCompiled plan c' = .ok s' ∧
      Table.withoutEdges s.resources = Table.withoutEdges s'.resources := by
  obtain ⟨t, r, ht, hr, rfl⟩ := ofCompiled_eq_ok.mp hs
  obtain ⟨t', ht', halike⟩ := h.ofCompiled ht
  obtain ⟨hnone, rfl⟩ := Resolution.resolve_eq_ok.mp hr
  have hfiled := Resolution.filed_of_compiled ht
  have hfiled' := Resolution.filed_of_compiled ht'
  have hnone' := Resolution.complaints_eq_nil_of_alike hfiled hfiled' halike hnone
  have hsame : Table.withoutEdges (Resolution.solution plan.policy.depthLimit t) =
      Table.withoutEdges (Resolution.solution plan.policy.depthLimit t') :=
    Resolution.solution_withoutEdges_eq hfiled hfiled' halike
  refine ⟨_, ofCompiled_eq_ok.mpr
    ⟨t', _, ht', Resolution.resolve_eq_ok.mpr ⟨hnone', rfl⟩, rfl⟩, ?_⟩
  rw [hide_withoutEdges, hide_withoutEdges]
  simp only [Table.narrow_withoutEdges, hsame]
  rw [hide, hide]
  split <;> rfl

/-- Schemas of the same shape are both resolved or both refused, and resolved schemas differ in the
edges of their members at most: names, subjects and narrowings are the same. -/
theorem ofCompiled_reshaped (h : c.Reshaped c') (plan : Plan) :
    ((∃ s, ofCompiled plan c = .ok s) ↔ ∃ s', ofCompiled plan c' = .ok s') ∧
    ∀ s s', ofCompiled plan c = .ok s → ofCompiled plan c' = .ok s' →
      Table.withoutEdges s.resources = Table.withoutEdges s'.resources := by
  refine ⟨⟨?_, ?_⟩, ?_⟩
  · rintro ⟨s, hs⟩
    obtain ⟨s', hs', -⟩ := ofCompiled_of_reshaped h hs
    exact ⟨s', hs'⟩
  · rintro ⟨s', hs'⟩
    obtain ⟨s, hs, -⟩ := ofCompiled_of_reshaped h.symm hs'
    exact ⟨s, hs⟩
  · intro s s' hs hs'
    obtain ⟨found, hfound, hsame⟩ := ofCompiled_of_reshaped h hs
    rw [hs'] at hfound
    cases hfound
    exact hsame

theorem ofCompiled_reshaped_folders : folders.Reshaped folders.entangled ∧
    Table.ofCompiled folders.entangled ≠ .ok foldersTable ∧
    ∃ s, ofCompiled {} folders.entangled = .ok s ∧ Table.withoutEdges s.resources =
      Table.withoutEdges (Resolution.solution none foldersTable).narrow := by
  have hreshaped := folders.reshaped_entangled
  obtain ⟨hiff, hsame⟩ := ofCompiled_reshaped hreshaped {}
  obtain ⟨s, hs⟩ := hiff.mp ⟨_, ofCompiled_folders_ok⟩
  have hrest := hsame _ _ ofCompiled_folders_ok hs
  exact ⟨hreshaped, by decide +kernel, s, hs, hrest.symm⟩

end Schema

end AuthSchema
