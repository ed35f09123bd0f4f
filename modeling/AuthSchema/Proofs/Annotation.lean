import AuthSchema.Proofs.Comments
import AuthSchema.Proofs.Guarantees
import AuthSchema.Proofs.Overriding

/-! Comments that are added to a member of a schema. All of the schema but the member stays as it
was, as neither kinds nor edges are read off comments; the member has what the comments declare
in place of its edges. Types that are nowhere defined do no harm there, unless a permission comes
to a userset of one. -/
namespace AuthSchema

namespace Compiled

/-- Adds comments to a member. -/
def Declaration.annotate (m : Declaration) (comments : List String) : Declaration :=
  { m with notes := m.notes ++ comments.map .comment }

/-- A member of a definition, with comments added if it is the one of two names. -/
def Definition.annotateMember (d : Definition) (id : MemberId) (comments : List String)
    (m : Declaration) : Declaration :=
  if ⟨d.name, m.name⟩ = id then m.annotate comments else m

def Definition.annotate (d : Definition) (id : MemberId) (comments : List String) : Definition :=
  { d with members := d.members.map (d.annotateMember id comments) }

/-- Adds comments to the member of two names. -/
def Schema.annotate (c : Schema) (id : MemberId) (comments : List String) : Schema :=
  { c with definitions := c.definitions.map fun d => d.annotate id comments }

/-- Comments note no kind. -/
theorem kindOf_append_comments (notes : List Note) (comments : List String) :
    kindOf (notes ++ comments.map .comment) = kindOf notes := by
  induction notes with
  | nil =>
    induction comments with
    | nil => rfl
    | cons c rest ih => exact ih
  | cons note rest ih =>
    cases note with
    | kind mark =>
      cases mark with
      | relation => rfl
      | permission => rfl
      | unspecified => exact ih
    | comment content => exact ih
    | other => exact ih

private theorem Declaration.comments_annotate (m : Declaration) (comments : List String) :
    (m.annotate comments).comments = m.comments ++ comments := by
  rw [Declaration.comments, Declaration.comments, annotate, List.filterMap_append,
    List.filterMap_map]
  simp

namespace Definition
variable (d : Definition) (id : MemberId) (comments : List String) (m : Declaration)

@[simp] private theorem name_annotateMember : (d.annotateMember id comments m).name = m.name := by
  rw [annotateMember]
  split <;> rfl

private theorem kindOf_annotateMember :
    kindOf (d.annotateMember id comments m).notes = kindOf m.notes := by
  rw [annotateMember]
  split
  · exact kindOf_append_comments m.notes comments
  · rfl

private theorem constrainedTypes_annotateMember :
    (d.annotateMember id comments m).constrainedTypes = m.constrainedTypes := by
  rw [annotateMember]
  split <;> rfl

private theorem wellNamed_annotate (h : d.WellNamed) : (d.annotate id comments).WellNamed := by
  constructor
  · intro m' hm'
    obtain ⟨m, hm, rfl⟩ := List.mem_map.mp hm'
    rw [kindOf_annotateMember]
    exact h.classified m hm
  · have hnames : Declaration.name ∘ d.annotateMember id comments = Declaration.name :=
      funext (d.name_annotateMember id comments)
    rw [annotate, List.map_map, hnames]
    exact h.distinct

private theorem member?_annotate (name : String) : (d.annotate id comments).member? name =
    (d.member? name).map (d.annotateMember id comments) := by
  have hname : (fun m : Declaration => decide (m.name = name)) ∘ d.annotateMember id comments =
      fun m => decide (m.name = name) := by
    funext m
    rw [Function.comp_apply, name_annotateMember]
  rw [member?, member?, annotate, List.find?_map, hname]

private theorem operandEdges_annotate :
    Operand.edges (d.annotate id comments) = Operand.edges d := by
  funext o
  cases o with
  | this => rfl
  | computed relation => rfl
  | arrow tupleset relation =>
    rw [Operand.edges, Operand.edges, tuplesetTypes, tuplesetTypes, member?_annotate]
    cases d.member? tupleset with
    | none => rfl
    | some m =>
      rw [Option.map_some, Option.elim_some, Option.elim_some, constrainedTypes_annotateMember]
  | nested union exclusion intersection => rfl

private theorem unresolved_annotate :
    Member.unresolved (d.annotate id comments) = Member.unresolved d :=
  Member.unresolved_congr (d.operandEdges_annotate id comments)

end Definition

private theorem Schema.WellNamed.annotate {c : Schema} (h : c.WellNamed) (id : MemberId)
    (comments : List String) : (c.annotate id comments).WellNamed := by
  constructor
  · intro d' hd'
    obtain ⟨d, hd, rfl⟩ := List.mem_map.mp hd'
    exact d.wellNamed_annotate id comments (h.definitions d hd)
  · rw [Schema.annotate, List.map_map]
    exact h.distinct

end Compiled

/-- A member whose comments declare subjects that are added to it has these for its override. -/
theorem Member.activeOverride_annotate {d : Compiled.Definition} {m : Compiled.Declaration}
    {comments : List String} (hbare : Instructions.subjects m.comments = [])
    (htags : Instructions.subjects comments ≠ []) :
    (Member.unresolved d (m.annotate comments)).activeOverride =
      some (SubjectMap.collect (Instructions.subjects comments)) := by
  have hoverride : (Member.unresolved d (m.annotate comments)).override =
      some (SubjectMap.collect (Instructions.subjects comments)) := by
    change (Instructions.ofComments (m.annotate comments).comments).override = _
    rw [Instructions.override_ofComments, Compiled.Declaration.comments_annotate,
      Instructions.subjects_append, hbare, List.nil_append, if_neg htags]
  rw [activeOverride, hoverride, Option.filter_some_pos]
  simpa using SubjectMap.collect_not_empty htags

namespace Table
variable {c : Compiled.Schema} {t t' : Table} {id : MemberId} {comments : List String}

/-- The table of an annotated schema has the members of the schema, one of them annotated. -/
theorem member?_annotate (ht' : ofCompiled (c.annotate id comments) = .ok t') {m : MemberId}
    {found : Member} : t'.member? m = some found ↔
      ∃ d ∈ c.definitions, d.name = m.type ∧ ∃ x ∈ d.members, x.name = m.member ∧
        found = Member.unresolved d (if m = id then x.annotate comments else x) := by
  rw [member?_ofCompiled ht']
  constructor
  · rintro ⟨_, hd', htype, _, hx', hmember, hfound⟩
    obtain ⟨d, hd, rfl⟩ := List.mem_map.mp hd'
    obtain ⟨x, hx, rfl⟩ := List.mem_map.mp hx'
    rw [Compiled.Definition.name_annotateMember] at hmember
    change d.name = m.type at htype
    obtain rfl : (⟨d.name, x.name⟩ : MemberId) = m := by rw [hmember, htype]
    refine ⟨d, hd, rfl, x, hx, rfl, ?_⟩
    rw [hfound, Compiled.Definition.unresolved_annotate, Compiled.Definition.annotateMember]
  · rintro ⟨d, hd, htype, x, hx, hmember, hfound⟩
    obtain rfl : (⟨d.name, x.name⟩ : MemberId) = m := by rw [hmember, htype]
    refine ⟨d.annotate id comments, List.mem_map.mpr ⟨d, hd, rfl⟩, rfl,
      d.annotateMember id comments x, List.mem_map.mpr ⟨x, hx, rfl⟩, ?_, ?_⟩
    · exact d.name_annotateMember id comments x
    · rw [hfound, Compiled.Definition.unresolved_annotate, Compiled.Definition.annotateMember]

/-- Subjects that are declared for a member override it, and leave the table as it was beside. -/
theorem overridden_annotate {d : Compiled.Definition} {m : Compiled.Declaration}
    (ht : ofCompiled c = .ok t)
    (ht' : ofCompiled (c.annotate ⟨d.name, m.name⟩ comments) = .ok t')
    (hd : d ∈ c.definitions) (hm : m ∈ d.members)
    (hbare : Instructions.subjects m.comments = [])
    (htags : Instructions.subjects comments ≠ []) :
    t.Overridden t' ⟨d.name, m.name⟩
      (SubjectMap.collect (Instructions.subjects comments)) := by
  refine ⟨?_, ?_, ?_, ?_⟩
  · intro type
    rw [Bool.eq_iff_iff, SortedMap.contains_eq_true_iff, SortedMap.contains_eq_true_iff,
      mem_keys_ofCompiled ht', mem_keys_ofCompiled ht]
    simp [Compiled.Schema.annotate, Compiled.Definition.annotate]
  · intro other hne
    apply Option.ext
    intro found
    rw [member?_annotate ht', member?_ofCompiled ht]
    simp only [if_neg hne]
  · exact ⟨_, (member?_ofCompiled ht).mpr ⟨d, hd, rfl, m, hm, rfl, rfl⟩⟩
  · refine ⟨_, (member?_annotate ht').mpr ⟨d, hd, rfl, m, hm, rfl, rfl⟩, ?_⟩
    rw [if_pos rfl]
    exact Member.activeOverride_annotate hbare htags

end Table

namespace Schema
variable {plan : Plan} {c : Compiled.Schema} {s : Schema} {d : Compiled.Definition}
  {m : Compiled.Declaration} {comments : List String}

/-- Subjects of types that a schema does not define may be declared for a member that declares none
so far. They are its subjects; but where one of them is a userset, the schema is refused as soon as
a permission comes to the member. -/
theorem ofCompiled_annotate (hlimit : plan.policy.depthLimit = none)
    (hc : ofCompiled plan c = .ok s) (hd : d ∈ c.definitions) (hm : m ∈ d.members)
    (hbare : Instructions.subjects m.comments = []) (htags : Instructions.subjects comments ≠ [])
    (hundefined : ∀ ref ∈ Instructions.subjects comments, ∀ d' ∈ c.definitions, d'.name ≠ ref.1) :
    ∃ t, Table.ofCompiled (c.annotate ⟨d.name, m.name⟩ comments) = .ok t ∧
      ((∃ s', ofCompiled plan (c.annotate ⟨d.name, m.name⟩ comments) = .ok s') ↔
        (Resolution.Visited t ⟨d.name, m.name⟩ →
          (SubjectMap.collect (Instructions.subjects comments)).Terminal)) ∧
      ∀ s', ofCompiled plan (c.annotate ⟨d.name, m.name⟩ comments) = .ok s' →
        (plan.hidden = "" ∨ plan.hidden.toList.isPrefixOf m.name.toList = false) →
        ∃ found, s'.resources.member? ⟨d.name, m.name⟩ = some found ∧
          found.subjects = SubjectMap.collect (Instructions.subjects comments) := by
  obtain ⟨t, ht, hclean, -⟩ := ofCompiled_eq_ok_solution.mp hc
  have hwell := Table.exists_ofCompiled.mp ⟨t, ht⟩
  obtain ⟨t', ht'⟩ := Table.exists_ofCompiled.mpr (hwell.annotate ⟨d.name, m.name⟩ comments)
  have hoverridden := Table.overridden_annotate ht ht' hd hm hbare htags
  have hmissing : ∀ type relation, (type, .userset relation) ∈
      (SubjectMap.collect (Instructions.subjects comments)).entries → type ≠ anyType →
        t.get? type = none := by
    intro type relation hmem _
    exact Table.get?_eq_none_of_undefined ht (hundefined _ (SubjectMap.mem_of_mem_collect hmem))
  rw [hlimit] at hclean
  have haccepts := Resolution.complaints_overridden_eq_nil (Resolution.filed_of_compiled ht)
    (Resolution.filed_of_compiled ht') hoverridden hclean hmissing
  refine ⟨t', ht', ?_, ?_⟩
  · rw [← haccepts, ← hlimit]
    simp only [ofCompiled_eq_ok_of_table ht', exists_and_left, exists_eq, and_true]
  · intro s' hs' hshown
    obtain ⟨-, rfl⟩ := (ofCompiled_eq_ok_of_table ht').mp hs'
    obtain ⟨source, hsource, hactive⟩ := hoverridden.member
    have hmember := Resolution.subjects_of_override
      (Resolution.variant_solution plan.policy.depthLimit t') (Resolution.filed_of_compiled ht')
      hsource hactive
    exact ⟨_, member?_hide.mpr ⟨(Table.member?_narrow _ _).trans hmember, hshown⟩, rfl⟩

/-- The folders, with a subject type for those who view one that is nowhere defined. -/
def taggedFolders : Compiled.Schema :=
  folders.annotate ⟨"folder", "viewer"⟩ ["//spicegen:subject_type=widget"]

theorem ofCompiled_annotate_folders : ∃ s', ofCompiled {} taggedFolders = .ok s' ∧
    ∃ found, s'.resources.member? ⟨"folder", "viewer"⟩ = some found ∧
      found.subjects = SubjectMap.collect [("widget", .itself)] := by
  have hviewer : ∃ d ∈ folders.definitions, ∃ m ∈ d.members,
      d.name = "folder" ∧ m.name = "viewer" ∧ Instructions.subjects m.comments = [] :=
    ⟨_, .tail _ (.tail _ (.head _)), _, .tail _ (.head _), rfl, rfl, rfl⟩
  have hsubjects : Instructions.subjects ["//spicegen:subject_type=widget"] =
      [("widget", .itself)] := by decide +kernel
  have hundefined : ∀ ref ∈ Instructions.subjects ["//spicegen:subject_type=widget"],
      ∀ d' ∈ folders.definitions, d'.name ≠ ref.1 := by
    rw [hsubjects]
    decide
  have hterminal : (SubjectMap.collect [("widget", .itself)]).Terminal := by
    intro type relation hmem
    cases List.mem_singleton.mp (SubjectMap.mem_of_mem_collect hmem)
  obtain ⟨d, hd, m, hm, hdname, hmname, hbare⟩ := hviewer
  obtain ⟨t, -, haccepts, hgives⟩ :=
    ofCompiled_annotate rfl ofCompiled_folders_ok hd hm hbare (by simp [hsubjects]) hundefined
  rw [hdname, hmname, hsubjects] at haccepts hgives
  obtain ⟨s', hs'⟩ := haccepts.mpr fun _ => hterminal
  exact ⟨s', hs', hgives s' hs' (Or.inl rfl)⟩

open Compiled in
/-- Documents with those who view them. -/
def documents : Compiled.Schema where
  definitions := [
    { name := "user" },
    { name := "document", members := [
      (Declaration.relation "viewer").allow { type := "user" },
      .permission "view" (.ofUnion [.computed "viewer"])] }]

/-- A userset of a type that is nowhere defined gets the schema refused, as a permission comes to
the member that it is declared for. -/
theorem ofCompiled_annotate_documents :
    (∃ s, ofCompiled {} documents = .ok s) ∧
    (∀ d ∈ documents.definitions, ∀ m ∈ d.members, Instructions.subjects m.comments = []) ∧
    (∀ d ∈ documents.definitions, d.name ≠ "widget") ∧
    Instructions.subjects ["//spicegen:subject_type=widget#member"] =
      [("widget", .userset "member")] ∧
    ofCompiled {} (documents.annotate ⟨"document", "viewer"⟩
      ["//spicegen:subject_type=widget#member"]) =
        .error (.unresolved [⟨⟨"document", "view"⟩, .unknownType "widget",
          [⟨"document", "view"⟩, ⟨"document", "viewer"⟩]⟩]) := by
  have htable : Table.ofCompiled documents =
      .ok ((Table.ofCompiled documents).toOption.getD .empty) := by decide +kernel
  refine ⟨⟨_, (ofCompiled_eq_ok_of_table htable).mpr ⟨by decide +kernel, rfl⟩⟩, by decide,
    by decide, by decide +kernel, by decide +kernel⟩

end Schema

end AuthSchema
