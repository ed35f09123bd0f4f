import AuthSchema.Proofs.Comments
import AuthSchema.Proofs.Grammar
import AuthSchema.Proofs.Leaves
import AuthSchema.Proofs.Pipeline
import AuthSchema.Proofs.SchemaEncoding

/-! Resolved schemas that come out of their encoding as they went in. Constraints and comments are
read by the same rule as an encoding, and resolution makes up no usersets, so a userset without a
relation can only come from a reference in an expression. -/
namespace AuthSchema

namespace SubjectRelation

/-- A subject that is read as it is written. -/
def Legible (s : SubjectRelation) : Prop := s.normal = s

private theorem legible_itself : Legible .itself := rfl

private theorem legible_userset {relation : String} (h : relation ≠ "" ∧ relation ≠ selfMark) :
    (userset relation).Legible :=
  if_neg (not_or.mpr h)

/-- What has been read by name is read by its name again. -/
theorem legible_ofName (name : Option String) : (ofName name).Legible := by
  cases name with
  | none => exact legible_itself
  | some name =>
    rw [ofName]
    split
    · exact legible_itself
    · next h => exact legible_userset (by simpa using h)

end SubjectRelation

namespace SubjectMap

def Legible (m : SubjectMap) : Prop := ∀ type s, m.get? type = some s → s.Legible

private theorem Legible.normal_eq {m : SubjectMap} (h : m.Legible) : m.normal = m :=
  SortedMap.map_eq_self h

private theorem Plain.legible {m : SubjectMap} (h : m.Plain) : m.Legible := by
  intro type s hs
  rw [h type s hs]
  exact SubjectRelation.legible_itself

private theorem legible_collect {l : List (String × SubjectRelation)} (h : ∀ e ∈ l, e.2.Legible) :
    (collect l).Legible :=
  fun type s hs => h (type, s) (mem_of_mem_collect (SortedMap.mem_entries_iff.mpr hs))

private theorem legible_wildcard : wildcard.Legible := by
  have hall : ∀ e ∈ [(anyType, SubjectRelation.itself)], e.2.Legible := by
    intro e he
    obtain rfl := List.mem_singleton.mp he
    exact SubjectRelation.legible_itself
  exact legible_collect hall

end SubjectMap

private theorem Edge.normal_eq {e : Edge} (h : e.subject.Legible) : e.normal = e :=
  congrArg (fun s => { e with subject := s }) h

/-- A member all of whose subjects are read as they are written. -/
structure Member.Legible (m : Member) : Prop where
  subjects : m.subjects.Legible
  override : ∀ subjects, m.override = some subjects → subjects.Legible
  edges : ∀ e ∈ m.edges, e.subject.Legible

private theorem Member.Legible.normal_eq {m : Member} (h : m.Legible) : m.normal = m := by
  have hoverride : m.override.map SubjectMap.normal = m.override := by
    cases ho : m.override with
    | none => rfl
    | some subjects => exact congrArg some (h.override subjects ho).normal_eq
  have hedges : m.edges.map Edge.normal = m.edges.map id :=
    List.map_congr_left fun e he => Edge.normal_eq (h.edges e he)
  rw [normal, h.subjects.normal_eq, hoverride, hedges, List.map_id]

structure Resource.Legible (r : Resource) : Prop where
  relations : ∀ name m, r.relations.get? name = some m → m.Legible
  permissions : ∀ name m, r.permissions.get? name = some m → m.Legible

private theorem Resource.Legible.normal_eq {r : Resource} (h : r.Legible) : r.normal = r := by
  rw [normal, SortedMap.map_eq_self fun name m hm => (h.relations name m hm).normal_eq,
    SortedMap.map_eq_self fun name m hm => (h.permissions name m hm).normal_eq]

namespace Table

def Legible (t : Table) : Prop := ∀ type r, t.get? type = some r → r.Legible

private theorem Legible.normal_eq {t : Table} (h : t.Legible) : t.normal = t :=
  SortedMap.map_eq_self fun type r hr => (h type r hr).normal_eq

private theorem Legible.narrow {t : Table} (h : t.Legible) : t.narrow.Legible := by
  intro type r hr
  rw [Table.narrow, SortedMap.get?_map] at hr
  obtain ⟨source, hsource, rfl⟩ := Option.map_eq_some_iff.mp hr
  exact ⟨(h type source hsource).relations, (h type source hsource).permissions⟩

end Table

private theorem Schema.legible_hide {s : Schema} (h : s.resources.Legible) (hidden : String) :
    (s.hide hidden).resources.Legible := by
  rw [hide]
  split
  · exact h
  · intro type r hr
    rw [SortedMap.get?_map] at hr
    obtain ⟨source, hsource, rfl⟩ := Option.map_eq_some_iff.mp hr
    have hlegible := h type source hsource
    exact ⟨fun name m hm => hlegible.relations name m (SortedMap.get?_filterKeys.mp hm).1,
      fun name m hm => hlegible.permissions name m (SortedMap.get?_filterKeys.mp hm).1⟩

namespace Directive

private theorem SpellsSubject.legible {value : List Char} {type : String} {s : SubjectRelation}
    (h : SpellsSubject value type s) : s.Legible := by
  cases h with
  | type _ => exact SubjectRelation.legible_itself
  | itself _ => exact SubjectRelation.legible_itself
  | userset _ hn => exact ofName_identifier hn ▸ SubjectRelation.legible_ofName _

private theorem legible_of_declared? {line : List Char} {e : String × SubjectRelation}
    (h : declared? line = some e) : e.2.Legible := by
  rw [declared?] at h
  split at h
  · next type s hline =>
    cases h
    obtain ⟨body, -, hsays⟩ := ofLine_eq_ok_some.mp hline
    cases hsays with
    | subject _ _ h => exact h.legible
  · cases h

end Directive

private theorem Instructions.legible_override {comments : List String} {subjects : SubjectMap}
    (h : (ofComments comments).override = some subjects) : subjects.Legible := by
  rw [override_ofComments] at h
  split at h
  · cases h
  · cases h
    refine SubjectMap.legible_collect fun e he => ?_
    obtain ⟨line, -, hline⟩ := List.mem_filterMap.mp he
    exact Directive.legible_of_declared? hline

namespace Compiled

/-- The relation that a reference in an expression names. -/
def Operand.named? : Operand → Option String
  | .computed relation => some relation
  | .arrow _ relation => some relation
  | _ => none

/-- No reference in an expression names a relation that would be read as the object itself. -/
def Declaration.NamesRelations (m : Declaration) : Prop :=
  ∀ leaf, m.HasLeaf leaf → ∀ relation, leaf.named? = some relation →
    relation ≠ "" ∧ relation ≠ selfMark

def Schema.NamesRelations (c : Schema) : Prop :=
  ∀ d ∈ c.definitions, ∀ m ∈ d.members, m.NamesRelations

private theorem Operand.exists_named {d : Definition} {leaf : Operand} {e : Edge}
    (h : e ∈ leaf.edges d) : ∃ relation, leaf.named? = some relation ∧
      e.subject = .userset relation := by
  cases leaf with
  | this | nested => cases h
  | computed relation =>
    obtain rfl := List.mem_singleton.mp h
    exact ⟨relation, rfl, rfl⟩
  | arrow tupleset relation =>
    obtain ⟨type, -, rfl⟩ := List.mem_map.mp h
    exact ⟨relation, rfl, rfl⟩

private theorem Declaration.NamesRelations.legible {m : Declaration} (h : m.NamesRelations)
    {d : Definition} {kind : Kind} {e : Edge} (he : e ∈ m.edges d kind) : e.subject.Legible := by
  rcases Declaration.mem_edges.mp he with ⟨leaf, hleaf, hedge⟩ | ⟨-, c, -, rfl⟩
  · obtain ⟨relation, hnamed, hsubject⟩ := Operand.exists_named hedge
    rw [hsubject]
    exact SubjectRelation.legible_userset (h leaf hleaf relation hnamed)
  · rw [Constraint.edge]
    cases c.everyone with
    | true => exact SubjectRelation.legible_itself
    | false => exact SubjectRelation.legible_ofName _

end Compiled

private theorem Member.legible_unresolved (d : Compiled.Definition) {m : Compiled.Declaration}
    (h : m.NamesRelations) : (Member.unresolved d m).Legible := by
  refine ⟨SubjectMap.plain_empty.legible, fun _ => Instructions.legible_override, ?_⟩
  intro e he
  rw [Member.unresolved_edges] at he
  split at he
  · cases he
  · exact h.legible he

private theorem Table.legible_ofCompiled {c : Compiled.Schema} {t : Table} (h : c.NamesRelations)
    (ht : Table.ofCompiled c = .ok t) : t.Legible := by
  intro type r hr
  obtain ⟨d, hd, -, hdefinition⟩ := (Table.get?_ofCompiled ht).mp hr
  have hholds := Resource.holds_ofDefinition hdefinition
  constructor
  · intro name member hget
    obtain ⟨m, hm, -, -, rfl⟩ := (hholds.relations name member).mp hget
    exact Member.legible_unresolved d (h d hd m hm)
  · intro name member hget
    obtain ⟨m, hm, -, -, rfl⟩ := (hholds.permissions name member).mp hget
    exact Member.legible_unresolved d (h d hd m hm)

namespace Resolution

private theorem legible_fixedSubjects {m : Member} (h : m.Legible) : (fixedSubjects m).Legible := by
  rw [fixedSubjects]
  cases ho : m.activeOverride with
  | none => exact SubjectMap.legible_wildcard
  | some subjects => exact h.override subjects (Option.filter_eq_some_iff.mp ho).1

private theorem legible_relationSubjects (t : Table) {m : Member} (h : m.Legible) :
    (relationSubjects t m).Legible := by
  rw [relationSubjects]
  split
  · refine SubjectMap.legible_collect fun ref href => ?_
    obtain ⟨e, he, rfl⟩ := List.mem_map.mp href
    exact h.edges e (List.mem_filter.mp he).1
  · exact legible_fixedSubjects h

/-- Resolution adds no subjects that are not read as they are written. -/
theorem legible_solution {limit : Option Nat} {t : Table} (h : t.Legible) :
    (solution limit t).Legible := by
  intro type r hr
  rw [get?_stage (variant_solution limit t)] at hr
  obtain ⟨source, hsource, rfl⟩ := Option.map_eq_some_iff.mp hr
  have hlegible := h type source hsource
  constructor
  · intro name member hget
    rw [SortedMap.get?_map] at hget
    obtain ⟨m, hm, rfl⟩ := Option.map_eq_some_iff.mp hget
    have hmember := hlegible.relations name m hm
    exact ⟨legible_relationSubjects t hmember, hmember.override, hmember.edges⟩
  · intro name member hget
    rw [SortedMap.get?_map] at hget
    obtain ⟨p, hp, rfl⟩ := Option.map_eq_some_iff.mp hget
    have hmember := hlegible.permissions name p hp
    refine ⟨?_, hmember.override, hmember.edges⟩
    cases hf : followsEdges p with
    | true =>
      exact (plain_solution limit ⟨p, permission?_iff.mpr ⟨source, hsource, hp⟩, hf⟩).legible
    | false => exact legible_fixedSubjects hmember

end Resolution

namespace Schema

private theorem legible_ofCompiled {plan : Plan} {c : Compiled.Schema} {s : Schema}
    (h : c.NamesRelations) (hs : ofCompiled plan c = .ok s) : s.resources.Legible := by
  obtain ⟨t, ht, -, rfl⟩ := ofCompiled_eq_ok_solution.mp hs
  exact legible_hide (Resolution.legible_solution (Table.legible_ofCompiled h ht)).narrow _

/-- Reading undoes writing up to usersets without a relation, and where no reference in a compiled
schema names such a relation it gives back the resolved schema. -/
theorem encoding_roundtrip :
    (∀ s : Schema, ofJson? s.toJson = some s.normal) ∧
    ∀ plan c s, Compiled.Schema.NamesRelations c → ofCompiled plan c = .ok s →
      ofJson? s.toJson = some s := by
  refine ⟨ofJson?_toJson, fun plan c s hnames hs => ?_⟩
  have hnormal : s.normal = s := by rw [normal, (legible_ofCompiled hnames hs).normal_eq]
  rw [ofJson?_toJson, hnormal]

/-- The references of the folders name members. -/
theorem namesRelations_folders : folders.NamesRelations := by
  intro d hd m hm leaf ⟨x, hx, hleaf⟩ relation hnamed
  simp only [folders, List.mem_cons, List.not_mem_nil, or_false] at hd
  rcases hd with rfl | rfl | rfl
  · cases hm
  · obtain rfl := List.mem_singleton.mp hm
    cases hx
  · simp only [List.mem_cons, List.not_mem_nil, or_false] at hm
    rcases hm with rfl | rfl | rfl | rfl | rfl <;> cases hx <;>
      simp [Compiled.Expression.toOperand, Compiled.Expression.ofUnion,
        Compiled.Operand.hasLeaf_nested] at hleaf <;>
      rcases hleaf with rfl | rfl | rfl <;> cases hnamed <;> decide

theorem encoding_roundtrip_folders : folders.NamesRelations ∧
    ofCompiled {} folders =
      .ok ⟨(Resolution.solution none foldersTable).narrow, caveatsOf folders⟩ ∧
    ofJson? (toJson ⟨(Resolution.solution none foldersTable).narrow, caveatsOf folders⟩) =
      some ⟨(Resolution.solution none foldersTable).narrow, caveatsOf folders⟩ :=
  ⟨namesRelations_folders, ofCompiled_folders_ok,
    encoding_roundtrip.2 _ _ _ namesRelations_folders ofCompiled_folders_ok⟩

end Schema

end AuthSchema
