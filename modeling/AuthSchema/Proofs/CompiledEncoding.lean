import AuthSchema.Compiled.Codec
import AuthSchema.Proofs.Encoding
import Mathlib.Data.List.Permutation

/-! Compiled schemas as JSON and back. Reading undoes writing, whatever is left out of a declaration
and however deeply its expression is nested: what is absent is not written, so it stays apart from
what is there and empty. -/
namespace AuthSchema.Compiled

open Json (written record?_written tagged?_written optionalMember_eq orNull_lossless
  orNull_of_ne_null listOf?_lossless mapOf?_lossless)

private theorem KindMark.ofJson?_toJson (k : KindMark) : KindMark.ofJson? k.toJson = some k := by
  cases k <;> rfl

private theorem Note.ofJson?_toJson (n : Note) : Note.ofJson? n.toJson = some n := by
  cases n with
  | kind mark =>
    have htagged : (toJson (.kind mark)).tagged? =
        some (.str "relation_metadata", .obj [("kind", mark.toJson)]) :=
      tagged?_written [("kind", true, some mark.toJson)] (by simp) _
    have hfields : (Json.obj [("kind", mark.toJson)]).record? [("kind", true)] =
        some [some mark.toJson] := rfl
    rw [ofJson?, htagged]
    simp [hfields, Json.str?, Json.required, KindMark.ofJson?_toJson]
  | comment content =>
    have htagged : (toJson (.comment content)).tagged? =
        some (.str "doc_comment", .obj [("content", .str content)]) :=
      tagged?_written [("content", true, some (.str content))] (by simp) _
    have hfields : (Json.obj [("content", .str content)]).record? [("content", true)] =
        some [some (.str content)] := rfl
    rw [ofJson?, htagged]
    simp [hfields, Json.str?, Json.required]
  | other => rfl

namespace Constraint

private theorem record?_toJson (c : Constraint) :
    c.toJson.record? [("namespace", true), ("relation", false), ("public_wildcard", false),
      ("required_caveat", false)] =
    some [some (.str c.type), c.relation.map .str, some (.bool c.everyone),
      c.caveat.map .str] := by
  have hwritten : c.toJson = .obj (written [("namespace", true, some (.str c.type)),
      ("relation", false, c.relation.map .str), ("public_wildcard", false, some (.bool c.everyone)),
      ("required_caveat", false, c.caveat.map .str)]) := by
    rw [toJson, optionalMember_eq, optionalMember_eq]
    cases c.relation <;> cases c.caveat <;> rfl
  rw [hwritten]
  exact record?_written (by simp) (by simp)

private theorem ofJson?_toJson (c : Constraint) : ofJson? c.toJson = some c := by
  have htext : ∀ text : Option String, Json.orNull Json.str? (text.map .str) = some text :=
    orNull_lossless Json.str?_str (by simp)
  rw [ofJson?, record?_toJson]
  simp [Json.required, Json.orDefault, Json.bool?, htext]

end Constraint

private theorem constraintsOfJson?_constraintsToJson (cs : List Constraint) :
    constraintsOfJson? (constraintsToJson cs) = some cs := by
  have hitems : Json.listOf? Constraint.ofJson? (.arr (cs.map Constraint.toJson)) = some cs :=
    listOf?_lossless Constraint.ofJson?_toJson cs
  have hfields : (constraintsToJson cs).record? [("allowed_direct_relations", false)] =
      some [some (.arr (cs.map Constraint.toJson))] := rfl
  rw [constraintsOfJson?, hfields]
  simp [Json.orDefault, hitems]

section Reading
variable {nested : Bool} {j : Json}

private theorem operation?_of_record? {items : List Json}
    (h : j.record? [("children", false)] = some [some (.arr items)]) :
    operation? nested j = operands? nested items := by
  rw [operation?]
  split
  · next hnone =>
    rw [h] at hnone
    cases hnone
  · next hsome =>
    rw [h] at hsome
    cases hsome
    rfl
  · next _ hno => exact absurd h (hno _)

private theorem Expression.read?_of_record? {union exclusion intersection : Option Json}
    (h : j.record? [("union", false), ("exclusion", false), ("intersection", false)] =
      some [union, exclusion, intersection]) :
    Expression.read? nested j = (do
      return ⟨← Json.orNull (operation? nested) union, ← Json.orNull (operation? nested) exclusion,
        ← Json.orNull (operation? nested) intersection⟩) := by
  rw [Expression.read?]
  split
  · next hsome =>
    rw [h] at hsome
    cases hsome
    simp only [Json.orNullWithin_eq]
  · next hno => exact absurd h (hno _ _ _)

/-- The tag of an operand says how its content is read. -/
theorem Operand.read?_of_tagged? {name : String} {content : Json} :
    j.tagged? = some (.str name, content) → Operand.read? nested j =
      match name with
      | "this" => (content.record? []).map fun _ => .this
      | "computed_userset" => do
        match ← content.record? [("relation", true)] with
        | [relation] => return .computed (← Json.required Json.str? relation)
        | _ => none
      | "tuple_to_userset" => do
        match ← content.record? [("tupleset", true), ("computed_userset", true)] with
        | [tupleset, relation] =>
          return .arrow (← Json.required Json.str? tupleset) (← Json.required Json.str? relation)
        | _ => none
      | "userset_rewrite" =>
        match content.record? [("rewrite", true)] with
        | some [some inner] =>
          (Expression.read? true inner).map fun e => .nested e.union e.exclusion e.intersection
        | _ => none
      | _ => none := by
  intro h
  rw [Operand.read?]
  split
  · next hnone =>
    rw [h] at hnone
    cases hnone
  · next hsome =>
    rw [h] at hsome
    cases hsome
    simp only [Operand.tagName?]
    split
    · next hname => cases hname; rfl
    · next hname => cases hname; rfl
    · next hname => cases hname; rfl
    · next hname =>
      cases hname
      split
      · next hfields => simp only [hfields]
      · next hno => split <;> simp_all
    · simp_all

private theorem operationMember_eq (name : String) (operation : Option (List Operand)) :
    operationMember name operation = written [(name, false, operation.map operationToJson)] := by
  cases operation with
  | none =>
    rw [operationMember]
    rfl
  | some operands =>
    rw [operationMember]
    rfl

private theorem Expression.record?_toJson (e : Expression) :
    e.toJson.record? [("union", false), ("exclusion", false), ("intersection", false)] =
      some [e.union.map operationToJson, e.exclusion.map operationToJson,
        e.intersection.map operationToJson] := by
  have hwritten : e.toJson = .obj (written [("union", false, e.union.map operationToJson),
      ("exclusion", false, e.exclusion.map operationToJson),
      ("intersection", false, e.intersection.map operationToJson)]) := by
    rw [Expression.toJson, operationMember_eq, operationMember_eq, operationMember_eq]
    cases e.union <;> cases e.exclusion <;> cases e.intersection <;> rfl
  rw [hwritten]
  exact record?_written (by simp) (by simp)

private theorem Expression.read?_of_operations {e : Expression}
    (h : ∀ operation ∈ [e.union, e.exclusion, e.intersection],
      Json.orNull (operation? nested) (operation.map operationToJson) = some operation) :
    Expression.read? nested e.toJson = some e := by
  rw [Expression.read?_of_record? e.record?_toJson, h e.union (by simp), h e.exclusion (by simp),
    h e.intersection (by simp)]
  rfl

private theorem orNull_operation?_some {operands : List Operand}
    (h : operands? nested (operandsToJson operands) = some operands) :
    Json.orNull (operation? nested) ((some operands).map operationToJson) =
      some (some operands) := by
  have hfields : (operationToJson operands).record? [("children", false)] =
      some [some (.arr (operandsToJson operands))] := rfl
  rw [Option.map_some, orNull_of_ne_null (by simp [operationToJson]),
    operation?_of_record? hfields, h, Option.map_some]

end Reading

-- By structural recursion on operands, on the operations of a nested expression and on lists.
mutual

/-- An operand is read as it was written, inside a nested expression and outside. -/
theorem Operand.read?_toJson (nested : Bool) :
    (o : Operand) → Operand.read? nested o.toJson = some o
  | .this => by
    have htagged : (Operand.toJson .this).tagged? = some (.str "this", .obj []) := by
      rw [Operand.toJson]
      exact tagged?_written [] (by simp) _
    rw [Operand.read?_of_tagged? htagged]
    rfl
  | .computed relation => by
    have htagged : (Operand.toJson (.computed relation)).tagged? =
        some (.str "computed_userset", .obj [("relation", .str relation)]) := by
      rw [Operand.toJson]
      exact tagged?_written [("relation", true, some (.str relation))] (by simp) _
    rw [Operand.read?_of_tagged? htagged]
    rfl
  | .arrow tupleset relation => by
    have htagged : (Operand.toJson (.arrow tupleset relation)).tagged? =
        some (.str "tuple_to_userset",
          .obj [("tupleset", .str tupleset), ("computed_userset", .str relation)]) := by
      rw [Operand.toJson]
      exact tagged?_written [("tupleset", true, some (.str tupleset)),
        ("computed_userset", true, some (.str relation))] (by simp) _
    rw [Operand.read?_of_tagged? htagged]
    rfl
  | .nested union exclusion intersection => by
    have htagged : (Operand.toJson (.nested union exclusion intersection)).tagged? =
        some (.str "userset_rewrite",
          .obj [("rewrite", Expression.toJson ⟨union, exclusion, intersection⟩)]) := by
      rw [Operand.toJson]
      exact tagged?_written [("rewrite", true,
        some (Expression.toJson ⟨union, exclusion, intersection⟩))] (by simp) _
    have hfields : (Json.obj [("rewrite",
        Expression.toJson ⟨union, exclusion, intersection⟩)]).record? [("rewrite", true)] =
        some [some (Expression.toJson ⟨union, exclusion, intersection⟩)] := rfl
    have hunion := orNull_operation?_map true union
    have hexclusion := orNull_operation?_map true exclusion
    have hintersection := orNull_operation?_map true intersection
    have hinner : Expression.read? true (Expression.toJson ⟨union, exclusion, intersection⟩) =
        some ⟨union, exclusion, intersection⟩ := by
      apply Expression.read?_of_operations
      simp [hunion, hexclusion, hintersection]
    rw [Operand.read?_of_tagged? htagged]
    simp only [hfields, hinner, Option.map_some]

private theorem orNull_operation?_map (nested : Bool) : (operation : Option (List Operand)) →
    Json.orNull (operation? nested) (operation.map operationToJson) = some operation
  | none => rfl
  | some operands => orNull_operation?_some (operands?_operandsToJson nested operands)

private theorem operands?_operandsToJson (nested : Bool) :
    (operands : List Operand) → operands? nested (operandsToJson operands) = some operands
  | [] => by rw [operandsToJson, operands?]
  | o :: rest => by
    rw [operandsToJson, operands?, Operand.read?_toJson nested o,
      operands?_operandsToJson nested rest]
    rfl

end

private theorem Expression.ofJson?_toJson (e : Expression) :
    Expression.ofJson? e.toJson = some e := by
  apply Expression.read?_of_operations
  intro operation _
  exact orNull_operation?_map false operation

namespace Declaration

private theorem record?_toJson (d : Declaration) :
    d.toJson.record? [("name", true), ("metadata", false), ("type_information", false),
      ("userset_rewrite", false)] =
    some [some (.str d.name), some (.arr (d.notes.map Note.toJson)),
      d.constraints.map constraintsToJson, d.expression.map Expression.toJson] := by
  have hwritten : d.toJson = .obj (written [("name", true, some (.str d.name)),
      ("metadata", false, some (.arr (d.notes.map Note.toJson))),
      ("type_information", false, d.constraints.map constraintsToJson),
      ("userset_rewrite", false, d.expression.map Expression.toJson)]) := by
    rw [toJson, optionalMember_eq, optionalMember_eq]
    cases d.constraints <;> cases d.expression <;> rfl
  rw [hwritten]
  exact record?_written (by simp) (by simp)

private theorem ofJson?_toJson (d : Declaration) : ofJson? d.toJson = some d := by
  have hnotes : Json.listOf? Note.ofJson? (.arr (d.notes.map Note.toJson)) = some d.notes :=
    listOf?_lossless Note.ofJson?_toJson _
  have hconstraints : Json.orNull constraintsOfJson? (d.constraints.map constraintsToJson) =
      some d.constraints :=
    orNull_lossless constraintsOfJson?_constraintsToJson (by simp [constraintsToJson]) _
  have hexpression : Json.orNull Expression.ofJson? (d.expression.map Expression.toJson) =
      some d.expression :=
    orNull_lossless Expression.ofJson?_toJson (by simp [Expression.toJson]) _
  rw [ofJson?, record?_toJson]
  simp [Json.required, Json.orDefault, hnotes, hconstraints, hexpression]

end Declaration

private theorem Definition.ofJson?_toJson (d : Definition) :
    Definition.ofJson? d.toJson = some d := by
  have hmembers : Json.listOf? Declaration.ofJson? (.arr (d.members.map Declaration.toJson)) =
      some d.members := listOf?_lossless Declaration.ofJson?_toJson _
  have hfields : d.toJson.record? [("name", true), ("relations", false)] =
      some [some (.str d.name), some (.arr (d.members.map Declaration.toJson))] := rfl
  rw [Definition.ofJson?, hfields]
  simp [Json.required, Json.orDefault, hmembers]

private theorem CaveatDeclaration.ofJson?_toJson (c : CaveatDeclaration) :
    CaveatDeclaration.ofJson? c.toJson = some c := by
  have hparameters : Json.mapOf? Json.str? (Json.ofMap .str c.parameters) = some c.parameters :=
    mapOf?_lossless Json.str?_str _
  have hfields : c.toJson.record? [("name", true), ("parameter_types", false)] =
      some [some (.str c.name), some (Json.ofMap .str c.parameters)] := rfl
  rw [CaveatDeclaration.ofJson?, hfields]
  simp [Json.required, Json.orDefault, hparameters]

namespace Schema

theorem ofJson?_toJson (s : Schema) : ofJson? s.toJson = some s := by
  have hdefinitions : Json.listOf? Definition.ofJson?
      (.arr (s.definitions.map Definition.toJson)) = some s.definitions :=
    listOf?_lossless Definition.ofJson?_toJson _
  have hcaveats : Json.listOf? CaveatDeclaration.ofJson?
      (.arr (s.caveats.map CaveatDeclaration.toJson)) = some s.caveats :=
    listOf?_lossless CaveatDeclaration.ofJson?_toJson _
  have hfields : s.toJson.record? [("object_definitions", false), ("caveat_definitions", false)] =
      some [some (.arr (s.definitions.map Definition.toJson)),
        some (.arr (s.caveats.map CaveatDeclaration.toJson))] := rfl
  rw [ofJson?, hfields]
  simp [Json.orDefault, hdefinitions, hcaveats]

/-- Every compiled schema is read as it was written, so no two have the same encoding, and a value
that can be read at all comes to the same schema when that is written and read again. -/
theorem encoding_faithful :
    (∀ s : Schema, ofJson? s.toJson = some s) ∧
    (∀ s s' : Schema, s.toJson = s'.toJson → s = s') ∧
    ∀ (j : Json) (s : Schema), ofJson? j = some s → ofJson? s.toJson = some s := by
  refine ⟨ofJson?_toJson, fun s s' h => ?_, fun _ s _ => ofJson?_toJson s⟩
  have hread := ofJson?_toJson s
  rw [h, ofJson?_toJson, Option.some.injEq] at hread
  exact hread.symm

/-- A value that leaves out what it can and says more than is known: a note of an unknown kind, a
record written as an array, an operation without operands. -/
def sparse : Json :=
  .obj [("object_definitions", .arr [.obj [("name", .str "folder"), ("relations", .arr [.obj [
    ("userset_rewrite", .obj [("union", .obj [("children", .arr [
      .arr [.str "computed_userset", .str "viewer"],
      .obj [("rewrite", .obj [("exclusion", .obj []), ("union", .null)]),
        ("type", .str "userset_rewrite")]])])]),
    ("type_information", .obj []),
    ("metadata", .arr [.obj [("type", .str "reviewed"), ("by", .str "auditor")]]),
    ("name", .str "view"), ("color", .null)]])]])]

/-- A schema of one permission. -/
def viewing (constraints : Option (List Constraint)) (expression : Option Expression) : Schema :=
  { definitions := [{ name := "folder", members :=
      [{ name := "view", notes := [.other], constraints, expression }] }] }

private theorem ofJson?_sparse : ofJson? sparse = some (viewing (some [])
    (some { union := some [.computed "viewer", .nested none (some []) none] })) := by
  cbv

theorem encoding_faithful_sparse :
    ofJson? (viewing (some [])
      (some { union := some [.computed "viewer", .nested none (some []) none] })).toJson =
    some (viewing (some [])
      (some { union := some [.computed "viewer", .nested none (some []) none] })) ∧
    (viewing none (some {})).toJson ≠ (viewing (some []) (some {})).toJson ∧
    (viewing none none).toJson ≠ (viewing none (some {})).toJson ∧
    (viewing none (some {})).toJson ≠ (viewing none (some { union := some [] })).toJson := by
  refine ⟨encoding_faithful.2.2 sparse _ ofJson?_sparse, fun h => ?_, fun h => ?_, fun h => ?_⟩
  · have hsame := encoding_faithful.2.1 _ _ h
    cases hsame
  · have hsame := encoding_faithful.2.1 _ _ h
    cases hsame
  · have hsame := encoding_faithful.2.1 _ _ h
    cases hsame

end Schema

end AuthSchema.Compiled
