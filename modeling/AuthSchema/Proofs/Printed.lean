import AuthSchema.Json.Layout
import AuthSchema.Proofs.CompiledEncoding
import AuthSchema.Proofs.Spelling
import AuthSchema.Schema.Codec

/-! Printed JSON read again. A reader gets every value back from its tokens, so what is printed
without numbers, as schemas are, is read as what it was, in either form. -/
namespace AuthSchema

namespace Json

open Text (Symbol symbols)

section Induction
variable {motive : Json → Prop}

end Induction

end Json

namespace Json

private theorem numberless_obj {members : List (String × Json)} :
    Numberless (.obj members) ↔ ∀ m ∈ members, Numberless m.2 := by
  constructor
  · intro h
    cases h with
    | obj h => exact h
  · exact .obj

private theorem numberless_arr {items : List Json} :
    Numberless (.arr items) ↔ ∀ j ∈ items, Numberless j := by
  constructor
  · intro h
    cases h with
    | arr h => exact h
  · exact .arr

private theorem Numberless.ofMap {α : Type u} {write : α → Json} (h : ∀ a, Numberless (write a))
    (m : SortedMap α) : Numberless (ofMap write m) := by
  refine .obj fun member hmember => ?_
  obtain ⟨e, -, rfl⟩ := List.mem_map.mp hmember
  exact h e.2

private theorem Numberless.list {α : Type u} {write : α → Json} (h : ∀ a, Numberless (write a))
    (l : List α) : Numberless (.arr (l.map write)) := by
  refine .arr fun j hj => ?_
  obtain ⟨a, -, rfl⟩ := List.mem_map.mp hj
  exact h a

private theorem numberless_optionalMember {α : Type u} {name : String} {write : α → Json}
    (h : ∀ a, Numberless (write a)) {o : Option α} {m : String × Json}
    (hm : m ∈ optionalMember name write o) : Numberless m.2 := by
  cases o with
  | none => cases hm
  | some a =>
    obtain rfl := List.mem_singleton.mp hm
    exact h a

end Json

open Json (Numberless numberless_optionalMember)

private theorem SubjectMap.numberless_toJson (m : SubjectMap) : Numberless m.toJson :=
  .ofMap (fun _ => .str) m

private theorem Edge.numberless_toJson (e : Edge) : Numberless e.toJson := by
  simp only [toJson, Json.numberless_obj, List.forall_mem_append, List.forall_mem_cons]
  exact ⟨⟨.str, .str, List.forall_mem_nil _⟩,
    fun _ => numberless_optionalMember fun _ => .str⟩

private theorem Member.numberless_toJson (m : Member) : Numberless m.toJson := by
  simp only [toJson, Json.numberless_obj, List.forall_mem_append, List.forall_mem_cons]
  exact ⟨⟨⟨.str, .str, .str, m.subjects.numberless_toJson, List.forall_mem_nil _⟩,
    fun _ => numberless_optionalMember SubjectMap.numberless_toJson⟩,
    .list Edge.numberless_toJson m.edges, List.forall_mem_nil _⟩

private theorem Narrowing.numberless_toJson (n : Narrowing) : Numberless n.toJson := by
  cases n with
  | generic => exact .str
  | concrete type =>
    simp only [toJson, Json.numberless_obj, List.forall_mem_singleton]
    exact .str

private theorem Resource.numberless_toJson (r : Resource) : Numberless r.toJson := by
  simp only [toJson, Json.numberless_obj, List.forall_mem_cons]
  exact ⟨.str, .ofMap Member.numberless_toJson r.permissions,
    .ofMap Member.numberless_toJson r.relations, r.permissionSubject.numberless_toJson,
    r.relationSubject.numberless_toJson, List.forall_mem_nil _⟩

private theorem Caveat.numberless_toJson (c : Caveat) : Numberless c.toJson := by
  have htypes : ∀ type, Numberless (.str type) := fun _ => .str
  simp only [toJson, Json.numberless_obj, List.forall_mem_cons]
  exact ⟨.str, .ofMap htypes c.arguments, List.forall_mem_nil _⟩

theorem Schema.numberless_toJson (s : Schema) : Numberless s.toJson := by
  simp only [toJson, Json.numberless_obj, List.forall_mem_cons]
  exact ⟨.ofMap Resource.numberless_toJson s.resources,
    .ofMap Caveat.numberless_toJson s.caveats, List.forall_mem_nil _⟩

namespace Compiled

private theorem Note.numberless_toJson (n : Note) : Numberless n.toJson := by
  have hstr : ∀ s, Numberless (.str s) := fun _ => .str
  cases n <;> simp [toJson, KindMark.toJson, Json.numberless_obj, hstr]

private theorem constraintsToJson_numberless (cs : List Constraint) :
    Numberless (constraintsToJson cs) := by
  have hstr : ∀ s, Numberless (.str s) := fun _ => .str
  have hconstraint : ∀ c : Constraint, Numberless c.toJson := by
    intro c
    simp only [Constraint.toJson, Json.numberless_obj, List.forall_mem_append,
      List.forall_mem_singleton]
    exact ⟨⟨⟨hstr _, fun _ => numberless_optionalMember hstr⟩, .bool⟩,
      fun _ => numberless_optionalMember hstr⟩
  simp only [constraintsToJson, Json.numberless_obj, List.forall_mem_singleton]
  exact .list hconstraint cs

-- By structural recursion on operands, on the operations of a nested expression and on lists.
mutual

private theorem Operand.numberless_toJson : (o : Operand) → Numberless o.toJson
  | .this | .computed _ | .arrow _ _ => by
    have hstr : ∀ s, Numberless (.str s) := fun _ => .str
    simp [Operand.toJson, Json.numberless_obj, hstr]
  | .nested union exclusion intersection => by
    simp only [Operand.toJson, Json.numberless_obj, List.forall_mem_cons, List.forall_mem_append]
    exact ⟨.str, ⟨⟨numberless_operationMember _ union, numberless_operationMember _ exclusion⟩,
      numberless_operationMember _ intersection⟩, List.forall_mem_nil _⟩

private theorem numberless_operationMember (name : String) : (operation : Option (List Operand)) →
    ∀ m ∈ operationMember name operation, Numberless m.2
  | none => by simp [operationMember]
  | some operands => by
    simp only [operationMember, List.forall_mem_singleton, Json.numberless_obj,
      Json.numberless_arr]
    exact numberless_operandsToJson operands

private theorem numberless_operandsToJson : (operands : List Operand) →
    ∀ j ∈ operandsToJson operands, Numberless j
  | [] => by simp [operandsToJson]
  | o :: rest => by
    rw [operandsToJson, List.forall_mem_cons]
    exact ⟨o.numberless_toJson, numberless_operandsToJson rest⟩

end

private theorem Expression.numberless_toJson (e : Expression) : Numberless e.toJson := by
  simp only [toJson, Json.numberless_obj, List.forall_mem_append]
  exact ⟨⟨numberless_operationMember _ _, numberless_operationMember _ _⟩,
    numberless_operationMember _ _⟩

private theorem Declaration.numberless_toJson (d : Declaration) : Numberless d.toJson := by
  simp only [toJson, Json.numberless_obj, List.forall_mem_append, List.forall_mem_cons]
  exact ⟨⟨⟨.str, .list Note.numberless_toJson d.notes, List.forall_mem_nil _⟩,
    fun _ => numberless_optionalMember constraintsToJson_numberless⟩,
    fun _ => numberless_optionalMember Expression.numberless_toJson⟩

private theorem Definition.numberless_toJson (d : Definition) : Numberless d.toJson := by
  simp only [toJson, Json.numberless_obj, List.forall_mem_cons]
  exact ⟨.str, .list Declaration.numberless_toJson d.members, List.forall_mem_nil _⟩

private theorem CaveatDeclaration.numberless_toJson (c : CaveatDeclaration) :
    Numberless c.toJson := by
  have htypes : ∀ type, Numberless (.str type) := fun _ => .str
  simp only [toJson, Json.numberless_obj, List.forall_mem_cons]
  exact ⟨.str, .ofMap htypes c.parameters, List.forall_mem_nil _⟩

namespace Schema

private theorem numberless_toJson (s : Schema) : Numberless s.toJson := by
  simp only [toJson, Json.numberless_obj, List.forall_mem_cons]
  exact ⟨.list Definition.numberless_toJson s.definitions,
    .list CaveatDeclaration.numberless_toJson s.caveats, List.forall_mem_nil _⟩

end Schema

end Compiled

end AuthSchema
