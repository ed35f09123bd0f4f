import AuthSchema.Compiled.Construct
import AuthSchema.Compiled.Edges

/-! The leaves of set expressions. The walk goes through an expression level by level and comes to
every leaf of it, however deep, so the edges of a member are those of its leaves and of its direct
constraints. -/
namespace AuthSchema.Compiled

/-- An operand has a reference to members somewhere in it, under whatever operations. -/
inductive Operand.HasLeaf : Operand → Operand → Prop
  | computed {relation} : HasLeaf (.computed relation) (.computed relation)
  | arrow {tupleset relation} : HasLeaf (.arrow tupleset relation) (.arrow tupleset relation)
  | union {operands exclusion intersection child leaf} (hchild : child ∈ operands)
      (h : HasLeaf child leaf) : HasLeaf (.nested (some operands) exclusion intersection) leaf
  | exclusion {union operands intersection child leaf} (hchild : child ∈ operands)
      (h : HasLeaf child leaf) : HasLeaf (.nested union (some operands) intersection) leaf
  | intersection {union exclusion operands child leaf} (hchild : child ∈ operands)
      (h : HasLeaf child leaf) : HasLeaf (.nested union exclusion (some operands)) leaf

/-- A declaration has a reference to members in its expression; without one it has none. -/
def Declaration.HasLeaf (m : Declaration) (leaf : Operand) : Prop :=
  ∃ x, m.expression = some x ∧ x.toOperand.HasLeaf leaf

namespace Operand

theorem hasLeaf_nested {union exclusion intersection : Option (List Operand)} {leaf : Operand} :
    (nested union exclusion intersection).HasLeaf leaf ↔
      ∃ operands ∈ union.toList ++ exclusion.toList ++ intersection.toList,
        ∃ child ∈ operands, child.HasLeaf leaf := by
  constructor
  · intro h
    cases h with
    | union hchild h => exact ⟨_, by simp, _, hchild, h⟩
    | exclusion hchild h => exact ⟨_, by simp, _, hchild, h⟩
    | intersection hchild h => exact ⟨_, by simp, _, hchild, h⟩
  · rintro ⟨operands, hoperands, child, hchild, h⟩
    simp only [List.mem_append, Option.mem_toList] at hoperands
    rcases hoperands with (rfl | rfl) | rfl
    · exact .union hchild h
    · exact .exclusion hchild h
    · exact .intersection hchild h

@[simp] private theorem not_hasLeaf_this {leaf : Operand} : ¬ this.HasLeaf leaf := by
  intro h
  cases h

@[simp] private theorem hasLeaf_computed {relation : String} {leaf : Operand} :
    (computed relation).HasLeaf leaf ↔ leaf = computed relation := by
  constructor
  · intro h
    cases h
    rfl
  · rintro rfl
    exact .computed

@[simp] private theorem hasLeaf_arrow {tupleset relation : String} {leaf : Operand} :
    (arrow tupleset relation).HasLeaf leaf ↔ leaf = arrow tupleset relation := by
  constructor
  · intro h
    cases h
    rfl
  · rintro rfl
    exact .arrow

/-- An operand leads to an edge by one of its leaves. -/
def Gives (d : Definition) (e : Edge) (o : Operand) : Prop :=
  ∃ leaf, o.HasLeaf leaf ∧ e ∈ leaf.edges d

variable {d : Definition} {e : Edge}

/-- An operand leads to the edges that it gives by itself and to those of the next level. -/
theorem gives_iff {o : Operand} : o.Gives d e ↔
    e ∈ o.edges d ∨ ∃ operands ∈ o.operations, ∃ child ∈ operands, child.Gives d e := by
  cases o with
  | this =>
    constructor
    · rintro ⟨leaf, h, -⟩
      cases h
    · rintro (h | ⟨operands, hoperands, -⟩)
      · cases h
      · cases hoperands
  | computed relation =>
    constructor
    · rintro ⟨leaf, h, he⟩
      cases h
      exact Or.inl he
    · rintro (h | ⟨operands, hoperands, -⟩)
      · exact ⟨_, .computed, h⟩
      · cases hoperands
  | arrow tupleset relation =>
    constructor
    · rintro ⟨leaf, h, he⟩
      cases h
      exact Or.inl he
    · rintro (h | ⟨operands, hoperands, -⟩)
      · exact ⟨_, .arrow, h⟩
      · cases hoperands
  | nested union exclusion intersection =>
    constructor
    · rintro ⟨leaf, h, he⟩
      obtain ⟨operands, hoperands, child, hchild, hleaf⟩ := hasLeaf_nested.mp h
      exact Or.inr ⟨operands, hoperands, child, hchild, leaf, hleaf, he⟩
    · rintro (h | ⟨operands, hoperands, child, hchild, leaf, hleaf, he⟩)
      · cases h
      · exact ⟨leaf, hasLeaf_nested.mpr ⟨operands, hoperands, child, hchild, hleaf⟩, he⟩

end Operand

/-- The walk through a row of operations comes to the leaves of all operands in it. -/
theorem mem_leafEdges {d : Definition} {e : Edge} {operations : List (List Operand)} :
    e ∈ leafEdges d operations ↔ ∃ operands ∈ operations, ∃ o ∈ operands, o.Gives d e := by
  induction operations using leafEdges.induct with
  | case1 => simp [leafEdges]
  | case2 operands waiting ih =>
    have hlevel : (∃ o ∈ operands, o.Gives d e) ↔ (∃ o ∈ operands, e ∈ o.edges d) ∨
        ∃ inner ∈ nestedOperations operands, ∃ o ∈ inner, o.Gives d e := by
      simp only [nestedOperations, List.mem_flatMap]
      constructor
      · rintro ⟨o, ho, h⟩
        rcases Operand.gives_iff.mp h with h | ⟨inner, hinner, h⟩
        · exact Or.inl ⟨o, ho, h⟩
        · exact Or.inr ⟨inner, ⟨o, ho, hinner⟩, h⟩
      · rintro (⟨o, ho, h⟩ | ⟨inner, ⟨o, ho, hinner⟩, h⟩)
        · exact ⟨o, ho, Operand.gives_iff.mpr (Or.inl h)⟩
        · exact ⟨o, ho, Operand.gives_iff.mpr (Or.inr ⟨inner, hinner, h⟩)⟩
    rw [leafEdges, List.mem_append, List.mem_flatMap, ih]
    simp only [List.mem_append, List.mem_cons, or_and_right, exists_or, exists_eq_left, hlevel]
    rw [or_assoc]
    exact or_congr_right or_comm

private theorem Expression.mem_edges {d : Definition} {x : Expression} {e : Edge} :
    e ∈ x.edges d ↔ x.toOperand.Gives d e := by
  rw [edges, mem_distinct, mem_leafEdges, Operand.gives_iff]
  constructor
  · exact Or.inr
  · rintro (h | h)
    · cases h
    · exact h

/-- The edges of a member are those of its leaves and, for a relation, its direct constraints. -/
theorem Declaration.mem_edges {d : Definition} {kind : Kind} {m : Declaration} {e : Edge} :
    e ∈ m.edges d kind ↔ (∃ leaf, m.HasLeaf leaf ∧ e ∈ leaf.edges d) ∨
      (kind = .relation ∧ ∃ c ∈ m.constraints.getD [], c.edge = e) := by
  have hwalked : e ∈ m.expression.elim [] (Expression.edges d) ↔
      ∃ leaf, m.HasLeaf leaf ∧ e ∈ leaf.edges d := by
    cases hx : m.expression with
    | none => simp [HasLeaf, hx]
    | some x => simp [HasLeaf, hx, Expression.mem_edges, Operand.Gives]
  rw [edges]
  split
  · next hkind => simp [mem_foldl_addNew, hwalked, hkind]
  · next hkind => simp [hwalked, hkind]

end AuthSchema.Compiled
