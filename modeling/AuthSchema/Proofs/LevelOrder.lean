import AuthSchema.Proofs.Declared
import AuthSchema.Proofs.Leaves

/-! The order of edges. The walk keeps its operations in a queue and works off their operands row by
row; that is the order of the levels of the expression, one level after the other. What the leaves
and the direct constraints stand for is listed once, at its first occurrence. -/
namespace AuthSchema

namespace Compiled

/-- The operands one level below an operand: those of its union, then those of its exclusion, then
those of its intersection. -/
def Operand.children : Operand → List Operand
  | .nested union exclusion intersection =>
    union.getD [] ++ exclusion.getD [] ++ intersection.getD []
  | .this | .computed _ | .arrow _ _ => []

/-- The operands that stand a number of levels below a row of operands. -/
def level (operands : List Operand) : Nat → List Operand
  | 0 => operands
  | n + 1 => level (operands.flatMap Operand.children) n

/-- The outermost operands of a declaration, in the same order. -/
def Declaration.operands (m : Declaration) : List Operand :=
  match m.expression with
  | none => []
  | some ⟨union, exclusion, intersection⟩ =>
    (Operand.nested union exclusion intersection).children

/-- The operands of a declaration at a depth. -/
def Declaration.level (m : Declaration) (n : Nat) : List Operand := Compiled.level m.operands n

/-- The edges that an operand stands for. The types of a tupleset are those of the direct
constraints of the first member of its name, or its name where there are none. -/
inductive Operand.StandsFor (d : Definition) : Operand → List Edge → Prop
  | this : StandsFor d .this []
  | computed {relation} : StandsFor d (.computed relation) [⟨d.name, .userset relation, none⟩]
  | arrow {tupleset relation owner} (hfirst : d.members.find? (·.name = tupleset) = some owner)
      (hsome : owner.constraints.getD [] ≠ []) :
      StandsFor d (.arrow tupleset relation)
        (((owner.constraints.getD []).map Constraint.type).eraseDups.map
          fun type => ⟨type, .userset relation, none⟩)
  | untyped {tupleset relation}
      (hnone : ∀ owner, d.members.find? (·.name = tupleset) = some owner →
        owner.constraints.getD [] = []) :
      StandsFor d (.arrow tupleset relation) [⟨tupleset, .userset relation, none⟩]
  | nested {union exclusion intersection} :
      StandsFor d (.nested union exclusion intersection) []

/-- The edge that a direct constraint stands for, with its caveat: to the objects of the type where
all of them are allowed at once or no relation of theirs is named, and else through the relation. -/
inductive Constraint.StandsFor (c : Constraint) : Edge → Prop
  | everyone (h : c.everyone = true) : StandsFor c ⟨c.type, .itself, c.caveat⟩
  | objects (h : c.relation = none ∨ c.relation = some "" ∨ c.relation = some "...") :
      StandsFor c ⟨c.type, .itself, c.caveat⟩
  | userset {relation} (hsome : c.everyone = false) (h : c.relation = some relation)
      (hname : relation ≠ "") (hmark : relation ≠ "...") :
      StandsFor c ⟨c.type, .userset relation, c.caveat⟩

/-- The edges of a declaration of some kind down to a depth, in order and with all repetitions:
what its operands stand for, level by level, and then, for a relation, what its direct constraints
stand for. -/
inductive Declaration.Lists (d : Definition) (kind : Kind) (m : Declaration) (n : Nat) :
    List Edge → Prop
  | intro {rows : List (List Edge)} {direct : List Edge}
      (operands : List.Forall₂ (Operand.StandsFor d) ((List.range n).flatMap m.level) rows)
      (constraints : List.Forall₂ Constraint.StandsFor
        (if kind = .relation then m.constraints.getD [] else []) direct) :
      Lists d kind m n (rows.flatten ++ direct)

section Meaning

variable {d : Definition}

private theorem tuplesetTypes_of_constraints {tupleset : String} {owner : Declaration}
    (hfirst : d.members.find? (·.name = tupleset) = some owner)
    (hsome : owner.constraints.getD [] ≠ []) :
    d.tuplesetTypes tupleset = ((owner.constraints.getD []).map Constraint.type).eraseDups := by
  have hfirst : d.member? tupleset = some owner := hfirst
  rw [Definition.tuplesetTypes, hfirst, Option.elim_some, Declaration.constrainedTypes,
    distinct_eq_eraseDups]
  obtain ⟨c, rest, hconstraints⟩ := List.exists_cons_of_ne_nil hsome
  rw [hconstraints, List.map_cons, List.eraseDups_cons]

private theorem tuplesetTypes_of_none {tupleset : String}
    (hnone : ∀ owner, d.members.find? (·.name = tupleset) = some owner →
      owner.constraints.getD [] = []) : d.tuplesetTypes tupleset = [tupleset] := by
  rw [Definition.tuplesetTypes]
  cases hfirst : d.member? tupleset with
  | none => rfl
  | some owner =>
    rw [Option.elim_some, Declaration.constrainedTypes, hnone owner hfirst]
    rfl

theorem Operand.standsFor_iff {o : Operand} {edges : List Edge} :
    o.StandsFor d edges ↔ o.edges d = edges := by
  constructor
  · intro h
    cases h with
    | this => rfl
    | computed => rfl
    | nested => rfl
    | arrow hfirst hsome =>
      rw [Operand.edges, tuplesetTypes_of_constraints hfirst hsome]
      rfl
    | untyped hnone =>
      rw [Operand.edges, tuplesetTypes_of_none hnone]
      rfl
  · rintro rfl
    cases o with
    | this => exact .this
    | computed relation => exact .computed
    | nested union exclusion intersection => exact .nested
    | arrow tupleset relation =>
      by_cases hnone : ∀ owner, d.members.find? (·.name = tupleset) = some owner →
          owner.constraints.getD [] = []
      · rw [Operand.edges, tuplesetTypes_of_none hnone]
        exact .untyped hnone
      · push Not at hnone
        obtain ⟨owner, hfirst, hsome⟩ := hnone
        rw [Operand.edges, tuplesetTypes_of_constraints hfirst hsome]
        exact .arrow hfirst hsome

theorem Constraint.standsFor_iff {c : Constraint} {e : Edge} : c.StandsFor e ↔ c.edge = e := by
  constructor
  · intro h
    cases h with
    | everyone h => simp [Constraint.edge, h]
    | objects h =>
      rcases h with h | h | h <;> simp [Constraint.edge, h, SubjectRelation.ofName, selfMark]
    | userset hsome h hname hmark =>
      simp [Constraint.edge, hsome, h, SubjectRelation.ofName, selfMark, hname, hmark]
  · rintro rfl
    rw [Constraint.edge]
    cases hall : c.everyone with
    | true => exact .everyone hall
    | false =>
      cases hrelation : c.relation with
      | none => exact .objects (.inl hrelation)
      | some relation =>
        rw [if_neg Bool.false_ne_true, SubjectRelation.ofName]
        simp only [Bool.or_eq_true, decide_eq_true_eq]
        split
        · next hself => exact .objects (.inr (by simpa [hrelation, selfMark] using hself))
        · next hself =>
          obtain ⟨hname, hmark⟩ := not_or.mp hself
          exact .userset hall hrelation hname hmark

private theorem forall₂_iff_map {α β : Type} {R : α → β → Prop} {f : α → β}
    (h : ∀ a b, R a b ↔ f a = b) {l : List α} {u : List β} :
    List.Forall₂ R l u ↔ l.map f = u := by
  rw [← List.forall₂_eq_eq_eq, List.forall₂_map_left_iff]
  exact ⟨.imp fun a b => (h a b).mp, .imp fun a b => (h a b).mpr⟩

end Meaning

section Walk

private theorem level_append (a b : List Operand) (n : Nat) :
    level (a ++ b) n = level a n ++ level b n := by
  induction n generalizing a b with
  | zero => rfl
  | succ n ih => rw [level, List.flatMap_append, ih, level, level]

private theorem level_succ (a : List Operand) (n : Nat) :
    level a (n + 1) = (level a n).flatMap Operand.children := by
  induction n generalizing a with
  | zero => rfl
  | succ n ih => rw [level, ih, level]

/-- The walk takes up the operations of an operand in the order of its children. -/
theorem Operand.flatten_operations (o : Operand) : o.operations.flatten = o.children := by
  have hrow : ∀ row : Option (List Operand), row.toList.flatten = row.getD [] := by
    rintro (_ | row) <;> simp
  cases o with
  | nested union exclusion intersection =>
    rw [operations, children, List.flatten_append, List.flatten_append, hrow, hrow, hrow]
  | this | computed | arrow => rfl

private theorem flatten_operations (m : Declaration) :
    (m.expression.elim [] Expression.operations).flatten = m.operands := by
  rw [Declaration.operands]
  cases m.expression with
  | none => rfl
  | some x => exact (Operand.nested x.union x.exclusion x.intersection).flatten_operations

private theorem flatten_nestedOperations (operands : List Operand) :
    (nestedOperations operands).flatten = operands.flatMap Operand.children := by
  induction operands with
  | nil => rfl
  | cons o rest ih =>
    rw [nestedOperations, List.flatMap_cons, List.flatten_append, List.flatMap_cons, ← ih,
      o.flatten_operations]
    rfl

/-- Every expression comes to an end. -/
private theorem exists_level_eq_nil (operations : List (List Operand)) :
    ∃ n, level operations.flatten n = [] := by
  -- by the recursion of the walk, which has the levels of the head behind those that wait
  induction operations using leafEdges.induct with
  | case1 => exact ⟨0, rfl⟩
  | case2 operands waiting ih =>
    obtain ⟨n, hn⟩ := ih
    rw [List.flatten_append, level_append, List.append_eq_nil_iff, flatten_nestedOperations] at hn
    obtain ⟨hwaiting, hnested⟩ := hn
    refine ⟨n + 1, ?_⟩
    rw [List.flatten_cons, level_append, level_succ waiting.flatten, hwaiting, level, hnested]
    rfl

/-- The walk works off a row of operations before it comes to those nested in them. -/
private theorem leafEdges_append (d : Definition) (row waiting : List (List Operand)) :
    leafEdges d (row ++ waiting) = row.flatten.flatMap (Operand.edges d) ++
      leafEdges d (waiting ++ nestedOperations row.flatten) := by
  induction row generalizing waiting with
  | nil => simp [nestedOperations]
  | cons operands row ih =>
    have hnested : nestedOperations (operands ++ row.flatten) =
        nestedOperations operands ++ nestedOperations row.flatten := List.flatMap_append
    rw [List.cons_append, leafEdges, List.append_assoc, ih, List.flatten_cons, hnested,
      List.flatMap_append, List.append_assoc, List.append_assoc]

private theorem leafEdges_eq_row (d : Definition) (row : List (List Operand)) :
    leafEdges d row = row.flatten.flatMap (Operand.edges d) ++
      leafEdges d (nestedOperations row.flatten) := by
  simpa using leafEdges_append d row []

/-- So it goes through the levels one after the other, down to the last. -/
theorem leafEdges_eq_levels {d : Definition} {n : Nat} {operations : List (List Operand)}
    (h : level operations.flatten n = []) :
    leafEdges d operations =
      ((List.range n).flatMap (level operations.flatten)).flatMap (Operand.edges d) := by
  induction n generalizing operations with
  | zero =>
    have hnone : operations.flatten = [] := h
    rw [leafEdges_eq_row, hnone]
    simp [nestedOperations, leafEdges]
  | succ n ih =>
    have hbelow := flatten_nestedOperations operations.flatten
    have hend : level (nestedOperations operations.flatten).flatten n = [] := by
      rw [hbelow]
      exact h
    rw [leafEdges_eq_row, ih hend, hbelow, List.range_succ_eq_map, List.flatMap_cons,
      List.flatMap_map, List.flatMap_append]
    rfl

end Walk

namespace Declaration

variable {d : Definition} {kind : Kind} {m : Declaration} {n : Nat}

private theorem exists_level_eq_nil (m : Declaration) : ∃ n, m.level n = [] := by
  rw [show m.level = Compiled.level m.operands from rfl, ← flatten_operations]
  exact Compiled.exists_level_eq_nil _

theorem lists_iff {listed : List Edge} : m.Lists d kind n listed ↔
    ((List.range n).flatMap m.level).flatMap (Operand.edges d) ++
      (if kind = .relation then m.constraints.getD [] else []).map Constraint.edge = listed := by
  have hoperands {l u} := forall₂_iff_map (R := Operand.StandsFor d) (f := Operand.edges d)
    (fun _ _ => Operand.standsFor_iff) (l := l) (u := u)
  have hconstraints {l u} := forall₂_iff_map (R := Constraint.StandsFor) (f := Constraint.edge)
    (fun _ _ => Constraint.standsFor_iff) (l := l) (u := u)
  rw [List.flatMap_def]
  constructor
  · rintro ⟨operands, constraints⟩
    rw [hoperands.mp operands, hconstraints.mp constraints]
  · rintro rfl
    exact .intro (hoperands.mpr rfl) (hconstraints.mpr rfl)

/-- What is listed from the outermost level down to the last, each edge once, are the edges of the
declaration. -/
theorem edges_eq (h : m.level n = []) {listed : List Edge} (hlisted : m.Lists d kind n listed) :
    m.edges d kind = listed.eraseDups := by
  have hwalked : m.expression.elim [] (Expression.edges d) =
      distinct (((List.range n).flatMap m.level).flatMap (Operand.edges d)) := by
    have hlevels : leafEdges d (m.expression.elim [] Expression.operations) =
        ((List.range n).flatMap m.level).flatMap (Operand.edges d) := by
      rw [show m.level = Compiled.level m.operands from rfl, ← flatten_operations] at h ⊢
      exact leafEdges_eq_levels h
    rw [← hlevels]
    cases m.expression with
    | none => simp [leafEdges, distinct]
    | some x => rfl
  rw [edges, hwalked, ← lists_iff.mp hlisted, ← distinct_eq_eraseDups]
  split
  · exact List.foldl_append.symm
  · rw [List.map_nil, List.append_nil]

end Declaration

end Compiled

/-- The edges of a classified member without an override are those of the leaves of its expression,
level by level, and for a relation then those of its direct constraints, each at its first
occurrence. With an override there are none. -/
theorem Member.ofDeclaration_edges (d : Compiled.Definition) (m : Compiled.Declaration)
    (hkind : Compiled.kindOf m.notes ≠ .unknown) :
    ∃ member, Member.ofDeclaration d m = .ok member ∧ member.kind = Compiled.kindOf m.notes ∧
      (member.activeOverride ≠ none → member.edges = []) ∧
      (member.activeOverride = none → member.edges.Nodup ∧ (∃ n, m.level n = []) ∧
        (∀ n, m.level n = [] → ∃ listed, m.Lists d member.kind n listed ∧
          member.edges = listed.eraseDups) ∧
        ∀ e, e ∈ member.edges ↔
          (∃ leaf edges, m.HasLeaf leaf ∧ leaf.StandsFor d edges ∧ e ∈ edges) ∨
            (member.kind = .relation ∧ ∃ c ∈ m.constraints.getD [], c.StandsFor e)) := by
  refine ⟨Member.unresolved d m, Member.ofDeclaration_eq_ok.mpr ⟨hkind, rfl⟩, rfl, ?_, ?_⟩
  · intro ho
    obtain ⟨subjects, hsubjects⟩ := Option.ne_none_iff_exists'.mp ho
    exact Member.unresolved_edges_of_override hsubjects
  · intro ho
    have hedges : (Member.unresolved d m).edges = m.edges d (Compiled.kindOf m.notes) := by
      rw [Member.unresolved_edges, ho]
      rfl
    obtain ⟨n, hn⟩ := m.exists_level_eq_nil
    have hlisted : ∀ n, ∃ listed, m.Lists d (Compiled.kindOf m.notes) n listed := fun n =>
      ⟨_, Compiled.Declaration.lists_iff.mpr rfl⟩
    rw [hedges]
    refine ⟨?_, ⟨n, hn⟩, fun n hn => ?_, fun e => ?_⟩
    · obtain ⟨listed, hlists⟩ := hlisted n
      rw [Compiled.Declaration.edges_eq hn hlists, ← distinct_eq_eraseDups]
      exact nodup_distinct _
    · obtain ⟨listed, hlists⟩ := hlisted n
      exact ⟨listed, hlists, Compiled.Declaration.edges_eq hn hlists⟩
    · rw [Compiled.Declaration.mem_edges]
      simp only [Compiled.Operand.standsFor_iff, Compiled.Constraint.standsFor_iff,
        exists_and_left, exists_eq_left']
      rfl

section Example
open Compiled Compiled.Declaration

/-- The editors of a paper: they are assigned or have come by way of what the paper lies in, are
not banned, and own the paper as well. Each expression has more than one operation. -/
def editorOfPaper : Compiled.Declaration :=
  ((relation "editor").define {
      union := some [.this, .nested (some [.arrow "parent" "edit", .computed "owner"])
        (some [.computed "archived"]) (some [.computed "active", .computed "banned"])]
      exclusion := some [.computed "banned"]
      intersection := some [.computed "owner"] })
    |>.allow { type := "user", caveat := some "on_call" }
    |>.allow { type := "group", relation := some "member" }
    |>.allow { type := "bot", relation := some "admin", everyone := true }
    |>.allow { type := "user" } |>.allow { type := "user", relation := some "..." }

def paper : Compiled.Definition where
  name := "paper"
  members := [
    (relation "parent").allow { type := "folder" } |>.allow { type := "shelf" }
      |>.allow { type := "folder", everyone := true }, editorOfPaper]

/-- On each level the union comes before the exclusion and that before the intersection. Of the
direct constraints one goes through a relation, and all bots at once count as bots. -/
theorem Member.ofDeclaration_edges_paper :
    kindOf editorOfPaper.notes ≠ .unknown ∧
    ∃ member, Member.ofDeclaration paper editorOfPaper = .ok member ∧ member.kind = .relation ∧
      member.activeOverride = none ∧ editorOfPaper.level 2 = [] ∧
      member.edges = [.through "paper" "banned", .through "paper" "owner",
        .through "folder" "edit", .through "shelf" "edit", .through "paper" "archived",
        .through "paper" "active", ⟨"user", .itself, some "on_call"⟩,
        ⟨"group", .userset "member", none⟩, ⟨"bot", .itself, none⟩, ⟨"user", .itself, none⟩] := by
  have hkind : kindOf editorOfPaper.notes ≠ .unknown := by decide
  obtain ⟨member, hmember, hrelation, -, hedges⟩ :=
    Member.ofDeclaration_edges paper editorOfPaper hkind
  have ho : member.activeOverride = none := by
    obtain ⟨-, rfl⟩ := Member.ofDeclaration_eq_ok.mp hmember
    decide
  have hend : editorOfPaper.level 2 = [] := by rfl
  obtain ⟨-, -, hlisted, -⟩ := hedges ho
  obtain ⟨listed, hlists, heq⟩ := hlisted 2 hend
  refine ⟨hkind, member, hmember, hrelation, ho, hend, ?_⟩
  rw [heq, ← lists_iff.mp hlists, hrelation]
  decide

end Example

end AuthSchema
