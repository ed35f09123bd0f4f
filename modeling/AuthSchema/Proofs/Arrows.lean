import AuthSchema.Proofs.Guarantees
import AuthSchema.Proofs.Reshaping

/-! The types that an arrow leads to. They are read off the constraints of its tupleset where the
arrow stands, while resolution finds out anew which types the same relation holds, one entry a type
and only if they exist. Both come to the same types, and each has the member that the arrow goes
on to. -/
namespace AuthSchema

namespace Compiled

/-- A relation that holds what its direct constraints say: it has some, and no references to other
members. -/
structure Declaration.Direct (m : Declaration) : Prop where
  relation : kindOf m.notes = .relation
  constrained : m.constraints.getD [] ≠ []
  leafless : ∀ leaf, ¬ m.HasLeaf leaf

/-- The edges of such a relation are on the types of its constraints. -/
theorem Declaration.Direct.mem_edgeTypes {m : Declaration} (h : m.Direct) {d : Definition}
    {type : String} : (∃ e ∈ m.edges d .relation, e.type = type) ↔ type ∈ m.constrainedTypes := by
  rw [mem_constrainedTypes]
  constructor
  · rintro ⟨e, he, rfl⟩
    rcases Declaration.mem_edges.mp he with ⟨leaf, hleaf, -⟩ | ⟨-, c, hc, rfl⟩
    · exact absurd hleaf (h.leafless leaf)
    · exact ⟨_, c, hc, rfl, rfl⟩
  · rintro ⟨_, c, hc, rfl, -⟩
    exact ⟨c.edge, Declaration.mem_edges.mpr (Or.inr ⟨rfl, c, hc, rfl⟩), rfl⟩

private theorem Declaration.Direct.edges_ne_nil {m : Declaration} (h : m.Direct) (d : Definition) :
    m.edges d .relation ≠ [] := by
  obtain ⟨c, hc⟩ := List.exists_mem_of_ne_nil _ h.constrained
  exact List.ne_nil_of_mem (Declaration.mem_edges.mpr (Or.inr ⟨rfl, c, hc, rfl⟩))

/-- The types that a tupleset can point at, where it is a relation of the definition that has
constraints. -/
theorem Definition.tuplesetTypes_eq {d : Definition} (hd : d.WellNamed) {m : Declaration}
    (hm : m ∈ d.members) (hconstrained : m.constraints.getD [] ≠ []) :
    d.tuplesetTypes m.name = m.constrainedTypes := by
  have hmember : d.member? m.name = some m := (find?_key_eq_some hd.distinct).mpr ⟨hm, rfl⟩
  obtain ⟨c, hc⟩ := List.exists_mem_of_ne_nil _ hconstrained
  have htype : c.type ∈ m.constrainedTypes :=
    Declaration.mem_constrainedTypes.mpr ⟨_, c, hc, rfl, rfl⟩
  rw [tuplesetTypes, hmember, Option.elim_some]
  split
  · next hnil =>
    rw [hnil] at htype
    cases htype
  · rfl

private theorem Operand.mem_edges_arrow {d : Definition} {tupleset relation type : String} :
    .through type relation ∈ (arrow tupleset relation).edges d ↔
      type ∈ d.tuplesetTypes tupleset := by
  rw [edges, List.mem_map]
  constructor
  · rintro ⟨type', htype, he⟩
    cases he
    exact htype
  · intro htype
    exact ⟨type, htype, rfl⟩

end Compiled

namespace Resolution
variable {limit : Option Nat} {c : Compiled.Schema} {t : Table}

/-- A declared member of the solution is as declared, but for its subjects. -/
theorem eq_unresolved_of_solution (ht : Table.ofCompiled c = .ok t)
    {d : Compiled.Definition} (hd : d ∈ c.definitions) {m : Compiled.Declaration}
    (hm : m ∈ d.members) {found : Member}
    (hfound : (solution limit t).member? ⟨d.name, m.name⟩ = some found) :
    ∃ subjects, found = { Member.unresolved d m with subjects } := by
  have hsource : t.member? ⟨d.name, m.name⟩ = some (Member.unresolved d m) :=
    (Table.member?_ofCompiled ht).mpr ⟨d, hd, rfl, m, hm, rfl, rfl⟩
  rw [member?_stage (variant_solution limit t) (filed_of_compiled ht), hsource,
    Option.map_some] at hfound
  exact ⟨_, (Option.some.inj hfound).symm⟩

/-- The edges of a member without override are those of its declaration. -/
theorem edges_of_solution (ht : Table.ofCompiled c = .ok t) {d : Compiled.Definition}
    (hd : d ∈ c.definitions) {m : Compiled.Declaration} (hm : m ∈ d.members) {found : Member}
    (hfound : (solution limit t).member? ⟨d.name, m.name⟩ = some found)
    (ho : found.activeOverride = none) : found.edges = m.edges d (Compiled.kindOf m.notes) := by
  obtain ⟨subjects, rfl⟩ := eq_unresolved_of_solution ht hd hm hfound
  have hactive : (Member.unresolved d m).activeOverride = none := ho
  rw [Member.unresolved_edges, hactive]
  rfl

/-- A relation that holds what its direct constraints say holds subjects of their types. -/
theorem mem_keys_of_direct (ht : Table.ofCompiled c = .ok t) (hnone : complaints limit t = [])
    {d : Compiled.Definition} (hd : d ∈ c.definitions) {rel : Compiled.Declaration}
    (hrel : rel ∈ d.members) (hdirect : rel.Direct) {held : Member}
    (hheld : (solution limit t).member? ⟨d.name, rel.name⟩ = some held)
    (ho : held.activeOverride = none) {type : String} :
    type ∈ held.subjects.keys ↔ type ∈ rel.constrainedTypes := by
  have hedges : held.edges = rel.edges d .relation := by
    rw [edges_of_solution ht hd hrel hheld ho, hdirect.relation]
  have hkind : held.kind = .relation := by
    obtain ⟨subjects, rfl⟩ := eq_unresolved_of_solution ht hd hrel hheld
    exact hdirect.relation
  have hfiled := filed_of_compiled ht
  obtain ⟨source, subjects, hsource, rfl, hcases⟩ := member?_solution hfiled hnone hheld
  have hfollows : followsEdges source = true :=
    followsEdges_iff.mpr ⟨ho, hedges ▸ hdirect.edges_ne_nil d⟩
  rcases hcases with ⟨hf, -⟩ | ⟨-, -, rfl⟩ | ⟨-, hp, -⟩
  · rw [hfollows] at hf
    cases hf
  · have hsourceEdges : source.edges = rel.edges d .relation := hedges
    rw [SubjectMap.mem_keys_collect_iff, ← hdirect.mem_edgeTypes (d := d), hsourceEdges]
    simp
  · have hpermission : source.kind = .permission := hfiled.permission_kind hp
    have hrelation : source.kind = .relation := hkind
    rw [hpermission] at hrelation
    cases hrelation

/-- The members that an arrow goes on to exist. -/
theorem exists_member?_of_through (ht : Table.ofCompiled c = .ok t)
    (hnone : complaints limit t = []) {m : MemberId} {found : Member}
    (hfound : (solution limit t).member? m = some found) (ho : found.activeOverride = none)
    {type relation : String} (he : .through type relation ∈ found.edges) :
    ∃ target, (solution limit t).member? ⟨type, relation⟩ = some target := by
  have hfiled := filed_of_compiled ht
  obtain ⟨source, subjects, hsource, rfl, -⟩ := member?_solution hfiled hnone hfound
  have hnames : Names t (type, .userset relation) :=
    names_of_member? hfiled hnone hsource ho he
  rw [← names_stage (variant_solution limit t) hfiled, names_iff_exists] at hnames
  exact hnames.2 relation rfl

end Resolution

namespace Schema

/-- An arrow over a relation that holds what its direct constraints say goes through exactly the
types that the relation is found to hold, and each of them has the member that it goes on to. -/
theorem ofCompiled_arrow {plan : Plan} {c : Compiled.Schema} {s : Schema}
    (hplan : plan.hidden = "") (h : ofCompiled plan c = .ok s)
    {d : Compiled.Definition} (hd : d ∈ c.definitions)
    {m rel : Compiled.Declaration} (hm : m ∈ d.members) (hrel : rel ∈ d.members)
    (hdirect : rel.Direct) {relation : String} (harrow : m.HasLeaf (.arrow rel.name relation))
    {found held : Member} (hfound : s.resources.member? ⟨d.name, m.name⟩ = some found)
    (ho : found.activeOverride = none)
    (hheld : s.resources.member? ⟨d.name, rel.name⟩ = some held)
    (hheldo : held.activeOverride = none) :
    (∀ type, .through type relation ∈ (Compiled.Operand.arrow rel.name relation).edges d ↔
      type ∈ held.subjects.keys) ∧
    ∀ type ∈ held.subjects.keys, .through type relation ∈ found.edges ∧
      ∃ target, s.resources.member? ⟨type, relation⟩ = some target := by
  obtain ⟨t, ht, hnone, rfl⟩ := ofCompiled_eq_ok_solution.mp h
  rw [hide, if_pos hplan] at hfound hheld ⊢
  simp only [Table.member?_narrow] at hfound hheld ⊢
  have hwell : d.WellNamed := (Table.exists_ofCompiled.mp ⟨t, ht⟩).definitions d hd
  have hsame : ∀ type, .through type relation ∈
      (Compiled.Operand.arrow rel.name relation).edges d ↔ type ∈ held.subjects.keys := by
    intro type
    rw [Compiled.Operand.mem_edges_arrow, Compiled.Definition.tuplesetTypes_eq hwell hrel
      hdirect.constrained, Resolution.mem_keys_of_direct ht hnone hd hrel hdirect hheld hheldo]
  refine ⟨hsame, fun type htype => ?_⟩
  have hedge : .through type relation ∈ found.edges := by
    rw [Resolution.edges_of_solution ht hd hm hfound ho]
    exact Compiled.Declaration.mem_edges.mpr (Or.inl ⟨_, harrow, (hsame type).mpr htype⟩)
  exact ⟨hedge, Resolution.exists_member?_of_through ht hnone hfound ho hedge⟩

section Example
open Compiled Compiled.Expression

/-- Where a book is: on a shelf or in a box, by any of several constraints. -/
def bookPlace : Declaration :=
  ((((Declaration.relation "place").allow { type := "shelf" }).allow
    { type := "shelf", relation := some "keeper" }).allow
    { type := "box", everyone := true }).allow { type := "box", caveat := some "open" }

/-- A book is read by those who may read at its place, unless they are banned. -/
def bookRead : Declaration :=
  .permission "read" (.ofExclusion [
    .nested none none (some [.this, .arrow "place" "read"]), .computed "banned"])

def book : Compiled.Definition where
  name := "book"
  members := [bookPlace, (Declaration.relation "banned").allow { type := "user" }, bookRead]

def books : Compiled.Schema where
  definitions := [
    { name := "user" },
    { name := "shelf", members := [
      (Declaration.relation "keeper").allow { type := "user" },
      .permission "read" (.ofUnion [.computed "keeper"])] },
    { name := "box", members := [(Declaration.relation "read").allow { type := "user" }] },
    book]

def booksTable : Table := (Table.ofCompiled books).toOption.getD .empty

def booksSchema : Schema := ⟨(Resolution.solution none booksTable).narrow, caveatsOf books⟩

private theorem ofCompiled_books : ofCompiled {} books = .ok booksSchema := by
  have ht : Table.ofCompiled books = .ok booksTable := by decide +kernel
  exact (ofCompiled_eq_ok_of_table ht).mpr ⟨by decide +kernel, rfl⟩

private theorem bookPlace_direct : bookPlace.Direct := by
  refine ⟨rfl, by simp [bookPlace, Declaration.allow], fun leaf hleaf => ?_⟩
  obtain ⟨x, hx, -⟩ := hleaf
  cases hx

private theorem bookRead_hasLeaf : bookRead.HasLeaf (.arrow "place" "read") :=
  ⟨_, rfl, .exclusion List.mem_cons_self
    (.intersection (List.mem_cons_of_mem _ List.mem_cons_self) .arrow)⟩

theorem ofCompiled_arrow_books : ofCompiled {} books = .ok booksSchema ∧ bookPlace.Direct ∧
    bookRead.HasLeaf (.arrow "place" "read") ∧ ∃ found held,
    booksSchema.resources.member? ⟨"book", "read"⟩ = some found ∧ found.activeOverride = none ∧
    booksSchema.resources.member? ⟨"book", "place"⟩ = some held ∧ held.activeOverride = none ∧
    held.subjects.keys = ["box", "shelf"] ∧
    (∀ type, .through type "read" ∈ (Operand.arrow "place" "read").edges book ↔
      type ∈ held.subjects.keys) ∧
    ∀ type ∈ held.subjects.keys, .through type "read" ∈ found.edges ∧
      ∃ target, booksSchema.resources.member? ⟨type, "read"⟩ = some target := by
  have hread : (booksSchema.resources.member? ⟨"book", "read"⟩).any
      (fun found => found.activeOverride = none) = true := by decide +kernel
  have hplace : (booksSchema.resources.member? ⟨"book", "place"⟩).any
      (fun held => held.activeOverride = none ∧ held.subjects.keys = ["box", "shelf"]) = true := by
    decide +kernel
  obtain ⟨found, hfound, ho⟩ := (Option.any_eq_true _ _).mp hread
  obtain ⟨held, hheld, h⟩ := (Option.any_eq_true _ _).mp hplace
  have ho : found.activeOverride = none := of_decide_eq_true ho
  obtain ⟨hheldo, hkeys⟩ : held.activeOverride = none ∧ held.subjects.keys = ["box", "shelf"] :=
    of_decide_eq_true h
  exact ⟨ofCompiled_books, bookPlace_direct, bookRead_hasLeaf, found, held, hfound, ho, hheld,
    hheldo, hkeys, ofCompiled_arrow rfl ofCompiled_books (by simp [books]) (by simp [book])
      (by simp [book]) bookPlace_direct bookRead_hasLeaf hfound ho hheld hheldo⟩

end Example

end Schema

end AuthSchema
