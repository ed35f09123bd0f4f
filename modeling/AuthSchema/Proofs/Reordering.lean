import AuthSchema.Proofs.Pipeline
import Mathlib.Data.List.Perm.Basic

/-! The order in which a schema is written down. Names that repeat are refused in any order, and
where none does, a look-up finds the only declaration of a name and what is declared is filed by
name. So neither a result nor its diagnostics depend on the order. -/
namespace AuthSchema

namespace Compiled

/-- The same definition with its members in any order. -/
structure Definition.Reordered (d d' : Definition) : Prop where
  name : d.name = d'.name
  members : d.members.Perm d'.members

/-- The same schema with its definitions, the members of each of them, and its caveats in any
order. -/
structure Schema.Reordered (c c' : Schema) : Prop where
  definitions : ∃ ds, c.definitions.Perm ds ∧ List.Forall₂ Definition.Reordered ds c'.definitions
  caveats : c.caveats.Perm c'.caveats

namespace Definition.Reordered
variable {d d' : Definition} (h : d.Reordered d')
include h

theorem symm : d'.Reordered d := ⟨h.name.symm, h.members.symm⟩

private theorem wellNamed (hwell : d.WellNamed) : d'.WellNamed := by
  constructor
  · intro m hm
    exact hwell.classified m (h.members.mem_iff.mpr hm)
  · exact (h.members.map Declaration.name).nodup_iff.mp hwell.distinct

/-- Where no name repeats, the first member of a name is the only one. -/
theorem member?_eq (hwell : d.WellNamed) (name : String) : d.member? name = d'.member? name := by
  apply Option.ext
  intro m
  rw [Definition.member?, Definition.member?, find?_key_eq_some hwell.distinct,
    find?_key_eq_some (h.wellNamed hwell).distinct, h.members.mem_iff]

private theorem operandEdges_eq (hwell : d.WellNamed) : Operand.edges d = Operand.edges d' := by
  funext o
  cases o with
  | this => rfl
  | computed relation => rw [Operand.edges, Operand.edges, h.name]
  | arrow tupleset relation =>
    rw [Operand.edges, Operand.edges, Definition.tuplesetTypes, Definition.tuplesetTypes,
      h.member?_eq hwell]
  | nested union exclusion intersection => rfl

private theorem unresolved_eq (hwell : d.WellNamed) : Member.unresolved d = Member.unresolved d' :=
  Member.unresolved_congr (h.operandEdges_eq hwell)

/-- Members are filed by name, so the resource type of a definition does not show their order. -/
theorem ofDefinition {r : Resource} (hr : Resource.ofDefinition d = .ok r) :
    Resource.ofDefinition d' = .ok r := by
  have hwell := Resource.exists_ofDefinition.mp ⟨r, hr⟩
  obtain ⟨r', hr'⟩ := Resource.exists_ofDefinition.mpr (h.wellNamed hwell)
  have hsame : r = r' := (Resource.holds_ofDefinition hr).ext (Resource.holds_ofDefinition hr')
    h.name (h.unresolved_eq hwell) h.members
  rw [hr', hsame]

end Definition.Reordered

namespace Schema.Reordered
variable {c c' : Schema} (h : c.Reordered c')
include h

theorem symm : c'.Reordered c := by
  obtain ⟨ds, hperm, hmembers⟩ := h.definitions
  obtain ⟨ds', hmembers', hperm'⟩ := List.perm_comp_forall₂ hperm hmembers
  refine ⟨⟨ds', hperm'.symm, ?_⟩, h.caveats.symm⟩
  exact List.Forall₂.flip (hmembers'.imp fun _ _ => Definition.Reordered.symm)

private theorem exists_mem {d : Definition} (hd : d ∈ c.definitions) :
    ∃ d' ∈ c'.definitions, d.Reordered d' := by
  obtain ⟨ds, hperm, hmembers⟩ := h.definitions
  exact exists_mem_of_forall₂ hmembers (hperm.mem_iff.mp hd)

private theorem names_perm : (c.definitions.map Definition.name).Perm
    (c'.definitions.map Definition.name) := by
  obtain ⟨ds, hperm, hmembers⟩ := h.definitions
  have hnames : ds.map Definition.name = c'.definitions.map Definition.name :=
    map_eq_of_forall₂ (fun _ _ => Definition.Reordered.name) hmembers
  rw [← hnames]
  exact hperm.map Definition.name

private theorem wellNamed (hwell : c.WellNamed) : c'.WellNamed := by
  constructor
  · intro d' hd'
    obtain ⟨d, hd, hd'd⟩ := h.symm.exists_mem hd'
    exact hd'd.symm.wellNamed (hwell.definitions d hd)
  · exact h.names_perm.nodup_iff.mp hwell.distinct

private theorem get?_ofCompiled {t t' : Table} (ht : Table.ofCompiled c = .ok t)
    (ht' : Table.ofCompiled c' = .ok t') {type : String} {r : Resource}
    (hr : t.get? type = some r) : t'.get? type = some r := by
  obtain ⟨d, hd, rfl, hdefinition⟩ := (Table.get?_ofCompiled ht).mp hr
  obtain ⟨d', hd', hreordered⟩ := h.exists_mem hd
  exact (Table.get?_ofCompiled ht').mpr
    ⟨d', hd', hreordered.name.symm, hreordered.ofDefinition hdefinition⟩

/-- A table has the resource types by name, so it does not show the order of the definitions. -/
theorem ofCompiled {t : Table} (ht : Table.ofCompiled c = .ok t) :
    Table.ofCompiled c' = .ok t := by
  obtain ⟨t', ht'⟩ := Table.exists_ofCompiled.mpr (h.wellNamed (Table.exists_ofCompiled.mp ⟨t, ht⟩))
  have hsame : t = t' := by
    apply SortedMap.ext_get?
    intro type
    apply Option.ext
    intro r
    exact ⟨h.get?_ofCompiled ht ht', h.symm.get?_ofCompiled ht' ht⟩
  rw [ht', hsame]

theorem ofCompiled_iff {t : Table} : Table.ofCompiled c = .ok t ↔ Table.ofCompiled c' = .ok t :=
  ⟨h.ofCompiled, h.symm.ofCompiled⟩

private theorem caveatsOf_eq (hcaveats : (c.caveats.map CaveatDeclaration.name).Nodup) :
    AuthSchema.Schema.caveatsOf c = AuthSchema.Schema.caveatsOf c' := by
  have hcaveats' : (c'.caveats.map CaveatDeclaration.name).Nodup :=
    (h.caveats.map CaveatDeclaration.name).nodup_iff.mp hcaveats
  exact (SortedMap.indexes_ofList hcaveats).perm (SortedMap.indexes_ofList hcaveats') h.caveats

end Schema.Reordered

/-- The same schema with everything declared in the opposite order. -/
def Schema.backwards (c : Schema) : Schema where
  definitions := (c.definitions.map fun d => { d with members := d.members.reverse }).reverse
  caveats := c.caveats.reverse

private theorem Schema.reordered_backwards (c : Schema) : c.Reordered c.backwards := by
  refine ⟨⟨c.definitions.reverse, (List.reverse_perm _).symm, ?_⟩, (List.reverse_perm _).symm⟩
  rw [backwards, List.forall₂_reverse_iff, List.forall₂_map_right_iff, List.forall₂_same]
  intro d _
  exact ⟨rfl, (List.reverse_perm _).symm⟩

end Compiled

namespace Schema

private theorem ofCompiled_refused {plan : Plan} {c : Compiled.Schema} :
    (∃ e, ofCompiled plan c = .error (.declaration e)) ↔ ¬ ∃ t, Table.ofCompiled c = .ok t := by
  simp only [ofCompiled_eq_declaration]
  cases Table.ofCompiled c <;> simp

/-- Neither a resolved schema nor the diagnostics nor the refusal of its declarations depend on the
order of declaration, as long as the caveats can be told apart. -/
theorem ofCompiled_reordered {c c' : Compiled.Schema}
    (hcaveats : (c.caveats.map Compiled.CaveatDeclaration.name).Nodup) (h : c.Reordered c')
    (plan : Plan) :
    (∀ s, ofCompiled plan c = .ok s ↔ ofCompiled plan c' = .ok s) ∧
    (∀ ds, ofCompiled plan c = .error (.unresolved ds) ↔
      ofCompiled plan c' = .error (.unresolved ds)) ∧
    ((∃ e, ofCompiled plan c = .error (.declaration e)) ↔
      ∃ e, ofCompiled plan c' = .error (.declaration e)) := by
  refine ⟨?_, ?_, ?_⟩
  · intro s
    simp only [ofCompiled_eq_ok, h.ofCompiled_iff, h.caveatsOf_eq hcaveats]
  · intro ds
    simp only [ofCompiled_eq_unresolved, h.ofCompiled_iff]
  · simp only [ofCompiled_refused, h.ofCompiled_iff]

/-- The folders with two caveats. -/
def guardedFolders : Compiled.Schema :=
  { folders with caveats := [{ name := "office_hours" }, { name := "same_tenant" }] }

private theorem ofCompiled_guardedFolders : ofCompiled {} guardedFolders =
    .ok ⟨(Resolution.solution none foldersTable).narrow, caveatsOf guardedFolders⟩ :=
  ofCompiled_eq_ok.mpr ⟨_, _, ofCompiled_folders, Resolution.resolve_folders, rfl⟩

theorem ofCompiled_reordered_folders :
    (guardedFolders.caveats.map Compiled.CaveatDeclaration.name).Nodup ∧
    guardedFolders.Reordered guardedFolders.backwards ∧
    guardedFolders.backwards.definitions.map Compiled.Definition.name =
      ["folder", "group", "user"] ∧
    ofCompiled {} guardedFolders.backwards =
      .ok ⟨(Resolution.solution none foldersTable).narrow, caveatsOf guardedFolders⟩ := by
  have hcaveats : (guardedFolders.caveats.map Compiled.CaveatDeclaration.name).Nodup := by decide
  have hreordered := guardedFolders.reordered_backwards
  obtain ⟨hok, -⟩ := ofCompiled_reordered hcaveats hreordered {}
  exact ⟨hcaveats, hreordered, rfl, (hok _).mp ofCompiled_guardedFolders⟩

end Schema

end AuthSchema
