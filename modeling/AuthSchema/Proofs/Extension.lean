import AuthSchema.Proofs.Inclusion
import AuthSchema.Proofs.Offences

/-! Adding definitions to a schema. Where the schema resolves on its own, its resource types come
out of the larger schema as they were, or the larger schema is refused over what has been added. -/
namespace AuthSchema

/-- The definition that an error of declaration is about. -/
def DeclarationError.definition : DeclarationError → String
  | .unclassified m => m.type
  | .duplicateDefinition name => name
  | .duplicateMember m => m.type

/-- An error has to do with the definitions of a schema only. -/
def SchemaError.Concerns (c : Compiled.Schema) : SchemaError → Prop
  | .declaration e => ∃ d ∈ c.definitions, d.name = e.definition
  | .unresolved ds => ds ≠ [] ∧ ∀ x ∈ ds, ∃ d ∈ c.definitions, d.name = x.member.type
  | .unreadable _ => False

namespace Compiled.Definition.Offends
variable {before : List Definition} {d : Definition} {e : DeclarationError}
  (h : d.Offends before e)
include h

private theorem definition : e.definition = d.name := by
  cases h with
  | member h =>
    obtain ⟨_, m, _, _, hm, _⟩ := h
    cases hm <;> rfl
  | duplicate _ _ => rfl

/-- A definition with nothing wrong in it offends by its name only. -/
theorem repeats (hwell : d.WellNamed) : d.name ∈ before.map Definition.name := by
  cases h with
  | member h =>
    obtain ⟨r, hr⟩ := Resource.exists_ofDefinition.mpr hwell
    rw [Resource.ofDefinition_eq_error.mpr h] at hr
    cases hr
  | duplicate _ h => exact List.mem_map.mpr h

end Compiled.Definition.Offends

/-- A schema holds the definitions of two schemas that share no name. -/
structure Compiled.Schema.Joins (a b c : Compiled.Schema) : Prop where
  apart : ∀ d ∈ a.definitions, ∀ d' ∈ b.definitions, d.name ≠ d'.name
  definitions : c.definitions.Perm (a.definitions ++ b.definitions)

namespace Compiled.Schema.Joins
variable {a b c : Compiled.Schema} (h : a.Joins b c)
include h

private theorem mem {d : Definition} :
    d ∈ c.definitions ↔ d ∈ a.definitions ∨ d ∈ b.definitions := by
  rw [h.definitions.mem_iff, List.mem_append]

/-- A definition that does not share a name with one of the first schema is of the second. -/
theorem exists_of_not {name : String} (hc : ∃ d ∈ c.definitions, d.name = name)
    (ha : ¬ ∃ d ∈ a.definitions, d.name = name) : ∃ d ∈ b.definitions, d.name = name := by
  obtain ⟨d, hd, hname⟩ := hc
  rcases h.mem.mp hd with hd | hd
  · exact absurd ⟨d, hd, hname⟩ ha
  · exact ⟨d, hd, hname⟩

private theorem not_mem_names_right {d : Definition} (hd : d ∈ a.definitions) :
    d.name ∉ b.definitions.map Definition.name := by
  intro hmem
  obtain ⟨d', hd', hname⟩ := List.mem_map.mp hmem
  exact h.apart d hd d' hd' hname.symm

/-- The names of a well-named schema stand once in a joint one. -/
theorem count_name (ha : a.WellNamed) {d : Definition} (hd : d ∈ a.definitions) :
    (c.definitions.map Definition.name).count d.name = 1 := by
  rw [(h.definitions.map Definition.name).count_eq, List.map_append, List.count_append,
    List.count_eq_zero_of_not_mem (h.not_mem_names_right hd),
    List.count_eq_one_of_mem ha.distinct (List.mem_map.mpr ⟨d, hd, rfl⟩)]

/-- What keeps a joint schema from having a table is in the second schema. -/
theorem definition_of_refused (ha : a.WellNamed) {e : DeclarationError}
    (he : Table.ofCompiled c = .error e) : ∃ d ∈ b.definitions, d.name = e.definition := by
  obtain ⟨done, d, rest, hsplit, hoffends, -⟩ := Table.ofCompiled_eq_error_iff.mp he
  have hd : d ∈ c.definitions := hsplit ▸ List.mem_append_right _ List.mem_cons_self
  rcases h.mem.mp hd with hd | hd
  · have hrepeats := hoffends.repeats (ha.definitions d hd)
    have hcount := h.count_name ha hd
    rw [hsplit, List.map_append, List.map_cons, List.count_append, List.count_cons_self] at hcount
    have hpos := List.count_pos_iff.mpr hrepeats
    omega
  · exact ⟨d, hd, hoffends.definition.symm⟩

private theorem within {ta tc : Table} (hta : Table.ofCompiled a = .ok ta)
    (htc : Table.ofCompiled c = .ok tc) : ta.Within tc := by
  intro type r hr
  obtain ⟨d, hd, hname, hdefinition⟩ := (Table.get?_ofCompiled hta).mp hr
  exact (Table.get?_ofCompiled htc).mpr ⟨d, h.mem.mpr (Or.inl hd), hname, hdefinition⟩

end Compiled.Schema.Joins

namespace Schema

/-- What is left of two solutions, narrowed and with members hidden, stays within. -/
theorem hide_within {t u : Table} (h : t.Within u) (ca cc : SortedMap Caveat) (hidden : String) :
    (hide ⟨t.narrow, ca⟩ hidden).resources.Within (hide ⟨u.narrow, cc⟩ hidden).resources := by
  have hnarrow : t.narrow.Within u.narrow := h.map fun _ _ _ => rfl
  rw [hide, hide]
  split
  · exact hnarrow
  · exact hnarrow.map fun _ _ _ => rfl

/-- Definitions that are added to a schema leave what it resolves to as it was, or are themselves
the reason why the whole is refused. -/
theorem ofCompiled_conservative {a b c : Compiled.Schema} (h : a.Joins b c) {plan : Plan}
    {sa : Schema} (ha : ofCompiled plan a = .ok sa) :
    (∃ e, ofCompiled plan c = .error e ∧ e.Concerns b) ∨
    ∃ s, ofCompiled plan c = .ok s ∧ ∀ d ∈ a.definitions,
      ∃ r, sa.resources.get? d.name = some r ∧ s.resources.get? d.name = some r := by
  obtain ⟨ta, hta, hclean, rfl⟩ := ofCompiled_eq_ok_solution.mp ha
  cases htc : Table.ofCompiled c with
  | error e =>
    have hwell := Table.exists_ofCompiled.mp ⟨ta, hta⟩
    exact Or.inl ⟨_, ofCompiled_eq_declaration.mpr htc, h.definition_of_refused hwell htc⟩
  | ok tc =>
    have hin := h.within hta htc
    cases hrc : Resolution.resolve plan.policy tc with
    | error ds =>
      refine Or.inl ⟨_, ofCompiled_eq_unresolved.mpr ⟨tc, htc, hrc⟩, ?_⟩
      obtain ⟨hne, rfl⟩ := Resolution.resolve_eq_error.mp hrc
      refine ⟨by split <;> simp [hne], fun x hx => ?_⟩
      have hx : x ∈ Resolution.complaints plan.policy.depthLimit tc := by
        split at hx
        · exact List.mem_of_mem_take hx
        · exact hx
      obtain ⟨hkey, hno⟩ := Resolution.outside_of_mem_complaints hin hclean hx
      rw [Table.mem_keys_ofCompiled htc] at hkey
      rw [Table.mem_keys_ofCompiled hta] at hno
      exact h.exists_of_not hkey hno
    | ok rc =>
      refine Or.inr ⟨_, ofCompiled_eq_ok.mpr ⟨tc, rc, htc, hrc, rfl⟩, fun d hd => ?_⟩
      obtain ⟨-, rfl⟩ := Resolution.resolve_eq_ok.mp hrc
      have hkept := hide_within (Resolution.solution_within hin hclean) (caveatsOf a)
        (caveatsOf c) plan.hidden
      have hkey : d.name ∈ (hide ⟨(Resolution.solution plan.policy.depthLimit ta).narrow,
          caveatsOf a⟩ plan.hidden).resources.keys := by
        rw [keys_hide, Table.narrow, SortedMap.keys_map,
          Resolution.keys_stage (Resolution.variant_solution _ ta), Table.mem_keys_ofCompiled hta]
        exact ⟨d, hd, rfl⟩
      obtain ⟨r, hr⟩ := SortedMap.mem_keys_iff.mp hkey
      exact ⟨r, hr, hkept d.name r hr⟩

open Compiled in
/-- A team with a folder, seen by those who view the folder. -/
def teams : Compiled.Schema where
  definitions := [
    { name := "team", members := [
      (Declaration.relation "home").allow { type := "folder" },
      .permission "see" (.ofUnion [.arrow "home" "view"])] }]

/-- The folders, with the team declared before most of them. -/
def teamFolders : Compiled.Schema where
  definitions := folders.definitions.take 1 ++ teams.definitions ++ folders.definitions.drop 1

def teamFoldersTable : Table := (Table.ofCompiled teamFolders).toOption.getD .empty

private theorem ofCompiled_teamFolders : ofCompiled {} teamFolders =
    .ok ⟨(Resolution.solution none teamFoldersTable).narrow, caveatsOf teamFolders⟩ := by
  have htable : Table.ofCompiled teamFolders = .ok teamFoldersTable := by decide +kernel
  exact (ofCompiled_eq_ok_of_table htable).mpr ⟨by decide +kernel, rfl⟩

theorem ofCompiled_conservative_folders :
    folders.Joins teams teamFolders ∧
    ofCompiled {} folders =
      .ok ⟨(Resolution.solution none foldersTable).narrow, caveatsOf folders⟩ ∧
    ∀ d ∈ folders.definitions, ∃ r,
      (Resolution.solution none foldersTable).narrow.get? d.name = some r ∧
      (Resolution.solution none teamFoldersTable).narrow.get? d.name = some r := by
  have hjoins : folders.Joins teams teamFolders := by
    have hswap : (teams.definitions ++ folders.definitions.drop 1).Perm
        (folders.definitions.drop 1 ++ teams.definitions) := List.perm_append_comm
    exact ⟨by decide, hswap.append_left (folders.definitions.take 1)⟩
  refine ⟨hjoins, ofCompiled_folders_ok, ?_⟩
  rcases ofCompiled_conservative hjoins ofCompiled_folders_ok with ⟨e, he, -⟩ | ⟨s, hs, hsame⟩
  · rw [ofCompiled_teamFolders] at he
    cases he
  · rw [ofCompiled_teamFolders] at hs
    cases hs
    exact hsame

end Schema

end AuthSchema
