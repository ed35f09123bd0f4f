import AuthSchema.Proofs.Hiding

/-! What every resolved schema guarantees to those who read it, whatever was compiled and under
whatever policy: all that is declared is there and nothing else, no member is without subjects,
overrides are taken as they are, and the subjects that are inferred name what exists. -/
namespace AuthSchema

/-- A resource type has the members that a definition declares, each once, under its own name and
in the map of its kind. -/
structure Resource.Declares (d : Compiled.Definition) (r : Resource) : Prop where
  classified : ∀ m ∈ d.members, Compiled.kindOf m.notes ≠ .unknown
  relations : r.relations.keys.Perm
    ((d.members.filter fun m => Compiled.kindOf m.notes = .relation).map Compiled.Declaration.name)
  permissions : r.permissions.keys.Perm
    ((d.members.filter fun m => Compiled.kindOf m.notes = .permission).map
      Compiled.Declaration.name)
  filed : r.Filed

/-- A table has the resource types of a compiled schema, resolved. -/
structure Resolves (c : Compiled.Schema) (t : Table) : Prop where
  resources : t.keys.Perm (c.definitions.map Compiled.Definition.name)
  named : ∀ type r, t.get? type = some r → r.name = type
  declared : ∀ d ∈ c.definitions, ∃ r, t.get? d.name = some r ∧ r.Declares d
  inhabited : ∀ m found, t.member? m = some found → found.subjects.isEmpty = false
  override : ∀ m found subjects, t.member? m = some found →
    found.activeOverride = some subjects → found.subjects = subjects ∧ found.edges = []
  relation : ∀ m found, t.member? m = some found → found.kind = .relation →
    found.activeOverride = none →
      (found.edges = [] ∧ found.subjects = SubjectMap.wildcard) ∨
      (found.edges ≠ [] ∧ ∀ ref ∈ found.subjects.entries, Resolution.Names t ref)
  permission : ∀ m found, t.member? m = some found → found.kind = .permission →
    found.activeOverride = none → ∀ type subject, (type, subject) ∈ found.subjects.entries →
      subject = .itself ∧ (type ∈ t.keys ∨ type = anyType ∨ Overrides t type)

namespace Resource

theorem declares_ofDefinition {d : Compiled.Definition} {r : Resource}
    (h : ofDefinition d = .ok r) : r.Declares d := by
  have hwell := exists_ofDefinition.mp ⟨r, h⟩
  have hr := holds_ofDefinition h
  refine ⟨hwell.classified, ?_, ?_, filed_ofDefinition h⟩
  · exact hr.relations.keys_perm hwell.distinct fun m _ => by simp
  · exact hr.permissions.keys_perm hwell.distinct fun m _ => by simp

end Resource

namespace Resolution
variable {limit : Option Nat} {c : Compiled.Schema} {t : Table}

theorem keys_ofCompiled (ht : Table.ofCompiled c = .ok t) :
    t.keys.Perm (c.definitions.map Compiled.Definition.name) := by
  have hholds := Table.holds_ofCompiled ht
  have hwell := Table.exists_ofCompiled.mp ⟨t, ht⟩
  have hperm := hholds.resources.keys_perm hwell.distinct (p := fun _ => true) fun d hd => by
    simpa using Resource.exists_ofDefinition.mpr (hholds.wellNamed d hd)
  rwa [List.filter_true] at hperm

private theorem edges_of_override (ht : Table.ofCompiled c = .ok t) {m : MemberId} {found : Member}
    (hfound : t.member? m = some found) {subjects : SubjectMap}
    (ho : found.activeOverride = some subjects) : found.edges = [] := by
  obtain ⟨d, -, -, declared, -, -, rfl⟩ := (Table.member?_ofCompiled ht).mp hfound
  exact Member.unresolved_edges_of_override ho

/-- Solving the permissions of a table keeps what is declared. -/
theorem declares_stage {s : Table} (hs : Variant (seeded t) s) (ht : Table.ofCompiled c = .ok t)
    {d : Compiled.Definition} (hd : d ∈ c.definitions) :
    ∃ r, s.get? d.name = some r ∧ r.Declares d := by
  have hwell := Table.exists_ofCompiled.mp ⟨t, ht⟩
  obtain ⟨r, hr⟩ := Resource.exists_ofDefinition.mpr (hwell.definitions d hd)
  have hget : t.get? d.name = some r := (Table.get?_ofCompiled ht).mpr ⟨d, hd, rfl, hr⟩
  have hdeclares := Resource.declares_ofDefinition hr
  have hstage := get?_stage hs d.name
  rw [hget, Option.map_some] at hstage
  refine ⟨_, hstage, hdeclares.classified, ?_, ?_, ?_⟩
  · rw [SortedMap.keys_map]
    exact hdeclares.relations
  · rw [SortedMap.keys_map]
    exact hdeclares.permissions
  · exact filed_stage hs (filed_of_compiled ht) _ _ hstage

private theorem named_stage {s : Table} (hs : Variant (seeded t) s)
    (ht : Table.ofCompiled c = .ok t) {type : String} {r : Resource}
    (hr : s.get? type = some r) : r.name = type := by
  rw [get?_stage hs] at hr
  obtain ⟨source, hsource, rfl⟩ := Option.map_eq_some_iff.mp hr
  obtain ⟨d, -, hname, hdefinition⟩ := (Table.get?_ofCompiled ht).mp hsource
  exact (Resource.holds_ofDefinition hdefinition).name.trans hname

private theorem resolves_solution (ht : Table.ofCompiled c = .ok t)
    (hnone : complaints limit t = []) : Resolves c (solution limit t) := by
  have hs := variant_solution limit t
  have hfiled := filed_of_compiled ht
  refine ⟨?_, fun _ _ => named_stage hs ht, fun _ => declares_stage hs ht,
    fun _ _ => inhabited_solution hfiled hnone, ?_, fun _ _ => relation_solution hfiled hnone, ?_⟩
  · rw [keys_stage hs]
    exact keys_ofCompiled ht
  · intro m found subjects hfound ho
    obtain ⟨source, subjects', hsource, rfl, hcases⟩ := member?_solution hfiled hnone hfound
    have hactive : source.activeOverride = some subjects := ho
    have hfixed : followsEdges source = false := by simp [followsEdges, hactive]
    have hedges : source.edges = [] := edges_of_override ht hsource hactive
    refine ⟨?_, hedges⟩
    rcases hcases with ⟨-, rfl⟩ | ⟨hf, -⟩ | ⟨hf, -⟩
    · rw [fixedSubjects, hactive, Option.getD_some]
    · rw [hfixed] at hf
      cases hf
    · rw [hfixed] at hf
      cases hf
  · intro m found hfound hkind ho type subject hmem
    obtain ⟨hself, hground⟩ := permission_solution hfiled hnone hfound hkind ho hmem
    rw [mem_grounds, ← keys_stage hs, ← overrides_stage hs hfiled] at hground
    exact ⟨hself, hground⟩

end Resolution

theorem Table.mem_keys_ofCompiled {s : Compiled.Schema} {t : Table} (h : ofCompiled s = .ok t)
    {type : String} : type ∈ t.keys ↔ ∃ d ∈ s.definitions, d.name = type := by
  rw [(Resolution.keys_ofCompiled h).mem_iff, List.mem_map]

theorem Table.member?_narrow (t : Table) (m : MemberId) : t.narrow.member? m = t.member? m := by
  rw [Table.member?, Table.member?, Table.narrow, SortedMap.get?_map]
  cases t.get? m.type <;> rfl

/-- Narrowing touches neither names nor members. -/
theorem Resolves.narrow {c : Compiled.Schema} {t : Table} (h : Resolves c t) :
    Resolves c t.narrow := by
  have hkeys : t.narrow.keys = t.keys := SortedMap.keys_map _ _
  refine ⟨?_, ?_, ?_, ?_, ?_, ?_, ?_⟩
  · rw [hkeys]
    exact h.resources
  · intro type r hr
    rw [Table.narrow, SortedMap.get?_map] at hr
    obtain ⟨source, hsource, rfl⟩ := Option.map_eq_some_iff.mp hr
    exact h.named type source hsource
  · intro d hd
    obtain ⟨r, hr, hclassified, hrelations, hpermissions, hfiled⟩ := h.declared d hd
    refine ⟨r.narrow, ?_, hclassified, hrelations, hpermissions,
      ⟨hfiled.relation, hfiled.permission, hfiled.apart⟩⟩
    rw [Table.narrow, SortedMap.get?_map, hr, Option.map_some]
  · simp only [Table.member?_narrow]
    exact h.inhabited
  · simp only [Table.member?_narrow]
    exact h.override
  · simp only [Table.member?_narrow, Resolution.names_iff_exists, hkeys]
    simpa only [Resolution.names_iff_exists] using h.relation
  · simp only [Table.member?_narrow, Overrides, hkeys]
    exact h.permission

/-- A schema that has been resolved without hiding anything keeps all guarantees. -/
theorem ofCompiled_resolves {plan : Plan} {c : Compiled.Schema} {s : Schema}
    (hplan : plan.hidden = "") (h : Schema.ofCompiled plan c = .ok s) : Resolves c s.resources := by
  obtain ⟨t, r, ht, hr, rfl⟩ := Schema.ofCompiled_eq_ok.mp h
  obtain ⟨hnone, rfl⟩ := Resolution.resolve_eq_ok.mp hr
  rw [Schema.hide, if_pos hplan]
  exact (Resolution.resolves_solution ht hnone).narrow

theorem ofCompiled_resolves_folders : ({} : Plan).hidden = "" ∧
    Schema.ofCompiled {} folders =
      .ok ⟨(Resolution.solution none foldersTable).narrow, Schema.caveatsOf folders⟩ ∧
    Resolves folders (Resolution.solution none foldersTable).narrow :=
  ⟨rfl, Schema.ofCompiled_folders_ok, ofCompiled_resolves rfl Schema.ofCompiled_folders_ok⟩

end AuthSchema
