import AuthSchema.Proofs.Guarantees

/-! What a narrowed resource type promises about each member. Narrowing looks only at the subject
types of all members together; that they say something about every single one rests on resolution,
which leaves no member without subjects. -/
namespace AuthSchema

namespace SortedMap
variable {α : Type u}

private theorem mem_keys_insert {m : SortedMap α} {key k : String} {value : α} :
    k ∈ (m.insert key value).keys ↔ k = key ∨ k ∈ m.keys := by
  rw [mem_keys_iff, mem_keys_iff, get?_insert]
  by_cases h : k = key <;> simp [h]

private theorem mem_keys_foldl_insert {l : List (String × α)} {m : SortedMap α} {k : String} :
    k ∈ (l.foldl (fun m e => m.insert e.1 e.2) m).keys ↔ k ∈ m.keys ∨ k ∈ l.map Prod.fst := by
  induction l generalizing m with
  | nil => simp
  | cons e rest ih =>
    rw [List.foldl_cons, ih, mem_keys_insert, List.map_cons, List.mem_cons]
    tauto

/-- A map has the keys of the list it is made of. -/
theorem mem_keys_ofList {l : List (String × α)} {k : String} :
    k ∈ (ofList l).keys ↔ k ∈ l.map Prod.fst := by
  rw [ofList, mem_keys_foldl_insert]
  exact or_iff_right List.not_mem_nil

/-- A map has one key only if it has it and no other. -/
theorem keys_eq_singleton {m : SortedMap α} {key : String} :
    m.keys = [key] ↔ key ∈ m.keys ∧ ∀ k ∈ m.keys, k = key := by
  constructor
  · intro h
    rw [h]
    simp
  · rintro ⟨hkey, honly⟩
    have hsame : ∀ k, k ∈ m.keys ↔ k ∈ [key] := by
      intro k
      rw [List.mem_singleton]
      exact ⟨honly k, fun h => h ▸ hkey⟩
    exact List.perm_singleton.mp ((List.perm_ext_iff_of_nodup m.nodup_keys (by simp)).mpr hsame)

end SortedMap

/-- There are members, and each of them allows subjects of the one type alone. -/
structure Sole (members : SortedMap Member) (type : String) : Prop where
  concrete : type ≠ anyType
  occupied : ∃ name m, members.get? name = some m
  only : ∀ name m, members.get? name = some m → m.subjects.keys = [type]

/-- A subject type is generated for just where it is that of every member. -/
structure Narrowing.Justified (n : Narrowing) (members : SortedMap Member) : Prop where
  concrete : ∀ type, n = .concrete type ↔ Sole members type
  generic : n = .generic ↔ ∀ type, ¬ Sole members type

private theorem mem_subjectTypes {members : SortedMap Member} {type : String} :
    type ∈ subjectTypes members ↔
      ∃ name m, members.get? name = some m ∧ type ∈ m.subjects.keys := by
  simp only [subjectTypes, SortedMap.mem_keys_ofList, List.map_map, Function.comp_def,
    List.map_id', List.mem_flatMap, SortedMap.mem_values_iff]
  constructor
  · rintro ⟨m, ⟨name, hm⟩, htype⟩
    exact ⟨name, m, hm, htype⟩
  · rintro ⟨name, m, hm, htype⟩
    exact ⟨m, ⟨name, hm⟩, htype⟩

/-- Where no member is without subjects, one type in all is one type for each. -/
theorem subjectTypes_eq_singleton {members : SortedMap Member} {type : String}
    (h : ∀ name m, members.get? name = some m → m.subjects.isEmpty = false) :
    subjectTypes members = [type] ↔ (∃ name m, members.get? name = some m) ∧
      ∀ name m, members.get? name = some m → m.subjects.keys = [type] := by
  rw [subjectTypes, SortedMap.keys_eq_singleton, ← subjectTypes]
  constructor
  · rintro ⟨htype, honly⟩
    obtain ⟨name, m, hm, -⟩ := mem_subjectTypes.mp htype
    refine ⟨⟨name, m, hm⟩, fun name m hm => ?_⟩
    have hone : ∀ k ∈ m.subjects.keys, k = type :=
      fun k hk => honly k (mem_subjectTypes.mpr ⟨name, m, hm, hk⟩)
    obtain ⟨k, subject, hk⟩ := SortedMap.exists_of_not_empty (h name m hm)
    have hmem : k ∈ m.subjects.keys := SortedMap.mem_keys_of_get? hk
    exact SortedMap.keys_eq_singleton.mpr ⟨hone k hmem ▸ hmem, hone⟩
  · rintro ⟨⟨name, m, hm⟩, honly⟩
    refine ⟨mem_subjectTypes.mpr ⟨name, m, hm, by simp [honly name m hm]⟩, fun k hk => ?_⟩
    obtain ⟨name', m', hm', hk'⟩ := mem_subjectTypes.mp hk
    rw [honly name' m' hm'] at hk'
    exact List.mem_singleton.mp hk'

namespace Narrowing

private theorem ofTypes_eq_concrete {types : List String} {type : String} :
    ofTypes types = .concrete type ↔ types = [type] ∧ type ≠ anyType := by
  match types with
  | [] => simp [ofTypes]
  | [only] =>
    by_cases hany : only = anyType <;> grind [ofTypes]
  | _ :: _ :: _ => simp [ofTypes]

theorem eq_generic_iff {n : Narrowing} : n = .generic ↔ ∀ type, n ≠ .concrete type := by
  cases n <;> simp

/-- Narrowing to the subject types of members that all have subjects is justified. -/
theorem justified_ofTypes {members : SortedMap Member}
    (h : ∀ name m, members.get? name = some m → m.subjects.isEmpty = false) :
    (ofTypes (subjectTypes members)).Justified members := by
  have hconcrete : ∀ type, ofTypes (subjectTypes members) = .concrete type ↔ Sole members type := by
    intro type
    rw [ofTypes_eq_concrete, subjectTypes_eq_singleton h]
    exact ⟨fun ⟨⟨hsome, honly⟩, htype⟩ => ⟨htype, hsome, honly⟩,
      fun ⟨htype, hsome, honly⟩ => ⟨⟨hsome, honly⟩, htype⟩⟩
  exact ⟨hconcrete, by simp only [eq_generic_iff, ne_eq, hconcrete]⟩

end Narrowing

private theorem Resource.Filed.member?_eq {r : Resource} (hr : r.Filed) {name : String} {m : Member}
    (hm : r.permissions.get? name = some m ∨ r.relations.get? name = some m) :
    r.member? name = some m := by
  rw [member?]
  rcases hm with hp | hrel
  · have hnone : r.relations.get? name = none := by
      rw [Option.eq_none_iff_forall_ne_some]
      intro rel hrel
      rw [hr.apart name rel hrel] at hp
      cases hp
    rw [hnone, Option.none_or, hp]
  · rw [hrel, Option.some_or]

namespace Table

/-- Replaces the two subject types that the accessors of each resource type are generated for. -/
def retype (f : String → Narrowing × Narrowing) (t : Table) : Table :=
  t.map fun type r => { r with permissionSubject := (f type).1, relationSubject := (f type).2 }

private theorem narrow_narrow (t : Table) : t.narrow.narrow = t.narrow :=
  SortedMap.map_map _ _ _

private theorem narrow_retype (f : String → Narrowing × Narrowing) (t : Table) :
    (t.retype f).narrow = t.narrow :=
  SortedMap.map_map _ _ _

private theorem retype_narrow (f : String → Narrowing × Narrowing) (t : Table) :
    t.narrow.retype f = t.retype f :=
  SortedMap.map_map _ _ _

end Table

namespace Resolution

/-- The members of a solved resource type all have subjects. -/
theorem inhabited_of_get?_solution {limit : Option Nat} {t : Table} (ht : Filed t)
    (hnone : complaints limit t = []) {type : String} {r : Resource}
    (hr : (solution limit t).get? type = some r) {name : String} {m : Member}
    (hm : r.permissions.get? name = some m ∨ r.relations.get? name = some m) :
    m.subjects.isEmpty = false := by
  have hfiled : r.Filed := filed_stage (variant_solution limit t) ht type r hr
  have hmember : (solution limit t).member? ⟨type, name⟩ = some m := by
    rw [Table.member?, hr, Option.bind_some, hfiled.member?_eq hm]
  exact inhabited_solution ht hnone hmember

end Resolution

/-- Every resource type is generated for the one subject type that all its permissions allow, and
generically where there is no such type; its relations likewise. On any table narrowing has its
full effect at once, heeds only the members and sets nothing but what it is to find out. -/
theorem narrow_justified :
    (∀ plan c s, plan.hidden = "" → Schema.ofCompiled plan c = .ok s →
      ∀ type r, s.resources.get? type = some r →
        r.permissionSubject.Justified r.permissions ∧ r.relationSubject.Justified r.relations) ∧
    ∀ t : Table, t.narrow.narrow = t.narrow ∧
      (∀ f, (t.retype f).narrow = t.narrow) ∧ ∀ f, t.narrow.retype f = t.retype f := by
  refine ⟨?_, fun t => ⟨t.narrow_narrow, fun f => t.narrow_retype f, fun f => t.retype_narrow f⟩⟩
  intro plan c s hplan hs type r hr
  obtain ⟨t, ht, hnone, rfl⟩ := Schema.ofCompiled_eq_ok_solution.mp hs
  rw [Schema.hide, if_pos hplan, Table.narrow, SortedMap.get?_map] at hr
  obtain ⟨source, hsource, rfl⟩ := Option.map_eq_some_iff.mp hr
  have hfiled := Resolution.filed_of_compiled ht
  constructor
  · refine Narrowing.justified_ofTypes fun name m hm => ?_
    exact Resolution.inhabited_of_get?_solution hfiled hnone hsource (Or.inl hm)
  · refine Narrowing.justified_ofTypes fun name m hm => ?_
    exact Resolution.inhabited_of_get?_solution hfiled hnone hsource (Or.inr hm)

/-- Folders are viewed and edited by users alone, while their relations name folders, users and
groups. -/
theorem narrow_justified_folders : ({} : Plan).hidden = "" ∧
    Schema.ofCompiled {} folders =
      .ok ⟨(Resolution.solution none foldersTable).narrow, Schema.caveatsOf folders⟩ ∧
    ∃ r, (Resolution.solution none foldersTable).narrow.get? "folder" = some r ∧
      r.permissionSubject = .concrete "user" ∧ Sole r.permissions "user" ∧
      r.relationSubject = .generic ∧ ∀ type, ¬ Sole r.relations type := by
  have hfolder : ((Resolution.solution none foldersTable).narrow.get? "folder").map
      (fun r => (r.permissionSubject, r.relationSubject)) = some (.concrete "user", .generic) := by
    decide +kernel
  obtain ⟨r, hr, htypes⟩ := Option.map_eq_some_iff.mp hfolder
  obtain ⟨hpermissions, hrelations⟩ := Prod.mk.inj htypes
  obtain ⟨hp, hrel⟩ := narrow_justified.1 {} folders _ rfl Schema.ofCompiled_folders_ok _ r hr
  exact ⟨rfl, Schema.ofCompiled_folders_ok, r, hr, hpermissions,
    (hp.concrete _).mp hpermissions, hrelations, hrel.generic.mp hrelations⟩

end AuthSchema
