import AuthSchema.Compiled.Construct
import AuthSchema.Compiled.Table
import AuthSchema.Proofs.Keyed

/-! Tables that come from compiled schemas. A schema has one just when names do not repeat, among
its definitions as among the members of one definition, and every member has a noted kind. The
table has all that is declared and nothing else: every member stands under its own name in the map
of its kind, and no name stands in both maps of a resource type. -/
namespace AuthSchema

namespace Compiled

/-- A definition matters to the edges of an expression only through those of its operands. -/
theorem leafEdges_congr {d d' : Definition} (h : Operand.edges d = Operand.edges d')
    (operations : List (List Operand)) : leafEdges d operations = leafEdges d' operations := by
  induction operations using leafEdges.induct with
  | case1 => rw [leafEdges, leafEdges]
  | case2 operands waiting ih => rw [leafEdges, leafEdges, h, ih]

private theorem Declaration.edges_congr {d d' : Definition} (h : Operand.edges d = Operand.edges d')
    (kind : Kind) (m : Declaration) : m.edges d kind = m.edges d' kind := by
  have hwalked : Expression.edges d = Expression.edges d' := by
    funext e
    rw [Expression.edges, Expression.edges, leafEdges_congr h]
  rw [Declaration.edges, Declaration.edges, hwalked]

end Compiled

/-- The members of a resource type stand where their kind and name say. -/
structure Resource.Filed (r : Resource) : Prop where
  relation : ∀ name m, r.relations.get? name = some m → m.kind = .relation ∧ m.name = name
  permission : ∀ name m, r.permissions.get? name = some m → m.kind = .permission ∧ m.name = name
  apart : ∀ name m, r.relations.get? name = some m → r.permissions.get? name = none

/-- A definition whose members can be told apart and filed. -/
structure Compiled.Definition.WellNamed (d : Compiled.Definition) : Prop where
  classified : ∀ m ∈ d.members, Compiled.kindOf m.notes ≠ .unknown
  distinct : (d.members.map Compiled.Declaration.name).Nodup

/-- A schema whose definitions can be told apart and whose members can be filed. -/
structure Compiled.Schema.WellNamed (s : Compiled.Schema) : Prop where
  definitions : ∀ d ∈ s.definitions, d.WellNamed
  distinct : (s.definitions.map Compiled.Definition.name).Nodup

/-- The member of a declaration before resolution, whether a kind is noted for it or not. -/
def Member.unresolved (d : Compiled.Definition) (m : Compiled.Declaration) : Member :=
  let instructions := Instructions.ofComments m.comments
  let bare : Member :=
    { name := m.name, publicName := instructions.rename.getD m.name
      kind := Compiled.kindOf m.notes, override := instructions.override }
  { bare with edges :=
      if bare.activeOverride.isSome then [] else m.edges d (Compiled.kindOf m.notes) }

theorem Member.ofDeclaration_eq_ok {d : Compiled.Definition} {m : Compiled.Declaration}
    {member : Member} : Member.ofDeclaration d m = .ok member ↔
      Compiled.kindOf m.notes ≠ .unknown ∧ member = Member.unresolved d m := by
  rw [Member.ofDeclaration]
  split
  · simp_all
  · next hk =>
    have hunresolved : Member.unresolved d m =
        let instructions := Instructions.ofComments m.comments
        let member : Member :=
          { name := m.name, publicName := instructions.rename.getD m.name
            kind := Compiled.kindOf m.notes, override := instructions.override }
        if member.activeOverride.isSome then member
        else { member with edges := m.edges d (Compiled.kindOf m.notes) } := by
      simp only [Member.unresolved]
      split <;> rfl
    rw [hunresolved]
    simp only [Except.ok.injEq]
    exact ⟨fun h => ⟨hk, h.symm⟩, fun h => h.2.symm⟩

theorem Member.unresolved_edges (d : Compiled.Definition) (m : Compiled.Declaration) :
    (Member.unresolved d m).edges =
      if (Member.unresolved d m).activeOverride.isSome then []
      else m.edges d (Compiled.kindOf m.notes) := rfl

theorem Member.unresolved_edges_of_override {d : Compiled.Definition} {m : Compiled.Declaration}
    {subjects : SubjectMap} (h : (Member.unresolved d m).activeOverride = some subjects) :
    (Member.unresolved d m).edges = [] := by
  rw [unresolved_edges, h]
  rfl

theorem Member.unresolved_congr {d d' : Compiled.Definition}
    (h : Compiled.Operand.edges d = Compiled.Operand.edges d') :
    Member.unresolved d = Member.unresolved d' := by
  funext m
  simp only [Member.unresolved, Compiled.Declaration.edges_congr h]

namespace Resource

theorem declare_eq_ok {d : Compiled.Definition} {r r' : Resource} {m : Compiled.Declaration} :
    declare d r m = .ok r' ↔ ∃ member, Member.ofDeclaration d m = .ok member ∧
      r.member? member.name = none ∧ r' = r.file member := by
  rw [declare]
  cases hm : Member.ofDeclaration d m with
  | error e => simp [bind, Except.bind]
  | ok member =>
    cases hnew : r.member? member.name with
    | some found => simp [hnew, bind, Except.bind, throw, throwThe, MonadExceptOf.throw]
    | none => simp [hnew, bind, Except.bind, pure, Except.pure, eq_comm]

/-- The declarations of a kind, by the names of the members that they stand for. -/
abbrev Lists (d : Compiled.Definition) (kind : Kind) :
    List Compiled.Declaration → SortedMap Member → Prop :=
  SortedMap.Indexes Compiled.Declaration.name fun m member =>
    Compiled.kindOf m.notes = kind ∧ member = Member.unresolved d m

/-- A resource type has the members of a list of declarations and no others. -/
structure Holds (d : Compiled.Definition) (declared : List Compiled.Declaration) (r : Resource) :
    Prop where
  name : r.name = d.name
  permissionSubject : r.permissionSubject = .generic
  relationSubject : r.relationSubject = .generic
  classified : ∀ m ∈ declared, Compiled.kindOf m.notes ≠ .unknown
  relations : Lists d .relation declared r.relations
  permissions : Lists d .permission declared r.permissions

theorem holds_empty (d : Compiled.Definition) : Holds d [] { name := d.name } :=
  ⟨rfl, rfl, rfl, by simp, SortedMap.indexes_empty, SortedMap.indexes_empty⟩

theorem Holds.member?_eq_none {d : Compiled.Definition} {declared : List Compiled.Declaration}
    {r : Resource} (h : Holds d declared r) {name : String} :
    r.member? name = none ↔ name ∉ declared.map Compiled.Declaration.name := by
  rw [Resource.member?, Option.or_eq_none_iff, h.relations.get?_eq_none,
    h.permissions.get?_eq_none, List.mem_map]
  constructor
  · rintro ⟨hrel, hperm⟩ ⟨m, hm, hname⟩
    cases hk : Compiled.kindOf m.notes with
    | relation => exact hrel m hm hname _ ⟨hk, rfl⟩
    | permission => exact hperm m hm hname _ ⟨hk, rfl⟩
    | unknown => exact h.classified m hm hk
  · intro hnone
    exact ⟨fun m hm hname => absurd ⟨m, hm, hname⟩ hnone,
      fun m hm hname => absurd ⟨m, hm, hname⟩ hnone⟩

private theorem Holds.file {d : Compiled.Definition} {declared : List Compiled.Declaration}
    {r : Resource} (h : Holds d declared r) {m : Compiled.Declaration}
    (hk : Compiled.kindOf m.notes ≠ .unknown)
    (hnew : m.name ∉ declared.map Compiled.Declaration.name) :
    Holds d (declared ++ [m]) (r.file (Member.unresolved d m)) := by
  have hclassified : ∀ x ∈ declared ++ [m], Compiled.kindOf x.notes ≠ .unknown := by
    intro x hx
    rcases List.mem_append.mp hx with hx | hx
    · exact h.classified x hx
    · exact List.mem_singleton.mp hx ▸ hk
  have hkind : (Member.unresolved d m).kind = Compiled.kindOf m.notes := rfl
  rw [Resource.file, hkind]
  by_cases hperm : Compiled.kindOf m.notes = .permission
  · rw [if_pos hperm]
    refine ⟨h.name, h.permissionSubject, h.relationSubject, hclassified, ?_, ?_⟩
    · exact h.relations.skip fun _ hv => by simp [hperm] at hv
    · exact h.permissions.insert hnew fun _ => by simp [hperm]
  · have hrel : Compiled.kindOf m.notes = .relation := by
      cases hkm : Compiled.kindOf m.notes <;> simp_all
    rw [if_neg hperm]
    refine ⟨h.name, h.permissionSubject, h.relationSubject, hclassified, ?_, ?_⟩
    · exact h.relations.insert hnew fun _ => by simp [hrel]
    · exact h.permissions.skip fun _ hv => hperm hv.1

theorem holds_declare {d : Compiled.Definition} {declared : List Compiled.Declaration}
    {r r' : Resource} {m : Compiled.Declaration} (hr : Holds d declared r)
    (h : declare d r m = .ok r') : Holds d (declared ++ [m]) r' := by
  obtain ⟨member, hmember, hnew, rfl⟩ := declare_eq_ok.mp h
  obtain ⟨hk, rfl⟩ := Member.ofDeclaration_eq_ok.mp hmember
  exact hr.file hk (hr.member?_eq_none.mp hnew)

private theorem exists_declare {d : Compiled.Definition} {declared : List Compiled.Declaration}
    {r : Resource} {m : Compiled.Declaration} (hr : Holds d declared r) :
    (∃ r', declare d r m = .ok r') ↔ Compiled.kindOf m.notes ≠ .unknown ∧
      m.name ∉ declared.map Compiled.Declaration.name := by
  rw [← hr.member?_eq_none]
  constructor
  · rintro ⟨r', h⟩
    obtain ⟨member, hmember, hnew, -⟩ := declare_eq_ok.mp h
    obtain ⟨hk, rfl⟩ := Member.ofDeclaration_eq_ok.mp hmember
    exact ⟨hk, hnew⟩
  · rintro ⟨hk, hnew⟩
    exact ⟨_, declare_eq_ok.mpr ⟨_, Member.ofDeclaration_eq_ok.mpr ⟨hk, rfl⟩, hnew, rfl⟩⟩

theorem holds_ofDefinition {d : Compiled.Definition} {r : Resource} (h : ofDefinition d = .ok r) :
    Holds d d.members r :=
  foldlM_holds (fun _ _ _ _ => holds_declare) (holds_empty d) h

theorem exists_ofDefinition {d : Compiled.Definition} :
    (∃ r, ofDefinition d = .ok r) ↔ d.WellNamed := by
  rw [ofDefinition, foldlM_accepts (fun _ _ _ _ => holds_declare)
    (fun _ _ _ => exists_declare) (holds_empty d)]
  constructor
  · rintro ⟨hclassified, hdistinct, -⟩
    exact ⟨hclassified, hdistinct⟩
  · rintro ⟨hclassified, hdistinct⟩
    exact ⟨hclassified, hdistinct, by simp⟩

/-- What a list of declarations makes of a definition's name is one resource type, in whatever order
they stand. -/
theorem Holds.ext {d d' : Compiled.Definition} {declared declared' : List Compiled.Declaration}
    {r r' : Resource} (h : Holds d declared r) (h' : Holds d' declared' r')
    (hname : d.name = d'.name) (hmember : Member.unresolved d = Member.unresolved d')
    (hdeclared : declared.Perm declared') : r = r' := by
  have hrelations : r.relations = r'.relations := by
    have hlist := h.relations
    simp only [Lists, hmember] at hlist
    exact hlist.perm h'.relations hdeclared
  have hpermissions : r.permissions = r'.permissions := by
    have hlist := h.permissions
    simp only [Lists, hmember] at hlist
    exact hlist.perm h'.permissions hdeclared
  cases r
  cases r'
  rw [mk.injEq]
  exact ⟨(h.name.trans hname).trans h'.name.symm, hpermissions, hrelations,
    h.permissionSubject.trans h'.permissionSubject.symm,
    h.relationSubject.trans h'.relationSubject.symm⟩

/-- Members that are declared once are filed. -/
theorem Holds.filed {d : Compiled.Definition} {declared : List Compiled.Declaration} {r : Resource}
    (h : Holds d declared r) (hdistinct : (declared.map Compiled.Declaration.name).Nodup) :
    r.Filed := by
  refine ⟨?_, ?_, ?_⟩
  · intro name member hget
    obtain ⟨m, -, hname, hk, rfl⟩ := (h.relations name member).mp hget
    exact ⟨hk, hname⟩
  · intro name member hget
    obtain ⟨m, -, hname, hk, rfl⟩ := (h.permissions name member).mp hget
    exact ⟨hk, hname⟩
  · intro name member hget
    obtain ⟨m, hm, hname, hk, -⟩ := (h.relations name member).mp hget
    rw [h.permissions.get?_eq_none]
    intro m' hm' hname' _ hstands
    obtain rfl := List.inj_on_of_nodup_map hdistinct hm hm' (hname.trans hname'.symm)
    rw [hk] at hstands
    cases hstands.1

theorem filed_ofDefinition {d : Compiled.Definition} {r : Resource} (h : ofDefinition d = .ok r) :
    r.Filed :=
  (holds_ofDefinition h).filed (exists_ofDefinition.mp ⟨r, h⟩).distinct

/-- The members of a resource type are those that its definition declares. -/
theorem member?_ofDefinition {d : Compiled.Definition} {r : Resource} (h : ofDefinition d = .ok r)
    {name : String} {found : Member} : r.member? name = some found ↔
      ∃ m ∈ d.members, m.name = name ∧ found = Member.unresolved d m := by
  have hr := holds_ofDefinition h
  constructor
  · intro hfound
    rcases Option.or_eq_some_iff.mp hfound with hrel | ⟨-, hperm⟩
    · obtain ⟨m, hm, hname, -, hmember⟩ := (hr.relations name found).mp hrel
      exact ⟨m, hm, hname, hmember⟩
    · obtain ⟨m, hm, hname, -, hmember⟩ := (hr.permissions name found).mp hperm
      exact ⟨m, hm, hname, hmember⟩
  · rintro ⟨m, hm, hname, hmember⟩
    rw [Resource.member?]
    cases hk : Compiled.kindOf m.notes with
    | relation =>
      have hrel := (hr.relations name found).mpr ⟨m, hm, hname, hk, hmember⟩
      rw [hrel, Option.some_or]
    | permission =>
      have hperm := (hr.permissions name found).mpr ⟨m, hm, hname, hk, hmember⟩
      cases hrel : r.relations.get? name with
      | none => rw [Option.none_or, hperm]
      | some rel =>
        have hnone := (filed_ofDefinition h).apart name rel hrel
        rw [hperm] at hnone
        cases hnone
    | unknown => exact absurd hk (hr.classified m hm)

end Resource

namespace Table

theorem define_eq_ok {t t' : Table} {d : Compiled.Definition} : t.define d = .ok t' ↔
    ∃ r, Resource.ofDefinition d = .ok r ∧ t.contains d.name = false ∧ t' = t.insert d.name r := by
  rw [define]
  cases hr : Resource.ofDefinition d with
  | error e => simp [bind, Except.bind]
  | ok r =>
    cases hnew : t.contains d.name with
    | true => simp [bind, Except.bind, throw, throwThe, MonadExceptOf.throw]
    | false => simp [bind, Except.bind, pure, Except.pure, eq_comm]

/-- A table has the resource types of a list of definitions and no others. -/
structure Holds (declared : List Compiled.Definition) (t : Table) : Prop where
  wellNamed : ∀ d ∈ declared, d.WellNamed
  resources : SortedMap.Indexes Compiled.Definition.name
    (fun d r => Resource.ofDefinition d = .ok r) declared t

theorem holds_empty : Holds [] .empty := ⟨by simp, SortedMap.indexes_empty⟩

theorem Holds.contains_eq_false {declared : List Compiled.Definition} {t : Table}
    (h : Holds declared t) {name : String} :
    t.contains name = false ↔ name ∉ declared.map Compiled.Definition.name := by
  rw [SortedMap.contains, Option.isSome_eq_false_iff, Option.isNone_iff_eq_none,
    h.resources.get?_eq_none, List.mem_map]
  constructor
  · rintro hnone ⟨d, hd, hname⟩
    obtain ⟨r, hr⟩ := Resource.exists_ofDefinition.mpr (h.wellNamed d hd)
    exact hnone d hd hname r hr
  · exact fun hno d hd hname => absurd ⟨d, hd, hname⟩ hno

theorem holds_define {declared : List Compiled.Definition} {t t' : Table}
    {d : Compiled.Definition} (ht : Holds declared t) (h : t.define d = .ok t') :
    Holds (declared ++ [d]) t' := by
  obtain ⟨r, hr, hnew, rfl⟩ := define_eq_ok.mp h
  have hwell : d.WellNamed := Resource.exists_ofDefinition.mp ⟨r, hr⟩
  refine ⟨?_, ?_⟩
  · intro x hx
    rcases List.mem_append.mp hx with hx | hx
    · exact ht.wellNamed x hx
    · exact List.mem_singleton.mp hx ▸ hwell
  · exact ht.resources.insert (ht.contains_eq_false.mp hnew) fun _ => by simp [hr, eq_comm]

private theorem exists_define {declared : List Compiled.Definition} {t : Table}
    {d : Compiled.Definition} (ht : Holds declared t) : (∃ t', t.define d = .ok t') ↔
      d.WellNamed ∧ d.name ∉ declared.map Compiled.Definition.name := by
  rw [← ht.contains_eq_false, ← Resource.exists_ofDefinition]
  constructor
  · rintro ⟨t', h⟩
    obtain ⟨r, hr, hnew, -⟩ := define_eq_ok.mp h
    exact ⟨⟨r, hr⟩, hnew⟩
  · rintro ⟨⟨r, hr⟩, hnew⟩
    exact ⟨_, define_eq_ok.mpr ⟨r, hr, hnew, rfl⟩⟩

theorem holds_ofCompiled {s : Compiled.Schema} {t : Table} (h : ofCompiled s = .ok t) :
    Holds s.definitions t :=
  foldlM_holds (fun _ _ _ _ => holds_define) holds_empty h

/-- A compiled schema has a table just when its names do not repeat and its members have kinds. -/
theorem exists_ofCompiled {s : Compiled.Schema} : (∃ t, ofCompiled s = .ok t) ↔ s.WellNamed := by
  rw [ofCompiled, foldlM_accepts (fun _ _ _ _ => holds_define) (fun _ _ _ => exists_define)
    holds_empty]
  constructor
  · rintro ⟨hwell, hdistinct, -⟩
    exact ⟨hwell, hdistinct⟩
  · rintro ⟨hwell, hdistinct⟩
    exact ⟨hwell, hdistinct, by simp⟩

theorem get?_ofCompiled {s : Compiled.Schema} {t : Table} (h : ofCompiled s = .ok t)
    {type : String} {r : Resource} : t.get? type = some r ↔
      ∃ d ∈ s.definitions, d.name = type ∧ Resource.ofDefinition d = .ok r :=
  (holds_ofCompiled h).resources type r

/-- The members of a table are those that its schema declares. -/
theorem member?_ofCompiled {s : Compiled.Schema} {t : Table} (h : ofCompiled s = .ok t)
    {id : MemberId} {found : Member} : t.member? id = some found ↔
      ∃ d ∈ s.definitions, d.name = id.type ∧ ∃ m ∈ d.members, m.name = id.member ∧
        found = Member.unresolved d m := by
  rw [Table.member?, Option.bind_eq_some_iff]
  constructor
  · rintro ⟨r, hr, hfound⟩
    obtain ⟨d, hd, hname, hdefinition⟩ := (get?_ofCompiled h).mp hr
    exact ⟨d, hd, hname, (Resource.member?_ofDefinition hdefinition).mp hfound⟩
  · rintro ⟨d, hd, hname, hmember⟩
    obtain ⟨r, hr⟩ := Resource.exists_ofDefinition.mpr
      ((exists_ofCompiled.mp ⟨t, h⟩).definitions d hd)
    exact ⟨r, (get?_ofCompiled h).mpr ⟨d, hd, hname, hr⟩,
      (Resource.member?_ofDefinition hr).mpr hmember⟩

/-- Each resource type of the table of a compiled schema is filed and has a definition. -/
theorem filed_ofCompiled {s : Compiled.Schema} {t : Table} (h : ofCompiled s = .ok t)
    {type : String} {r : Resource} (hr : t.get? type = some r) :
    r.Filed ∧ ∃ d ∈ s.definitions, d.name = type := by
  obtain ⟨d, hd, hname, hdefinition⟩ := (get?_ofCompiled h).mp hr
  exact ⟨Resource.filed_ofDefinition hdefinition, d, hd, hname⟩

theorem get?_eq_none_of_undefined {s : Compiled.Schema} {t : Table} (h : ofCompiled s = .ok t)
    {type : String} (hno : ∀ d ∈ s.definitions, d.name ≠ type) : t.get? type = none := by
  cases hr : t.get? type with
  | none => rfl
  | some r =>
    obtain ⟨-, d, hd, hname⟩ := filed_ofCompiled h hr
    exact absurd hname (hno d hd)

end Table

open Compiled in
/-- Folders in folders, with two permissions that refer to each other. -/
def folders : Compiled.Schema where
  definitions := [
    { name := "user" },
    { name := "group", members := [
      ((Declaration.relation "member").allow { type := "user" }).allow
        { type := "group", relation := some "member" }] },
    { name := "folder", members := [
      (Declaration.relation "parent").allow { type := "folder" },
      (Declaration.relation "viewer").allow { type := "user" },
      (Declaration.relation "auditor").remark "//spicegen:subject_type=group#member",
      .permission "view" (.ofUnion [.computed "viewer", .arrow "parent" "view", .computed "edit"]),
      .permission "edit" (.ofUnion [.computed "auditor", .computed "view"])] }]

def foldersTable : Table := (Table.ofCompiled folders).toOption.getD .empty

theorem ofCompiled_folders : Table.ofCompiled folders = .ok foldersTable := by decide +kernel

end AuthSchema
