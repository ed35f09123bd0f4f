import AuthSchema.Proofs.Hiding

/-! The names that generated code uses. Schemas are refused where two members of a definition have
one name, but comments can rename members afterwards, and nobody looks at the names that this gives.
So accessors of a resource type can collide, and it is told here which renamings make them. -/
namespace AuthSchema

namespace Compiled

/-- The name that comments give a member. -/
def Declaration.rename? (m : Declaration) : Option String :=
  (Instructions.ofComments m.comments).rename

/-- The name of a member in generated code. -/
def Declaration.publicName (m : Declaration) : String := m.rename?.getD m.name

/-- Two members are given one name, or one is given the name that the other one keeps. -/
def Declaration.Clash (m m' : Declaration) : Prop :=
  (∃ name, m.rename? = some name ∧ m'.rename? = some name) ∨
    (m.rename? = some m'.name ∧ m'.rename? = none)

/-- Members have one name in generated code where one of them clashes with the other, or where they
had one name before. -/
theorem Declaration.publicName_eq_iff {m m' : Declaration} : m.publicName = m'.publicName ↔
    m.Clash m' ∨ m'.Clash m ∨ (m.rename? = none ∧ m'.rename? = none ∧ m.name = m'.name) := by
  rw [publicName, publicName, Clash, Clash]
  cases m.rename? <;> cases m'.rename? <;> simp [eq_comm]

/-- Members of a kind that are not hidden. -/
def Definition.Shows (d : Definition) (kind : Kind) (hidden : String) (m : Declaration) : Prop :=
  m ∈ d.members ∧ kindOf m.notes = kind ∧ Shown [hidden] m.name

/-- No two members of a kind clash, unless one of them is hidden. -/
def Definition.ClashFree (d : Definition) (kind : Kind) (hidden : String) : Prop :=
  ∀ m m', d.Shows kind hidden m → d.Shows kind hidden m' → m.name ≠ m'.name → ¬ m.Clash m'

end Compiled

open Compiled in
/-- A map has the members that a definition shows, under the names that comments give them. -/
def Publishes (d : Definition) (kind : Kind) (hidden : String) (members : SortedMap Member) :
    Prop :=
  ∀ name shown, (∃ member, members.get? name = some member ∧ member.publicName = shown) ↔
    ∃ m, d.Shows kind hidden m ∧ m.name = name ∧ m.publicName = shown

namespace Publishes
open Compiled
variable {d : Definition} {kind : Kind} {hidden : String} {members members' : SortedMap Member}

private theorem of_lists (h : Resource.Lists d kind d.members members) :
    Publishes d kind "" members := by
  intro name shown
  constructor
  · rintro ⟨member, hmember, rfl⟩
    obtain ⟨m, hm, hname, hkind, rfl⟩ := (h name member).mp hmember
    exact ⟨m, ⟨hm, hkind, by simp [Shown]⟩, hname, rfl⟩
  · rintro ⟨m, ⟨hm, hkind, -⟩, hname, rfl⟩
    exact ⟨Member.unresolved d m, (h name _).mpr ⟨m, hm, hname, hkind, rfl⟩, rfl⟩

/-- What changes no names in generated code changes nothing about them. -/
theorem map (h : Publishes d kind hidden members) {f : String → Member → Member}
    (hf : ∀ name m, (f name m).publicName = m.publicName) :
    Publishes d kind hidden (members.map f) := by
  intro name shown
  rw [← h name shown, SortedMap.get?_map]
  cases members.get? name <;> simp [hf]

private theorem keeps (h : Publishes d kind "" members)
    (hkeeps : members.Keeps (Shown [hidden]) members') : Publishes d kind hidden members' := by
  intro name shown
  constructor
  · rintro ⟨member, hmember, rfl⟩
    obtain ⟨hmember, hshown⟩ := (hkeeps name member).mp hmember
    obtain ⟨m, ⟨hm, hkind, -⟩, rfl, hpublic⟩ := (h name _).mp ⟨member, hmember, rfl⟩
    exact ⟨m, ⟨hm, hkind, hshown⟩, rfl, hpublic⟩
  · rintro ⟨m, ⟨hm, hkind, hshown⟩, rfl, rfl⟩
    obtain ⟨member, hmember, hpublic⟩ :=
      (h m.name _).mpr ⟨m, ⟨hm, hkind, by simp [Shown]⟩, rfl, rfl⟩
    exact ⟨member, (hkeeps m.name member).mpr ⟨hmember, hshown⟩, hpublic⟩

/-- The names are distinct just where no members clash. -/
theorem nodup_iff (h : Publishes d kind hidden members) :
    (members.values.map Member.publicName).Nodup ↔ d.ClashFree kind hidden := by
  rw [SortedMap.nodup_map_values_iff]
  constructor
  · intro hdistinct m m' hm hm' hne hclash
    obtain ⟨member, hmember, hpublic⟩ := (h m.name _).mpr ⟨m, hm, rfl, rfl⟩
    obtain ⟨member', hmember', hpublic'⟩ := (h m'.name _).mpr ⟨m', hm', rfl, rfl⟩
    refine hne (hdistinct m.name m'.name member member' hmember hmember' ?_)
    rw [hpublic, hpublic']
    exact Declaration.publicName_eq_iff.mpr (Or.inl hclash)
  · intro hfree name name' member member' hmember hmember' hsame
    obtain ⟨m, hm, rfl, hpublic⟩ := (h name _).mp ⟨member, hmember, rfl⟩
    obtain ⟨m', hm', rfl, hpublic'⟩ := (h name' _).mp ⟨member', hmember', rfl⟩
    by_contra hne
    rw [← hpublic, ← hpublic'] at hsame
    rcases Declaration.publicName_eq_iff.mp hsame with hclash | hclash | ⟨-, -, hname⟩
    · exact hfree m m' hm hm' hne hclash
    · exact hfree m' m hm' hm (Ne.symm hne) hclash
    · exact hne hname

end Publishes

namespace Schema
variable {plan : Plan} {c : Compiled.Schema} {s : Schema}

/-- A resolved resource type has the members that its definition shows, under the names that
comments give them. -/
theorem publishes_ofCompiled (h : ofCompiled plan c = .ok s) {type : String} {r : Resource}
    (hr : s.resources.get? type = some r) : ∃ d ∈ c.definitions, d.name = type ∧
      Publishes d .permission plan.hidden r.permissions ∧
      Publishes d .relation plan.hidden r.relations := by
  obtain ⟨t, ht, -, rfl⟩ := ofCompiled_eq_ok_solution.mp h
  have hkeeps := keeps_hide
    ⟨(Resolution.solution plan.policy.depthLimit t).narrow, caveatsOf c⟩ plan.hidden
  obtain ⟨resolved, hresolved, hkept⟩ := hkeeps.resources.back type r hr
  rw [Table.narrow, SortedMap.get?_map,
    Resolution.get?_stage (Resolution.variant_solution _ t)] at hresolved
  obtain ⟨_, hsolved, rfl⟩ := Option.map_eq_some_iff.mp hresolved
  obtain ⟨source, hsource, rfl⟩ := Option.map_eq_some_iff.mp hsolved
  obtain ⟨d, hd, hname, hdefinition⟩ := (Table.get?_ofCompiled ht).mp hsource
  have hholds := Resource.holds_ofDefinition hdefinition
  refine ⟨d, hd, hname, ?_, ?_⟩
  · refine Publishes.keeps ?_ hkept.permissions
    exact (Publishes.of_lists hholds.permissions).map fun _ _ => rfl
  · refine Publishes.keeps ?_ hkept.relations
    exact (Publishes.of_lists hholds.relations).map fun _ _ => rfl

/-- Generated code has distinct names for the permissions of a resource type, and for its relations,
just where no two of them are renamed alike and none is renamed to the name that another one keeps.
In particular, members that are not renamed do not collide. -/
theorem ofCompiled_publicNames (h : ofCompiled plan c = .ok s) {type : String} {r : Resource}
    (hr : s.resources.get? type = some r) : ∃ d ∈ c.definitions, d.name = type ∧
      ((r.permissions.values.map Member.publicName).Nodup ↔ d.ClashFree .permission plan.hidden) ∧
      ((r.relations.values.map Member.publicName).Nodup ↔ d.ClashFree .relation plan.hidden) := by
  obtain ⟨d, hd, hname, hpermissions, hrelations⟩ := publishes_ofCompiled h hr
  exact ⟨d, hd, hname, hpermissions.nodup_iff, hrelations.nodup_iff⟩

section Example
open Compiled Compiled.Expression

/-- Documents that are read and viewed by readers, both under one name in generated code. The name
that owners are given there is the one that their readers give up. -/
def seenDocuments : Compiled.Schema where
  definitions := [
    { name := "user" },
    { name := "document", members := [
      ((Declaration.relation "owner").allow { type := "user" }).remark "//spicegen:rename=reader",
      ((Declaration.relation "reader").allow { type := "user" }).remark "//spicegen:rename=user",
      (Declaration.permission "read" (.ofUnion [.computed "reader"])).remark
        "//spicegen:rename=can_see",
      (Declaration.permission "view" (.ofUnion [.computed "reader"])).remark
        "//spicegen:rename=can_see"] }]

def seenTable : Table := (Table.ofCompiled seenDocuments).toOption.getD .empty

def seenSchema : Schema :=
  ⟨(Resolution.solution none seenTable).narrow, caveatsOf seenDocuments⟩

private theorem ofCompiled_seenDocuments : ofCompiled {} seenDocuments = .ok seenSchema := by
  have ht : Table.ofCompiled seenDocuments = .ok seenTable := by decide +kernel
  exact (ofCompiled_eq_ok_of_table ht).mpr ⟨by decide +kernel, rfl⟩

private theorem exists_seenSchema : ∃ r, seenSchema.resources.get? "document" = some r ∧
    r.permissions.values.map Member.publicName = ["can_see", "can_see"] ∧
    r.relations.values.map Member.publicName = ["reader", "user"] := by
  have hdocument : (seenSchema.resources.get? "document").any (fun r =>
      r.permissions.values.map Member.publicName = ["can_see", "can_see"] ∧
      r.relations.values.map Member.publicName = ["reader", "user"]) = true := by decide +kernel
  obtain ⟨r, hr, hnames⟩ := (Option.any_eq_true _ _).mp hdocument
  exact ⟨r, hr, of_decide_eq_true hnames⟩

theorem ofCompiled_publicNames_documents : ∃ r, ofCompiled {} seenDocuments = .ok seenSchema ∧
    seenSchema.resources.get? "document" = some r ∧ ∃ d ∈ seenDocuments.definitions,
      d.name = "document" ∧ (¬ (r.permissions.values.map Member.publicName).Nodup ∧
        ¬ d.ClashFree .permission "") ∧
      (r.relations.values.map Member.publicName).Nodup ∧ d.ClashFree .relation "" := by
  obtain ⟨r, hr, hpermissions, hrelations⟩ := exists_seenSchema
  obtain ⟨d, hd, hname, hpermissionsFree, hrelationsFree⟩ :=
    ofCompiled_publicNames ofCompiled_seenDocuments hr
  have hcollide : ¬ (r.permissions.values.map Member.publicName).Nodup := by
    rw [hpermissions]
    decide
  have hdistinct : (r.relations.values.map Member.publicName).Nodup := by
    rw [hrelations]
    decide
  exact ⟨r, ofCompiled_seenDocuments, hr, d, hd, hname,
    ⟨hcollide, fun hfree => hcollide (hpermissionsFree.mpr hfree)⟩, hdistinct,
    hrelationsFree.mp hdistinct⟩

/-- So names in generated code are not always distinct. -/
theorem not_forall_publicNames_nodup : ¬ ∀ (plan : Plan) (c : Compiled.Schema) (s : Schema),
    ofCompiled plan c = .ok s → ∀ type r, s.resources.get? type = some r →
      (r.permissions.values.map Member.publicName).Nodup ∧
      (r.relations.values.map Member.publicName).Nodup := by
  intro h
  obtain ⟨r, hr, hnames, -⟩ := exists_seenSchema
  have hdistinct := (h {} seenDocuments seenSchema ofCompiled_seenDocuments "document" r hr).1
  rw [hnames] at hdistinct
  exact absurd hdistinct (by decide)

end Example

end Schema

end AuthSchema
