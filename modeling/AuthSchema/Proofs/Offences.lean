import AuthSchema.Proofs.Guarantees

/-! What a compiled schema is refused for. A schema has a table just when no name repeats and every
member has a noted kind, and the table has all that is declared; else the first definition that
offends decides the error, and in it the first member that does, before the name of the definition
is looked at. -/
namespace AuthSchema

/-- The first element of a list to offend, each judged after those that stand before it. -/
def FirstOffence {α ε : Type} (Offends : List α → α → ε → Prop) (l : List α) (e : ε) : Prop :=
  ∃ before a after, l = before ++ a :: after ∧ Offends before a e ∧
    ∀ done x rest, before = done ++ x :: rest → ∀ e', ¬ Offends done x e'

section Fold
variable {ε α β : Type} {f : β → α → Except ε β} {Holds : List α → β → Prop}
  {Offends : List α → α → ε → Prop}

/-- A value that has to pass a test is refused for its own error or for that of the test. -/
theorem bind_guard_eq_error {γ : Type} {x : Except ε α} {p : α → Bool} {refusal : α → ε} {g : α → γ}
    {e : ε} : (do
      let a ← x
      if p a then throw (refusal a)
      return g a : Except ε γ) = .error e ↔
    x = .error e ∨ ∃ a, x = .ok a ∧ p a ∧ refusal a = e := by
  cases x with
  | error e' => simp [bind, Except.bind]
  | ok a =>
    cases hp : p a <;>
      simp [hp, bind, Except.bind, throw, throwThe, MonadExceptOf.throw, pure, Except.pure]

/-- A fold succeeds where no step of it refuses. -/
theorem exists_foldlM_iff
    (hholds : ∀ done a b b', Holds done b → f b a = .ok b' → Holds (done ++ [a]) b')
    (hoffends : ∀ done b, Holds done b → ∀ a e, f b a = .error e ↔ Offends done a e)
    {b : β} (hb : Holds [] b) {l : List α} : (∃ b', l.foldlM f b = .ok b') ↔
      ∀ done x rest, l = done ++ x :: rest → ∀ e, ¬ Offends done x e := by
  constructor
  · rintro ⟨b', hb'⟩ done x rest rfl e he
    rw [List.foldlM_append] at hb'
    obtain ⟨c, hc, hrest⟩ := bind_eq_ok.mp hb'
    obtain ⟨c', hx, -⟩ := foldlM_cons_eq_ok.mp hrest
    rw [(hoffends done c (foldlM_holds hholds hb hc) x e).mpr he] at hx
    cases hx
  · intro hno
    cases hl : l.foldlM f b with
    | ok b' => exact ⟨b', rfl⟩
    | error e =>
      obtain ⟨done, x, rest, c, hsplit, hdone, hx⟩ := foldlM_eq_error.mp hl
      exact absurd ((hoffends done c (foldlM_holds hholds hb hdone) x e).mp hx)
        (hno done x rest hsplit e)

/-- Where a step refuses what offends against what it has taken, a fold reports the first
offence. -/
theorem foldlM_eq_error_iff
    (hholds : ∀ done a b b', Holds done b → f b a = .ok b' → Holds (done ++ [a]) b')
    (hoffends : ∀ done b, Holds done b → ∀ a e, f b a = .error e ↔ Offends done a e)
    {b : β} (hb : Holds [] b) {l : List α} {e : ε} :
    l.foldlM f b = .error e ↔ FirstOffence Offends l e := by
  rw [foldlM_eq_error]
  constructor
  · rintro ⟨done, a, rest, c, hsplit, hdone, ha⟩
    exact ⟨done, a, rest, hsplit, (hoffends done c (foldlM_holds hholds hb hdone) a e).mp ha,
      (exists_foldlM_iff hholds hoffends hb).mp ⟨c, hdone⟩⟩
  · rintro ⟨done, a, rest, hsplit, ha, hno⟩
    obtain ⟨c, hdone⟩ := (exists_foldlM_iff hholds hoffends hb).mpr hno
    exact ⟨done, a, rest, c, hsplit, hdone,
      (hoffends done c (foldlM_holds hholds hb hdone) a e).mpr ha⟩

end Fold

namespace Compiled

/-- The first of the notes to give a kind gives this one. -/
inductive Classified : List Note → Kind → Prop
  | relation (rest : List Note) : Classified (.kind .relation :: rest) .relation
  | permission (rest : List Note) : Classified (.kind .permission :: rest) .permission
  | unspecified {rest : List Note} {k : Kind} (h : Classified rest k) :
    Classified (.kind .unspecified :: rest) k
  | comment (content : String) {rest : List Note} {k : Kind} (h : Classified rest k) :
    Classified (.comment content :: rest) k
  | other {rest : List Note} {k : Kind} (h : Classified rest k) : Classified (.other :: rest) k

/-- Some note of a member says that it is a relation or a permission. -/
def Declaration.HasKind (m : Declaration) : Prop :=
  .kind .relation ∈ m.notes ∨ .kind .permission ∈ m.notes

private theorem Classified.kindOf_eq {notes : List Note} {k : Kind} (h : Classified notes k) :
    kindOf notes = k := by
  induction h with
  | relation rest => rfl
  | permission rest => rfl
  | unspecified h ih => exact ih
  | comment content h ih => exact ih
  | other h ih => exact ih

theorem classified_iff {notes : List Note} {k : Kind} :
    Classified notes k ↔ kindOf notes = k ∧ k ≠ .unknown := by
  constructor
  · intro h
    refine ⟨h.kindOf_eq, ?_⟩
    induction h with
    | relation rest => simp
    | permission rest => simp
    | unspecified h ih => exact ih
    | comment content h ih => exact ih
    | other h ih => exact ih
  · rintro ⟨rfl, hk⟩
    induction notes with
    | nil => exact absurd rfl hk
    | cons note rest ih =>
      cases note with
      | kind mark =>
        cases mark with
        | relation => exact .relation rest
        | permission => exact .permission rest
        | unspecified => exact .unspecified (ih hk)
      | comment content => exact .comment content (ih hk)
      | other => exact .other (ih hk)

theorem Declaration.hasKind_iff {m : Declaration} : m.HasKind ↔ kindOf m.notes ≠ .unknown := by
  rw [HasKind]
  induction m.notes with
  | nil => simp [kindOf]
  | cons note rest ih =>
    cases note with
    | kind mark => cases mark <;> simp_all [kindOf]
    | comment content => simp_all [kindOf]
    | other => simp_all [kindOf]

/-- What is wrong with a member of a definition that stands after others. -/
inductive Declaration.Offends (d : Definition) (before : List Declaration) (m : Declaration) :
    DeclarationError → Prop
  /-- No note gives it a kind. -/
  | unclassified (h : ¬ m.HasKind) : Offends d before m (.unclassified ⟨d.name, m.name⟩)
  /-- It has a kind, and the name of another member. -/
  | duplicate (hkind : m.HasKind) (h : ∃ other ∈ before, other.name = m.name) :
    Offends d before m (.duplicateMember ⟨d.name, m.name⟩)

/-- What is wrong with a definition that stands after others. -/
inductive Definition.Offends (before : List Definition) (d : Definition) : DeclarationError → Prop
  /-- One of its members offends. -/
  | member {e : DeclarationError} (h : FirstOffence (Declaration.Offends d) d.members e) :
    Offends before d e
  /-- Its members do not, but it has the name of another definition. -/
  | duplicate (hmembers : ∀ e, ¬ FirstOffence (Declaration.Offends d) d.members e)
    (h : ∃ other ∈ before, other.name = d.name) : Offends before d (.duplicateDefinition d.name)

/-- Names that no two members or definitions share, and a kind for each member. -/
structure Schema.Acceptable (s : Schema) : Prop where
  definitions : (s.definitions.map Definition.name).Nodup
  members : ∀ d ∈ s.definitions, (d.members.map Declaration.name).Nodup
  kinds : ∀ d ∈ s.definitions, ∀ m ∈ d.members, m.HasKind

theorem Schema.acceptable_iff {s : Schema} : s.Acceptable ↔ s.WellNamed := by
  constructor
  · intro h
    exact ⟨fun d hd => ⟨fun m hm => Declaration.hasKind_iff.mp (h.kinds d hd m hm),
      h.members d hd⟩, h.definitions⟩
  · intro h
    exact ⟨h.distinct, fun d hd => (h.definitions d hd).distinct, fun d hd m hm =>
      Declaration.hasKind_iff.mpr ((h.definitions d hd).classified m hm)⟩

end Compiled

open Compiled (Classified)

theorem Member.ofDeclaration_eq_error {d : Compiled.Definition} {m : Compiled.Declaration}
    {e : DeclarationError} : Member.ofDeclaration d m = .error e ↔
      ¬ m.HasKind ∧ .unclassified ⟨d.name, m.name⟩ = e := by
  rw [Compiled.Declaration.hasKind_iff, not_not, Member.ofDeclaration]
  split
  · next hk => simp [hk]
  · next hk => simpa using fun hunknown => absurd hunknown hk

namespace Resource

/-- A member is refused for what it offends in. -/
theorem declare_eq_error {d : Compiled.Definition} {declared : List Compiled.Declaration}
    {r : Resource} (hr : Holds d declared r) (m : Compiled.Declaration) (e : DeclarationError) :
    declare d r m = .error e ↔ m.Offends d declared e := by
  have hrepeats : (r.member? m.name).isSome ↔ ∃ other ∈ declared, other.name = m.name := by
    rw [← List.mem_map, ← not_iff_not, ← hr.member?_eq_none, Option.not_isSome_iff_eq_none]
  have hrefused : declare d r m = .error e ↔ Member.ofDeclaration d m = .error e ∨
      ∃ member, Member.ofDeclaration d m = .ok member ∧ (r.member? member.name).isSome ∧
        .duplicateMember ⟨d.name, member.name⟩ = e := bind_guard_eq_error
  rw [hrefused, Member.ofDeclaration_eq_error]
  constructor
  · rintro (⟨hkind, rfl⟩ | ⟨member, hmember, hfound, rfl⟩)
    · exact .unclassified hkind
    · obtain ⟨hk, rfl⟩ := Member.ofDeclaration_eq_ok.mp hmember
      exact .duplicate (Compiled.Declaration.hasKind_iff.mpr hk) (hrepeats.mp hfound)
  · intro h
    cases h with
    | unclassified hkind => exact Or.inl ⟨hkind, rfl⟩
    | duplicate hkind h =>
      have hk := Compiled.Declaration.hasKind_iff.mp hkind
      exact Or.inr ⟨_, Member.ofDeclaration_eq_ok.mpr ⟨hk, rfl⟩, hrepeats.mpr h, rfl⟩

theorem ofDefinition_eq_error {d : Compiled.Definition} {e : DeclarationError} :
    ofDefinition d = .error e ↔ FirstOffence (Compiled.Declaration.Offends d) d.members e := by
  rw [ofDefinition]
  have hholds : ∀ done m r r', Holds d done r → declare d r m = .ok r' → Holds d (done ++ [m]) r' :=
    fun _ _ _ _ => holds_declare
  exact foldlM_eq_error_iff hholds (fun _ _ => declare_eq_error) (holds_empty d)

end Resource

namespace Table

/-- A definition is refused for what it offends in. -/
theorem define_eq_error {declared : List Compiled.Definition} {t : Table} (ht : Holds declared t)
    (d : Compiled.Definition) (e : DeclarationError) :
    t.define d = .error e ↔ d.Offends declared e := by
  have hrepeats : t.contains d.name ↔ ∃ other ∈ declared, other.name = d.name := by
    rw [← List.mem_map, ← not_iff_not, ← ht.contains_eq_false, Bool.not_eq_true]
  have hrefused : t.define d = .error e ↔ Resource.ofDefinition d = .error e ∨
      ∃ r, Resource.ofDefinition d = .ok r ∧ t.contains d.name ∧
        .duplicateDefinition d.name = e := bind_guard_eq_error
  rw [hrefused]
  constructor
  · rintro (hmember | ⟨r, hr, hfound, rfl⟩)
    · exact .member (Resource.ofDefinition_eq_error.mp hmember)
    · refine .duplicate (fun e h => ?_) (hrepeats.mp hfound)
      rw [Resource.ofDefinition_eq_error.mpr h] at hr
      cases hr
  · intro h
    cases h with
    | member h => exact Or.inl (Resource.ofDefinition_eq_error.mpr h)
    | duplicate hmembers h =>
      cases hr : Resource.ofDefinition d with
      | error e => exact absurd (Resource.ofDefinition_eq_error.mp hr) (hmembers e)
      | ok r => exact Or.inr ⟨r, rfl, hrepeats.mpr h, rfl⟩

theorem ofCompiled_eq_error_iff {s : Compiled.Schema} {e : DeclarationError} :
    ofCompiled s = .error e ↔ FirstOffence Compiled.Definition.Offends s.definitions e := by
  rw [ofCompiled]
  have hholds : ∀ done d t t', Holds done t → define t d = .ok t' → Holds (done ++ [d]) t' :=
    fun _ _ _ _ => holds_define
  exact foldlM_eq_error_iff hholds (fun _ _ => define_eq_error) holds_empty

end Table

/-- A resource type has each member that a definition declares, once, as it is declared and in the
map of its kind, and no other. -/
structure Resource.Files (d : Compiled.Definition) (r : Resource) : Prop where
  name : r.name = d.name
  once : (r.relations.keys ++ r.permissions.keys).Perm (d.members.map Compiled.Declaration.name)
  relation : ∀ m ∈ d.members, Classified m.notes .relation → ∃ member,
    Member.ofDeclaration d m = .ok member ∧ member.kind = .relation ∧
      r.relations.get? m.name = some member
  permission : ∀ m ∈ d.members, Classified m.notes .permission → ∃ member,
    Member.ofDeclaration d m = .ok member ∧ member.kind = .permission ∧
      r.permissions.get? m.name = some member

private theorem Resource.files_ofDefinition {d : Compiled.Definition} {r : Resource}
    (h : ofDefinition d = .ok r) : r.Files d := by
  have hr := holds_ofDefinition h
  have hdeclares := declares_ofDefinition h
  have hmade : ∀ {m : Compiled.Declaration} {k : Kind}, Classified m.notes k →
      Member.ofDeclaration d m = .ok (Member.unresolved d m) := fun hk =>
    Member.ofDeclaration_eq_ok.mpr ⟨hk.kindOf_eq ▸ (Compiled.classified_iff.mp hk).2, rfl⟩
  refine ⟨hr.name, ?_, ?_, ?_⟩
  · have hrest : (d.members.filter fun m => Compiled.kindOf m.notes = .permission) =
        d.members.filter fun m => !decide (Compiled.kindOf m.notes = .relation) := by
      apply List.filter_congr
      intro m hm
      have hk := hdeclares.classified m hm
      cases hkind : Compiled.kindOf m.notes <;> simp_all
    have hkeys := hdeclares.relations.append hdeclares.permissions
    rw [hrest, ← List.map_append] at hkeys
    exact hkeys.trans ((List.filter_append_perm _ d.members).map _)
  · intro m hm hk
    exact ⟨_, hmade hk, hk.kindOf_eq,
      (hr.relations m.name _).mpr ⟨m, hm, rfl, hk.kindOf_eq, rfl⟩⟩
  · intro m hm hk
    exact ⟨_, hmade hk, hk.kindOf_eq,
      (hr.permissions m.name _).mpr ⟨m, hm, rfl, hk.kindOf_eq, rfl⟩⟩

namespace Table

/-- A compiled schema has a table just when its names do not repeat and its members have kinds. The
table has one resource type for each definition with one member for each that it declares; a schema
without a table is refused for its first offence. -/
theorem ofCompiled_acceptable (s : Compiled.Schema) :
    ((∃ t, ofCompiled s = .ok t) ↔ s.Acceptable) ∧
    (∀ t, ofCompiled s = .ok t → t.keys.Perm (s.definitions.map Compiled.Definition.name) ∧
      ∀ d ∈ s.definitions, ∃ r, t.get? d.name = some r ∧ r.Files d) ∧
    ∀ e, ofCompiled s = .error e ↔ FirstOffence Compiled.Definition.Offends s.definitions e := by
  refine ⟨?_, ?_, fun e => ofCompiled_eq_error_iff⟩
  · rw [exists_ofCompiled, Compiled.Schema.acceptable_iff]
  · intro t ht
    refine ⟨Resolution.keys_ofCompiled ht, fun d hd => ?_⟩
    have hwell := exists_ofCompiled.mp ⟨t, ht⟩
    obtain ⟨r, hr⟩ := Resource.exists_ofDefinition.mpr (hwell.definitions d hd)
    exact ⟨r, (get?_ofCompiled ht).mpr ⟨d, hd, rfl, hr⟩, Resource.files_ofDefinition hr⟩

open Compiled in
/-- Documents whose viewers are declared twice, the second time without a kind, among users that
are defined twice. -/
def muddled : Compiled.Schema where
  definitions := [
    { name := "user" },
    { name := "document", members := [
      (Declaration.relation "viewer").allow { type := "user" },
      .unclassified "viewer",
      .permission "viewer" (.ofUnion [.computed "viewer"])] },
    { name := "user" }]

theorem ofCompiled_acceptable_folders :
    (folders.Acceptable ∧ ∃ r, foldersTable.get? "folder" = some r ∧
      (r.relations.keys ++ r.permissions.keys).Perm
        ["parent", "viewer", "auditor", "view", "edit"]) ∧
    FirstOffence Compiled.Definition.Offends muddled.definitions
      (.unclassified ⟨"document", "viewer"⟩) := by
  have hfolder : ∃ d ∈ folders.definitions, d.name = "folder" ∧
      d.members.map Compiled.Declaration.name = ["parent", "viewer", "auditor", "view", "edit"] :=
    ⟨_, .tail _ (.tail _ (.head _)), rfl, rfl⟩
  have hrefused : ofCompiled muddled = .error (.unclassified ⟨"document", "viewer"⟩) := by
    decide +kernel
  obtain ⟨haccepts, hhas, -⟩ := ofCompiled_acceptable folders
  obtain ⟨d, hd, hname, hmembers⟩ := hfolder
  obtain ⟨r, hr, hfiles⟩ := (hhas foldersTable ofCompiled_folders).2 d hd
  refine ⟨⟨haccepts.mp ⟨_, ofCompiled_folders⟩, r, hname ▸ hr, hmembers ▸ hfiles.once⟩, ?_⟩
  exact ((ofCompiled_acceptable muddled).2.2 _).mp hrefused

end Table

end AuthSchema
