import AuthSchema.Proofs.Acceptance
import AuthSchema.Proofs.DepthLimit

/-! The trails of diagnostics. Whatever resolution tells of references and of their depth, the trail
is a path that is really there: from the member that is reported, reference by reference, up to the
one that names something missing or beyond the limit. -/
namespace AuthSchema.Resolution

/-- The references that stand in a member: those of its override, or else its edges. -/
def standing (m : Member) : List (String × SubjectRelation) :=
  match m.activeOverride with
  | some subjects => subjects.entries
  | none => m.edges.map fun e => (e.type, e.subject)

/-- A reference that stands in a member which trails go through: the one they start from, a
relation, or a member with an override. -/
def Refers (t : Table) (start m : MemberId) (ref : String × SubjectRelation) : Prop :=
  ∃ found, t.member? m = some found ∧
    (m = start ∨ found.kind = .relation ∨ found.activeOverride ≠ none) ∧ ref ∈ standing found

/-- How a trail ends: at a member with a reference to what is missing, all members up to there being
in the table, or with the first member that is too far away. -/
inductive TrailEnds (t : Table) (limit : Option Nat) (start : MemberId) (trail : Trail) :
    Fault → Prop
  | missing {last ref reason} (hall : ∀ m ∈ trail, ∃ found, t.member? m = some found)
      (hlast : trail.getLast? = some last) (href : Refers t start last ref)
      (h : Dangles t ref reason) : TrailEnds t limit start trail reason
  | tooDeep {n} (hlimit : limit = some n) (hlength : trail.length = max n 1 + 2) :
      TrailEnds t limit start trail (.tooDeep n)

/-- A diagnostic whose trail is a path without repetitions from the member that is reported, one
without override, to what is wrong. -/
structure Traced (t : Table) (limit : Option Nat) (d : Diagnostic) : Prop where
  distinct : d.trail.Nodup
  starts : d.trail.head? = some d.member
  reported : ∃ found, t.member? d.member = some found ∧ found.activeOverride = none
  forward : d.trail.IsChain fun a b => Refers t d.member a (b.type, .userset b.member)
  ends : TrailEnds t limit d.member d.trail d.fault

theorem standing_of_no_override {m : Member} (h : m.activeOverride = none) {e : Edge}
    (he : e ∈ m.edges) : (e.type, e.subject) ∈ standing m := by
  rw [standing, h]
  exact List.mem_map.mpr ⟨e, he, rfl⟩

private theorem standing_of_userset {m : Member} {type relation : String}
    (h : (type, .userset relation) ∈ declared m) : (type, .userset relation) ∈ standing m := by
  cases ho : m.activeOverride with
  | some subjects =>
    rw [declared_of_override ho] at h
    rw [standing, ho]
    exact h
  | none =>
    obtain ⟨e, he, rfl, hsubject⟩ := edge_of_userset ho h
    exact hsubject ▸ standing_of_no_override ho he

private theorem refers_of_edge {t : Table} {m : MemberId} {found : Member}
    (hfound : t.member? m = some found) (ho : found.activeOverride = none) {e : Edge}
    (he : e ∈ found.edges) :
    Refers t m m (e.type, e.subject) :=
  ⟨found, hfound, Or.inl rfl, standing_of_no_override ho he⟩

/-- What is missing of an edge of the reported member has that member alone as its trail. -/
theorem traced_of_edge {t : Table} {limit : Option Nat} {d : Diagnostic} {found : Member} {e : Edge}
    (htrail : d.trail = [d.member]) (hfound : t.member? d.member = some found)
    (ho : found.activeOverride = none) (he : e ∈ found.edges)
    (h : Dangles t (e.type, e.subject) d.fault) : Traced t limit d where
  distinct := htrail ▸ List.nodup_singleton _
  starts := by rw [htrail, List.head?_singleton]
  reported := ⟨found, hfound, ho⟩
  forward := htrail ▸ List.isChain_singleton _
  ends := by
    rw [htrail]
    refine .missing ?_ rfl (refers_of_edge hfound ho he) h
    intro m hm
    obtain rfl := List.mem_singleton.mp hm
    exact ⟨found, hfound⟩

section Table
variable {t : Table} {limit : Option Nat} (ht : Filed t)
include ht

/-- A chain follows references that stand in its members. -/
theorem Chain.forward {start : MemberId} {hops : List MemberId} (h : Chain t start hops) :
    (start :: hops).IsChain fun a b => Refers t start a (b.type, .userset b.member) := by
  induction h with
  | first hp ho he hm _ =>
    obtain ⟨htype, hsubject⟩ := target?_eq.mp hm
    rw [List.isChain_pair, ← htype, ← hsubject]
    exact refers_of_edge (ht.member?_eq hp) ho he
  | next _ hm hgoes href _ _ ih =>
    rw [← List.cons_append, List.isChain_append]
    refine ⟨ih, List.isChain_singleton _, ?_⟩
    intro a ha b hb
    rw [← List.cons_append, List.getLast?_concat, Option.mem_some_iff] at ha
    rw [List.head?_singleton, Option.mem_some_iff] at hb
    subst ha hb
    exact ⟨_, hm, Or.inr hgoes, standing_of_userset href⟩

/-- The permission that a chain starts from has no override. -/
theorem Chain.reported {start : MemberId} {hops : List MemberId} (h : Chain t start hops) :
    ∃ found, t.member? start = some found ∧ found.activeOverride = none := by
  obtain ⟨p, hp, hfollows⟩ := h.isOpen
  exact ⟨p, ht.member?_eq hp, (followsEdges_iff.mp hfollows).1⟩

/-- All members of a chain but the last are in the table. -/
theorem Chain.present {start : MemberId} {hops : List MemberId} (h : Chain t start hops) :
    ∀ m ∈ (start :: hops).dropLast, ∃ found, t.member? m = some found := by
  induction h with
  | first hp _ _ _ _ =>
    intro m hm
    obtain rfl := List.mem_singleton.mp hm
    exact ⟨_, ht.member?_eq hp⟩
  | next _ hfound _ _ _ _ ih =>
    intro m hm
    rw [← List.cons_append, List.dropLast_concat, ← List.cons_append] at hm
    rw [← List.cons_append, List.dropLast_concat] at ih
    rcases List.mem_append.mp hm with hm | hm
    · exact ih m hm
    · obtain rfl := List.mem_singleton.mp hm
      exact ⟨_, hfound⟩

/-- A chain leads up to the reference of its last member. -/
theorem Chain.arrives {start m : MemberId} {hops : List MemberId}
    (h : Chain t start (hops ++ [m])) :
    ((start :: hops).IsChain fun a b => Refers t start a (b.type, .userset b.member)) ∧
      ∃ last, (start :: hops).getLast? = some last ∧
        Refers t start last (m.type, .userset m.member) := by
  have hforward := h.forward ht
  rw [← List.cons_append, List.isChain_append] at hforward
  obtain ⟨hbefore, -, hlast⟩ := hforward
  have hsome := List.getLast?_eq_some_getLast (List.cons_ne_nil start hops)
  exact ⟨hbefore, _, hsome, hlast _ hsome m rfl⟩

private theorem Trailed.traced {start : MemberId} {reason : Fault} {trail : Trail}
    (h : Trailed t limit start reason trail) : Traced t limit ⟨start, reason, trail⟩ := by
  cases h with
  | object hp ho he hnone => exact traced_of_edge rfl (ht.member?_eq hp) ho he (.type hnone)
  | @missing hops m _ hchain hm =>
    obtain ⟨hforward, last, hlast, hrefers⟩ := hchain.arrives ht
    have hdistinct : (start :: hops).Nodup :=
      List.Nodup.of_append_left (List.cons_append ▸ hchain.nodup)
    have hall := hchain.present ht
    rw [← List.cons_append, List.dropLast_concat] at hall
    exact ⟨hdistinct, rfl, hchain.reported ht, hforward, .missing hall hlast hrefers hm⟩
  | tooDeep hlimit hchain hlength =>
    refine ⟨hchain.nodup, rfl, hchain.reported ht, hchain.forward ht, .tooDeep hlimit ?_⟩
    rw [List.length_cons, hlength]

/-- Relations look one step ahead, so their trails are the relations themselves. -/
theorem traced_of_relation {d : Diagnostic} (hd : d ∈ allRelationDiagnostics t) :
    Traced t limit d := by
  have htrail : d.trail = [d.member] := by
    obtain ⟨⟨type, r⟩, -, hd⟩ := List.mem_flatMap.mp hd
    obtain ⟨rel, -, hd⟩ := List.mem_flatMap.mp hd
    rw [relationDiagnostics] at hd
    split at hd
    · obtain ⟨reason, -, rfl⟩ := List.mem_map.mp hd
      rfl
    · cases hd
  obtain ⟨rel, hrel, ho, e, he, hdangles⟩ :=
    (mem_allRelationDiagnostics ht).mp ⟨d, hd, rfl, rfl⟩
  have hfound : t.member? d.member = some rel := by
    obtain ⟨r, hr, hget⟩ := relation?_iff.mp hrel
    rw [Table.member?, hr, Option.bind_some, Resource.member?, hget, Option.some_or]
  exact traced_of_edge htrail hfound ho he hdangles

theorem traced_of_permission {d : Diagnostic}
    (hd : d ∈ permissionDiagnostics limit (seeded t)) : Traced t limit d := by
  obtain ⟨⟨start, edges⟩, hopen, hd⟩ := List.mem_flatMap.mp hd
  obtain ⟨f, hf, hdiagnostic⟩ := List.mem_filterMap.mp hd
  rw [openPermissions_seeded] at hopen
  cases f with
  | subject type => cases hdiagnostic
  | fault reason trail =>
    cases hdiagnostic
    exact (trailed_of_expand ht (Variant.refl _) hopen (plainOpen_seeded t) hf).traced ht

private theorem traced_of_mem_complaints {d : Diagnostic} (hd : d ∈ complaints limit t)
    (hfault : d.fault ≠ .noSubjects) : Traced t limit d := by
  rw [complaints] at hd
  split at hd
  · exact absurd (fault_of_mem_deadEnds hd) hfault
  · rcases List.mem_append.mp hd with hd | hd
    · exact traced_of_relation ht hd
    · exact traced_of_permission ht hd

end Table

/-- Every diagnostic of a missing type, a missing member or too deep a reference has a trail that is
there in the table, and tells its members as they are written. -/
theorem resolve_traced {schema : Compiled.Schema} {t : Table} {policy : Policy}
    {ds : List Diagnostic} (ht : Table.ofCompiled schema = .ok t)
    (h : resolve policy t = .error ds) :
    ∀ d ∈ ds, d.fault ≠ .noSubjects → Traced t policy.depthLimit d ∧
      d.trail.render = " -> ".intercalate (d.trail.map fun m => m.type ++ "#" ++ m.member) := by
  intro d hd hfault
  refine ⟨?_, rfl⟩
  have hmem : d ∈ complaints policy.depthLimit t := by
    obtain ⟨-, rfl⟩ := resolve_eq_error.mp h
    split at hd
    · exact List.mem_of_mem_take hd
    · exact hd
  exact traced_of_mem_complaints (filed_of_compiled ht) hmem hfault

section Example
open Compiled Compiled.Expression

/-- Folders that are viewed by auditors and keepers: the ones are the members of groups, which take
in those of an organisation, and the others are declared to be owners of groups, which there are
none of. -/
def strayFolders : Compiled.Schema where
  definitions := [
    { name := "user" },
    { name := "org", members := [(Declaration.relation "member").allow { type := "user" }] },
    { name := "group", members := [
      (Declaration.relation "member").allow { type := "org", relation := some "member" }] },
    { name := "folder", members := [
      (Declaration.relation "auditor").remark "//spicegen:subject_type=group#member",
      (Declaration.relation "keeper").remark "//spicegen:subject_type=group#owner",
      .permission "view" (.ofUnion [.computed "auditor", .computed "keeper"])] }]

def strayTable : Table := (Table.ofCompiled strayFolders).toOption.getD .empty

theorem resolve_traced_folders :
    Table.ofCompiled strayFolders = .ok strayTable ∧ ∃ deep missing,
      resolve ⟨some 2, false⟩ strayTable = .error [deep, missing] ∧
      deep.trail = [⟨"folder", "view"⟩, ⟨"folder", "auditor"⟩, ⟨"group", "member"⟩,
        ⟨"org", "member"⟩] ∧ deep.fault = .tooDeep 2 ∧ Traced strayTable (some 2) deep ∧
      missing.trail = [⟨"folder", "view"⟩, ⟨"folder", "keeper"⟩] ∧
      missing.fault = .unknownMember ⟨"group", "owner"⟩ ∧ Traced strayTable (some 2) missing := by
  have ht : Table.ofCompiled strayFolders = .ok strayTable := by decide +kernel
  have h : resolve ⟨some 2, false⟩ strayTable = .error [
      ⟨⟨"folder", "view"⟩, .tooDeep 2, [⟨"folder", "view"⟩, ⟨"folder", "auditor"⟩,
        ⟨"group", "member"⟩, ⟨"org", "member"⟩]⟩,
      ⟨⟨"folder", "view"⟩, .unknownMember ⟨"group", "owner"⟩,
        [⟨"folder", "view"⟩, ⟨"folder", "keeper"⟩]⟩] :=
    resolve_eq_error.mpr (by decide +kernel)
  have htraced := resolve_traced ht h
  exact ⟨ht, _, _, h, rfl, rfl, (htraced _ (by simp) (by simp)).1, rfl, rfl,
    (htraced _ (by simp) (by simp)).1⟩

end Example

end AuthSchema.Resolution
