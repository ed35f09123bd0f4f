import AuthSchema.Proofs.Declared
import AuthSchema.Proofs.Solution

/-! Reachability over declared references against what the solution allows. Both directions follow
the references of one state: an open permission shows its subjects there, any other member its
declared references. -/
namespace AuthSchema.Resolution
variable {limit : Option Nat}

/-- The references of a member as declared: its override, any subject where there is nothing to
follow, or its edges. -/
def declared (m : Member) : List (String × SubjectRelation) :=
  match m.activeOverride with
  | some subjects => subjects.entries
  | none =>
    if m.edges.isEmpty then [(anyType, .itself)] else m.edges.map fun e => (e.type, e.subject)

/-- A subject type that can be reached from a member along declared references. -/
inductive Reaches (t : Table) : MemberId → String → Prop
  | object {m found type} (hm : t.member? m = some found) (h : (type, .itself) ∈ declared found) :
      Reaches t m type
  | any {m found subject} (hm : t.member? m = some found)
      (h : (anyType, subject) ∈ declared found) : Reaches t m anyType
  | through {m found next type} (hm : t.member? m = some found)
      (h : (next.type, .userset next.member) ∈ declared found) (hany : next.type ≠ anyType)
      (hnext : Reaches t next type) : Reaches t m type

theorem declared_of_follows {m : Member} (h : followsEdges m = true) :
    declared m = m.edges.map fun e => (e.type, e.subject) := by
  obtain ⟨hoverride, hedges⟩ := followsEdges_iff.mp h
  simp [declared, hoverride, hedges]

theorem declared_of_not_follows {m : Member} (h : followsEdges m = false) :
    declared m = (fixedSubjects m).entries := by
  rw [declared, fixedSubjects]
  cases hoverride : m.activeOverride with
  | some subjects => rfl
  | none =>
    have hedges : m.edges.isEmpty = true := by simpa [followsEdges, hoverride] using h
    simp only [hedges, if_true]
    rfl

/-- Every resource type of a table is filed. -/
def Filed (t : Table) : Prop := ∀ type r, t.get? type = some r → r.Filed

private theorem outgoing_relation (t : Table) {m : Member} (hk : m.kind = .relation) :
    outgoing { m with subjects := relationSubjects t m } = declared m := by
  cases hf : followsEdges m with
  | true =>
    rw [declared_of_follows hf]
    exact outgoing_of_relation (p := { m with subjects := relationSubjects t m }) hk hf
  | false =>
    have hsubjects : relationSubjects t m = fixedSubjects m := if_neg (by simp [hf])
    have hf' : followsEdges { m with subjects := fixedSubjects m } = false := hf
    rw [declared_of_not_follows hf, hsubjects, outgoing, hf']
    simp

private theorem outgoing_permission {p : Member} (hk : p.kind = .permission)
    (subjects : SubjectMap) : outgoing { p with subjects } = subjects.entries :=
  outgoing_of_not_relation (p := { p with subjects }) (by simp [hk])

private theorem isOpen_iff_of_get? {t : Table} {m : MemberId} {r : Resource}
    (hr : t.get? m.type = some r) :
    IsOpen t m ↔ ∃ p, r.permissions.get? m.member = some p ∧ followsEdges p = true := by
  simp only [IsOpen, permission?, hr, Option.bind_some]

/-- The references of a member while permissions are being solved. -/
theorem references_stage {t s : Table} (ht : Filed t) (hs : Variant (seeded t) s) (m : MemberId) :
    (IsOpen t m ∧ references s m = .ok (subjectsAt s m).entries) ∨
      (¬ IsOpen t m ∧ references s m = (find t m).map declared) := by
  rw [references, find, get?_stage hs, find]
  cases hr : t.get? m.type with
  | none =>
    right
    refine ⟨?_, rfl⟩
    rintro ⟨p, hp, -⟩
    rw [permission?, hr] at hp
    cases hp
  | some r =>
    have hfiled := ht m.type r hr
    rw [isOpen_iff_of_get? hr]
    simp only [Option.map_some, Resource.member?, SortedMap.get?_map]
    cases hrel : r.relations.get? m.member with
    | some rel =>
      right
      rw [hfiled.apart _ rel hrel]
      refine ⟨by simp, ?_⟩
      exact congrArg Except.ok (outgoing_relation t (hfiled.relation _ rel hrel).1)
    | none =>
      cases hp : r.permissions.get? m.member with
      | none =>
        right
        exact ⟨by simp, rfl⟩
      | some p =>
        obtain ⟨hkind, -⟩ := hfiled.permission _ p hp
        cases hf : followsEdges p with
        | true =>
          left
          refine ⟨⟨p, rfl, hf⟩, ?_⟩
          simp only [Option.map_some, Option.map_none, Option.none_or, hf, if_true, Except.map,
            outgoing_permission hkind]
        | false =>
          right
          refine ⟨by simp [hf], ?_⟩
          simp only [Option.map_some, Option.map_none, Option.none_or, hf, Bool.false_eq_true,
            if_false, Except.map, outgoing_permission hkind, declared_of_not_follows hf]

theorem Filed.member?_eq {t : Table} (ht : Filed t) {m : MemberId} {p : Member}
    (hp : permission? t m = some p) : t.member? m = some p := by
  obtain ⟨r, hr, hget⟩ := permission?_iff.mp hp
  rw [Table.member?, hr, Option.bind_some, Resource.member?, hget]
  cases hrel : r.relations.get? m.member with
  | none => rfl
  | some rel =>
    have hnone := (ht m.type r hr).apart m.member rel hrel
    rw [hget] at hnone
    cases hnone

theorem Filed.permission_name {t : Table} (ht : Filed t) {m : MemberId} {p : Member}
    (hp : permission? t m = some p) : p.name = m.member := by
  obtain ⟨r, hr, hget⟩ := permission?_iff.mp hp
  exact ((ht m.type r hr).permission m.member p hget).2

theorem Filed.permission_kind {t : Table} (ht : Filed t) {m : MemberId} {p : Member}
    (hp : permission? t m = some p) : p.kind = .permission := by
  obtain ⟨r, hr, hget⟩ := permission?_iff.mp hp
  exact ((ht m.type r hr).permission m.member p hget).1

theorem type_ne_any {t : Table} {m : MemberId} {found : Member} (hstar : t.get? anyType = none)
    (h : t.member? m = some found) : m.type ≠ anyType := by
  obtain ⟨r, hr, -⟩ := Option.bind_eq_some_iff.mp h
  intro hany
  rw [hany, hstar] at hr
  cases hr

private theorem Reaches.member?_eq {t : Table} {m : MemberId} {type : String}
    (h : Reaches t m type) : ∃ found, t.member? m = some found := by
  cases h with
  | object hm _ => exact ⟨_, hm⟩
  | any hm _ => exact ⟨_, hm⟩
  | through hm _ _ _ => exact ⟨_, hm⟩

theorem target?_eq {e : Edge} {m : MemberId} :
    e.target? = some m ↔ e.type = m.type ∧ e.subject = .userset m.member := by
  obtain ⟨type, subject, caveat⟩ := e
  obtain ⟨type', member⟩ := m
  cases subject <;> simp [Edge.target?, SubjectRelation.relation?]

/-- The edges of an open permission are its declared references. -/
theorem mem_declared_of_open {t : Table} (ht : Filed t) {m : MemberId} {edges : List Edge}
    (hp : (m, edges) ∈ openPermissions t) : ∃ found, t.member? m = some found ∧
      ∀ type subject, (type, subject) ∈ declared found ↔
        ∃ e ∈ edges, e.type = type ∧ e.subject = subject := by
  obtain ⟨p, hperm, hfollows, rfl⟩ := mem_openPermissions.mp hp
  refine ⟨p, ht.member?_eq hperm, fun type subject => ?_⟩
  rw [declared_of_follows hfollows, List.mem_map]
  simp

theorem edge_of_declared {t : Table} (ht : Filed t) {m : MemberId} {found : Member} {type : String}
    {subject : SubjectRelation} (ho : IsOpen t m) (hfound : t.member? m = some found)
    (h : (type, subject) ∈ declared found) : ∃ edges, (m, edges) ∈ openPermissions t ∧
      ∃ e ∈ edges, e.type = type ∧ e.subject = subject := by
  obtain ⟨edges, hopen⟩ := isOpen_iff.mp ho
  obtain ⟨found', hfound', hdeclared⟩ := mem_declared_of_open ht hopen
  obtain rfl := Option.some.inj (hfound.symm.trans hfound')
  exact ⟨edges, hopen, (hdeclared type subject).mp h⟩

theorem openPermissions_stage {t s : Table} (hs : Variant (seeded t) s) :
    openPermissions s = openPermissions t := by
  rw [hs.openPermissions_eq, openPermissions_seeded]

theorem isOpen_stage {t s : Table} (hs : Variant (seeded t) s) {m : MemberId} :
    IsOpen s m ↔ IsOpen t m := hs.isOpen_iff.trans isOpen_seeded

section Stage
variable {t s : Table} (ht : Filed t) (hs : Variant (seeded t) s) (hp : PlainOpen s)
include ht hs

theorem find_stage {m : MemberId} {reason : Fault} :
    references s m = .error reason ↔ find t m = .error reason := by
  rcases references_stage ht hs m with ⟨⟨p, hperm, -⟩, hrefs⟩ | ⟨-, hrefs⟩
  · rw [hrefs, find_eq_ok.mpr (ht.member?_eq hperm)]
    simp
  · rw [hrefs]
    cases find t m <;> simp [Except.map]

/-- Members that are not open have their declared references. -/
theorem references_of_not_open {m : MemberId} {found : Member} (hm : ¬ IsOpen t m)
    (hfound : t.member? m = some found) : references s m = .ok (declared found) := by
  rcases references_stage ht hs m with ⟨ho, -⟩ | ⟨-, hrefs⟩
  · exact absurd ho hm
  · rw [hrefs, find_eq_ok.mpr hfound]
    rfl

theorem references_of_open {m : MemberId} (hm : IsOpen t m) :
    references s m = .ok (subjectsAt s m).entries := by
  rcases references_stage ht hs m with ⟨-, hrefs⟩ | ⟨hno, -⟩
  · exact hrefs
  · exact absurd hm hno

theorem declared_of_references {m : MemberId} (hm : ¬ IsOpen t m)
    {refs : List (String × SubjectRelation)} (hrefs : references s m = .ok refs) :
    ∃ found, t.member? m = some found ∧ declared found = refs := by
  rcases references_stage ht hs m with ⟨ho, -⟩ | ⟨-, hdeclared⟩
  · exact absurd ho hm
  · rw [hdeclared] at hrefs
    cases hfind : find t m with
    | error reason =>
      rw [hfind] at hrefs
      cases hrefs
    | ok found =>
      rw [hfind] at hrefs
      cases hrefs
      exact ⟨found, find_eq_ok.mp hfind, rfl⟩

include hp

/-- No path goes on from an open permission: it shows subject types only. -/
theorem not_hop_of_open {a b : MemberId} (ha : IsOpen t a) : ¬ Hop s a b := by
  rintro ⟨refs, hrefs, hmem, -⟩
  rw [references_of_open ht hs ha] at hrefs
  cases hrefs
  cases (hp a ((isOpen_stage hs).mpr ha)).mem_entries hmem

theorem gives_iff_of_open {m : MemberId} (hm : IsOpen t m) {type : String} :
    Gives s m (.ok type) ↔ Allows s m type := by
  have hrefs := references_of_open ht hs hm
  have hplain := hp m ((isOpen_stage hs).mpr hm)
  constructor
  · intro h
    cases h with
    | subject hrefs' hmem _ =>
      rw [hrefs] at hrefs'
      cases hrefs'
      exact hplain.mem_keys_iff.mp (List.mem_map.mpr ⟨_, hmem, rfl⟩)
  · intro ha
    exact .subject hrefs (SortedMap.mem_entries_iff.mpr ha) (Or.inl rfl)

theorem declared_of_hop {a b : MemberId} (h : Hop s a b) : ¬ IsOpen t a ∧ b.type ≠ anyType ∧
    ∃ found, t.member? a = some found ∧ (b.type, .userset b.member) ∈ declared found := by
  have ha : ¬ IsOpen t a := fun ho => not_hop_of_open ht hs hp ho h
  obtain ⟨refs, hrefs, hmem, hany⟩ := h
  obtain ⟨found, hfound, rfl⟩ := declared_of_references ht hs ha hrefs
  exact ⟨ha, hany, found, hfound, hmem⟩

/-- Walks come upon reachable subject types only, as long as open permissions allow no others. -/
theorem reaches_of_walk
    (hsound : ∀ m, IsOpen t m → ∀ type, Allows s m type → Reaches t m type) {avoid : Trail}
    {a b : MemberId} {type : String} (hw : Walk s avoid a b) (hg : Gives s b (.ok type)) :
    Reaches t a type := by
  induction hw using Relation.ReflTransGen.head_induction_on with
  | refl =>
    by_cases ho : IsOpen t b
    · exact hsound b ho type ((gives_iff_of_open ht hs hp ho).mp hg)
    · cases hg with
      | subject hrefs hmem hend =>
        obtain ⟨found, hfound, rfl⟩ := declared_of_references ht hs ho hrefs
        rcases hend with rfl | rfl
        · exact .object hfound hmem
        · exact .any hfound hmem
  | head hstep _ ih =>
    obtain ⟨-, hany, found, hfound, hmem⟩ := declared_of_hop ht hs hp hstep.1
    exact .through hfound hmem hany ih

end Stage

/-- Permissions never come to allow what cannot be reached from them. -/
theorem Run.sound {t s : Table} (h : Run limit (seeded t) s) (ht : Filed t)
    (hstar : t.get? anyType = none) :
    ∀ m, IsOpen t m → ∀ type, Allows s m type → Reaches t m type := by
  induction h with
  | refl => exact fun m hm type ha => absurd ha (not_allows_seeded hm type)
  | @tail s s' hrun hstep ih =>
    obtain ⟨⟨start, edges⟩, hmem, rfl⟩ := hstep
    have hv : Variant (seeded t) s := Run.variant hrun
    have hplain : PlainOpen s := Run.plainOpen hrun (plainOpen_seeded t)
    intro m hm type ha
    rcases (allows_extend hmem).mp ha with ha | ⟨rfl, hf⟩
    · exact ih m hm type ha
    · rw [openPermissions_stage hv] at hmem
      obtain ⟨found, hfound, hdeclared⟩ := mem_declared_of_open ht hmem
      rcases edgeGives_of_mem_expand (references_of_open ht hv hm) hf with
        ⟨e, he, hgives⟩ | ⟨n, -, hdeep⟩
      · cases hgives with
        | object hself hin => exact .object hfound ((hdeclared _ _).mpr ⟨e, he, rfl, hself⟩)
        | @walk x b _ htarget hne hw hg =>
          obtain ⟨htype, hsubject⟩ := target?_eq.mp htarget
          have hnext := reaches_of_walk ht hv hplain ih hw hg
          obtain ⟨next, hexists⟩ := hnext.member?_eq
          have hany := type_ne_any hstar hexists
          exact .through hfound ((hdeclared _ _).mpr ⟨e, he, htype, hsubject⟩) hany hnext
      · cases hdeep

/-- No edge of an open permission comes upon a fault. -/
def Faultless (t s : Table) : Prop :=
  ∀ m edges, (m, edges) ∈ openPermissions t → ∀ e ∈ edges, ∀ reason,
    ¬ EdgeGives s m e (.error reason)

theorem faultless_iff {t s : Table} (hs : Variant (seeded t) s) (hp : PlainOpen s) :
    Faultless t s ↔ permissionDiagnostics none (seeded t) = [] := by
  rw [← permissionDiagnostics_variant hs (plainOpen_seeded t) hp]
  constructor
  · intro h
    rw [List.eq_nil_iff_forall_not_mem]
    intro d hd
    obtain ⟨edges, hopen, e, he, hgives⟩ := mem_permissionDiagnostics.mp ⟨d, hd, rfl, rfl⟩
    rw [openPermissions_stage hs] at hopen
    exact h d.member edges hopen e he d.fault hgives
  · intro h m edges hopen e he reason hgives
    rw [← openPermissions_stage hs] at hopen
    obtain ⟨d, hd, -⟩ := mem_permissionDiagnostics.mpr ⟨edges, hopen, e, he, hgives⟩
    rw [h] at hd
    cases hd

/-- A walk that comes to a member can be cut there. -/
theorem Walk.cut {t : Table} {a b : MemberId} (h : Walk t [] a b) (m : MemberId) :
    Walk t [m] a b ∨ Walk t [] m b := by
  induction h with
  | refl => exact Or.inl .refl
  | @tail b c _ hstep ih =>
    rcases ih with hw | hw
    · by_cases hc : c = m
      · exact Or.inr (hc ▸ .refl)
      · exact Or.inl (hw.tail ⟨hstep.1, by simpa using hc⟩)
    · exact Or.inr (hw.tail hstep)

/-- In a settled state an open permission allows what its edges give. -/
theorem allows_of_edgeGives {t s : Table} (hs : Variant (seeded t) s) (hsettled : Settled none s)
    {m : MemberId} {edges : List Edge} {e : Edge} {type : String}
    (hm : (m, edges) ∈ openPermissions t) (he : e ∈ edges) (h : EdgeGives s m e (.ok type)) :
    Allows s m type := by
  have hmem : (m, edges) ∈ openPermissions s := by
    rw [openPermissions_stage hs]
    exact hm
  exact hsettled _ hmem type (subject_mem_expand he h)

theorem contains_stage {t s : Table} (hs : Variant (seeded t) s) (type : String) :
    s.contains type = (t.get? type).isSome := by
  rw [hs.contains_eq, SortedMap.contains, get?_seeded, Option.isSome_map]

/-- Where nothing is at fault, no edge of an open permission is on the type that stands for any. -/
theorem Faultless.type_ne_any {t s : Table} (hfaultless : Faultless t s) (ht : Filed t)
    (hs : Variant (seeded t) s) (hstar : t.get? anyType = none) {m : MemberId} {edges : List Edge}
    {e : Edge} (hm : (m, edges) ∈ openPermissions t) (he : e ∈ edges) : e.type ≠ anyType := by
  intro htype
  cases hsubject : e.subject with
  | itself =>
    have hno : s.contains e.type = false := by rw [contains_stage hs, htype, hstar]; rfl
    exact hfaultless m edges hm e he _ (.noType hsubject hno)
  | userset relation =>
    obtain ⟨found, hfound, -⟩ := mem_declared_of_open ht hm
    have hne : (⟨anyType, relation⟩ : MemberId) ≠ m := by
      rintro rfl
      exact Resolution.type_ne_any hstar hfound rfl
    have hmissing : references s ⟨anyType, relation⟩ = .error (.unknownType anyType) := by
      rw [find_stage ht hs, find, hstar]
    exact hfaultless m edges hm e he _
      (.walk (target?_eq.mpr ⟨htype, hsubject⟩) hne .refl (.missing hmissing))

section Settled
variable {t s : Table} (ht : Filed t) (hs : Variant (seeded t) s) (hp : PlainOpen s)
  (hsettled : Settled none s) (hfaultless : Faultless t s) (hstar : t.get? anyType = none)
include ht hs hp hsettled hfaultless hstar

/-- Where nothing is at fault, a walk in a settled state comes upon all that can be reached. -/
theorem walk_of_reaches {m : MemberId} {type : String} (h : Reaches t m type) :
    ∃ b, Walk s [] m b ∧ Gives s b (.ok type) := by
  induction h with
  | @object m found type hfound hmem =>
    refine ⟨m, .refl, ?_⟩
    by_cases ho : IsOpen t m
    · obtain ⟨edges, hopen, e, he, rfl, hself⟩ := edge_of_declared ht ho hfound hmem
      refine (gives_iff_of_open ht hs hp ho).mpr (allows_of_edgeGives hs hsettled hopen he ?_)
      cases hin : s.contains e.type with
      | true => exact .object hself hin
      | false => exact absurd (.noType hself hin) (hfaultless m edges hopen e he _)
    · exact .subject (references_of_not_open ht hs ho hfound) hmem (Or.inl rfl)
  | @any m found subject hfound hmem =>
    refine ⟨m, .refl, ?_⟩
    by_cases ho : IsOpen t m
    · obtain ⟨edges, hopen, e, he, htype, -⟩ := edge_of_declared ht ho hfound hmem
      exact absurd htype (hfaultless.type_ne_any ht hs hstar hopen he)
    · exact .subject (references_of_not_open ht hs ho hfound) hmem (Or.inr rfl)
  | @through m found next type hfound hmem hany _ ih =>
    obtain ⟨b, hw, hg⟩ := ih
    by_cases ho : IsOpen t m
    · obtain ⟨edges, hopen, e, he, htype, hsubject⟩ := edge_of_declared ht ho hfound hmem
      by_cases hne : next = m
      · exact ⟨b, hne ▸ hw, hg⟩
      · rcases hw.cut m with hcut | hback
        · have hgives := EdgeGives.walk (target?_eq.mpr ⟨htype, hsubject⟩) hne hcut hg
          have ha := allows_of_edgeGives hs hsettled hopen he hgives
          exact ⟨m, .refl, (gives_iff_of_open ht hs hp ho).mpr ha⟩
        · exact ⟨b, hback, hg⟩
    · have hhop : Hop s m next := ⟨_, references_of_not_open ht hs ho hfound, hmem, hany⟩
      exact ⟨b, .head ⟨hhop, List.not_mem_nil⟩ hw, hg⟩

private theorem allows_of_reaches {m : MemberId} {type : String} (ho : IsOpen t m)
    (h : Reaches t m type) : Allows s m type := by
  obtain ⟨b, hw, hg⟩ := walk_of_reaches ht hs hp hsettled hfaultless hstar h
  rcases hw.cases_head with rfl | ⟨next, hstep, -⟩
  · exact (gives_iff_of_open ht hs hp ho).mp hg
  · exact absurd hstep.1 (not_hop_of_open ht hs hp ho)

end Settled

/-- An open permission of a faultless solution allows exactly what can be reached from it. -/
theorem allows_solution_iff {t : Table} (ht : Filed t) (hstar : t.get? anyType = none)
    (hfaultless : Faultless t (solution none t)) {m : MemberId} (ho : IsOpen t m) {type : String} :
    Allows (solution none t) m type ↔ Reaches t m type := by
  constructor
  · exact (run_solution none t).sound ht hstar m ho type
  · exact allows_of_reaches ht (variant_solution none t) (plainOpen_solution none t)
      (settled_solution none t) hfaultless hstar ho

theorem permission?_stage {t s : Table} (hs : Variant (seeded t) s) {m : MemberId} {p : Member}
    (hp : permission? t m = some p) (hf : followsEdges p = true) :
    permission? s m = some { p with subjects := subjectsAt s m } := by
  rw [permission?_stage_eq hs, hp, Option.map_some, if_pos hf]

theorem filed_of_compiled {schema : Compiled.Schema} {t : Table}
    (h : Table.ofCompiled schema = .ok t) : Filed t :=
  fun _ _ hr => (Table.filed_ofCompiled h hr).1

theorem get?_any_of_compiled {schema : Compiled.Schema} {t : Table}
    (hstar : ∀ d ∈ schema.definitions, d.name ≠ anyType) (h : Table.ofCompiled schema = .ok t) :
    t.get? anyType = none := Table.get?_eq_none_of_undefined h hstar

/-- Resolution gives a permission that follows its edges the subject types that can be reached from
it and no others, all of them as objects. -/
theorem resolve_exact {schema : Compiled.Schema} {t r : Table} {policy : Policy}
    (hstar : ∀ d ∈ schema.definitions, d.name ≠ anyType) (ht : Table.ofCompiled schema = .ok t)
    (hlimit : policy.depthLimit = none) (h : resolve policy t = .ok r) {m : MemberId} {p : Member}
    (hp : permission? t m = some p) (hoverride : p.activeOverride = none) (hedges : p.edges ≠ []) :
    ∃ subjects, permission? r m = some { p with subjects } ∧
      (∀ type, type ∈ subjects.keys ↔ Reaches t m type) ∧
      ∀ e ∈ subjects.entries, e.2 = .itself := by
  obtain ⟨hnone, rfl⟩ := resolve_eq_ok.mp h
  rw [hlimit] at hnone ⊢
  obtain ⟨-, hdiagnostics, -⟩ := complaints_eq_nil.mp hnone
  have hs := variant_solution none t
  have hplain := plainOpen_solution none t
  have hfollows : followsEdges p = true := followsEdges_iff.mpr ⟨hoverride, hedges⟩
  have ho : IsOpen t m := ⟨p, hp, hfollows⟩
  have hsubjects := hplain m ((isOpen_stage hs).mpr ho)
  refine ⟨_, permission?_stage hs hp hfollows, fun type => ?_, fun e he => hsubjects.mem_entries he⟩
  rw [hsubjects.mem_keys_iff]
  exact allows_solution_iff (filed_of_compiled ht) (get?_any_of_compiled hstar ht)
    ((faultless_iff hs hplain).mpr hdiagnostics) ho

/-- The permission to view a folder, before resolution. -/
def folderView : Member where
  name := "view"
  publicName := "view"
  kind := .permission
  edges := [.through "folder" "viewer", .through "folder" "view", .through "folder" "edit"]

theorem resolve_exact_folders :
    (∀ d ∈ folders.definitions, d.name ≠ anyType) ∧
    Table.ofCompiled folders = .ok foldersTable ∧
    resolve {} foldersTable = .ok (solution none foldersTable) ∧
    permission? foldersTable ⟨"folder", "view"⟩ = some folderView ∧
    folderView.activeOverride = none ∧ folderView.edges ≠ [] ∧
    ∃ subjects, permission? (solution none foldersTable) ⟨"folder", "view"⟩ =
        some { folderView with subjects } ∧
      (∀ type, type ∈ subjects.keys ↔ Reaches foldersTable ⟨"folder", "view"⟩ type) ∧
      ∀ e ∈ subjects.entries, e.2 = .itself := by
  have hstar : ∀ d ∈ folders.definitions, d.name ≠ anyType := by decide
  have hview : permission? foldersTable ⟨"folder", "view"⟩ = some folderView := by decide +kernel
  refine ⟨hstar, ofCompiled_folders, resolve_folders, hview, rfl, by simp [folderView], ?_⟩
  exact resolve_exact hstar ofCompiled_folders rfl resolve_folders hview rfl (by simp [folderView])

end AuthSchema.Resolution
