import AuthSchema.Proofs.LeastSolution
import AuthSchema.Proofs.References

/-! What a limit on the depth of references means. A permission is refused just when some chain of
references from it, without a repetition, has more hops than the limit allows. Where no chain is too
long the limit changes nothing: every expansion is the one without a limit. -/
namespace AuthSchema.Resolution

/-- Members that references lead to one after the other from a permission without override. None of
them occurs twice; a relation goes on by its edges, an overridden member by its override, and at any
other permission the chain ends. -/
inductive Chain (t : Table) (start : MemberId) : List MemberId → Prop
  | first {p e m} (hp : permission? t start = some p) (ho : p.activeOverride = none)
      (he : e ∈ p.edges) (hm : e.target? = some m) (hnew : m ≠ start) : Chain t start [m]
  | next {hops m found next} (h : Chain t start (hops ++ [m])) (hm : t.member? m = some found)
      (hgoes : found.kind = .relation ∨ found.activeOverride ≠ none)
      (href : (next.type, .userset next.member) ∈ declared found) (hany : next.type ≠ anyType)
      (hnew : next ∉ start :: hops ++ [m]) : Chain t start (hops ++ [m] ++ [next])

/-- No chain of references has more than a number of hops. -/
def ChainsWithin (t : Table) (n : Nat) : Prop :=
  ∀ start hops, Chain t start hops → hops.length ≤ n

/-- Nothing occurs twice on a chain, the permission that it starts from included. -/
theorem Chain.nodup {t : Table} {start : MemberId} {hops : List MemberId}
    (h : Chain t start hops) : (start :: hops).Nodup := by
  induction h with
  | first _ _ _ _ hnew => simpa using hnew.symm
  | next _ _ _ _ _ hnew ih =>
    rw [← List.cons_append]
    apply List.nodup_append.mpr
    refine ⟨ih, List.nodup_singleton _, ?_⟩
    intro a ha b hb heq
    rw [List.mem_singleton] at hb
    exact hnew (hb ▸ heq ▸ ha)

theorem Chain.isOpen {t : Table} {start : MemberId} {hops : List MemberId}
    (h : Chain t start hops) : IsOpen t start := by
  induction h with
  | first hp ho he _ _ => exact ⟨_, hp, followsEdges_iff.mpr ⟨ho, List.ne_nil_of_mem he⟩⟩
  | next _ _ _ _ _ _ ih => exact ih

/-- Under a limit a path takes the same step as without one, or it is refused. -/
theorem stepAt_limit (d : Nat) (trail : Trail) (ref : String × SubjectRelation) :
    stepAt (some d) trail ref = stepAt none trail ref ∨
      ∃ refused, stepAt (some d) trail ref = some (.found (.fault (.tooDeep d) refused)) := by
  obtain ⟨type, subject⟩ := ref
  cases subject with
  | itself => exact Or.inl rfl
  | userset relation =>
    by_cases hdeep : d < trail.length
    · by_cases hany : type = anyType
      · left
        simp [stepAt, hany]
      · by_cases hin : (⟨type, relation⟩ : MemberId) ∈ trail
        · left
          simp [stepAt, hany, hin]
        · right
          refine ⟨trail ++ [⟨type, relation⟩], ?_⟩
          simp [stepAt, hany, hin, hdeep, Option.filter_some]
    · left
      simp [stepAt, hdeep, Option.filter_some]

private theorem stepAt_tooDeep {d : Nat} {trail : Trail} {next : MemberId}
    (hany : next.type ≠ anyType) (hnew : next ∉ trail) (hdeep : d < trail.length) :
    stepAt (some d) trail (next.type, .userset next.member) =
      some (.found (.fault (.tooDeep d) (trail ++ [next]))) := by
  simp [stepAt, hany, hnew, hdeep, Option.filter_some]

private theorem stepAt_within {d : Nat} {trail : Trail} {next : MemberId}
    (hany : next.type ≠ anyType) (hnew : next ∉ trail) (hdeep : trail.length ≤ d) :
    stepAt (some d) trail (next.type, .userset next.member) = some (.enter next) := by
  simp [stepAt, hany, hnew, Nat.not_lt.mpr hdeep, Option.filter_some]

private theorem within_of_enter {d : Nat} {trail : Trail} {ref : String × SubjectRelation}
    {next : MemberId} (h : stepAt (some d) trail ref = some (.enter next)) : trail.length ≤ d := by
  obtain ⟨rfl, hany, hnew⟩ := stepAt_enter h
  by_contra hlong
  rw [stepAt_tooDeep hany hnew (Nat.lt_of_not_le hlong)] at h
  cases h

/-- Nothing in a list of findings has been refused for its depth. -/
def Unrefused (findings : List Finding) : Prop :=
  ∀ f ∈ findings, ∀ n, f.outcome ≠ .error (.tooDeep n)

private theorem steps_limit_eq {t : Table} {d : Nat} {trail : Trail} {m : MemberId}
    (h : Unrefused (expandMember t (some d) trail m)) :
    steps t (some d) trail m = steps t none trail m := by
  have hfound : ∀ f, .found f ∈ steps t (some d) trail m → ∀ n, f.outcome ≠ .error (.tooDeep n) :=
    fun f hf => h f (mem_expandMember.mpr (Or.inl hf))
  rw [steps_eq] at hfound
  rw [steps_eq, steps_eq]
  cases hrefs : references t m with
  | error reason => rfl
  | ok refs =>
    by_cases hm : m ∈ trail
    · simp only [if_pos hm]
    · simp only [hrefs, if_neg hm] at hfound ⊢
      apply List.filterMap_congr
      intro ref href
      rcases stepAt_limit d (trail ++ [m]) ref with hsame | ⟨refused, hdeep⟩
      · exact hsame
      · exact absurd rfl (hfound _ (List.mem_filterMap.mpr ⟨ref, href, hdeep⟩) d)

private theorem expandMember_limit_eq {t : Table} {d : Nat} (trail : Trail) (m : MemberId)
    (h : Unrefused (expandMember t (some d) trail m)) :
    expandMember t (some d) trail m = expandMember t none trail m := by
  induction trail, m using expand_induction t (some d) with
  | step trail m ih =>
    have hsteps := steps_limit_eq h
    rw [expandMember_eq, expandMember_eq t none, ← hsteps]
    apply List.flatMap_congr
    intro step hstep
    cases step with
    | found f => rfl
    | enter next =>
      exact ih next hstep fun f hf => h f (mem_expandMember.mpr (Or.inr ⟨next, hstep, hf⟩))

/-- Where nothing is refused, an expansion is the one without a limit. -/
theorem expand_limit_eq {t : Table} {d : Nat} {start : MemberId} {edges : List Edge}
    (h : Unrefused (expand t (some d) start edges)) :
    expand t (some d) start edges = expand t none start edges := by
  rw [expand, expand]
  apply List.flatMap_congr
  intro e he
  rw [expandEdge, expandEdge]
  cases hsubject : e.subject with
  | itself => rfl
  | userset relation =>
    apply expandMember_limit_eq
    intro f hf
    refine h f (mem_expand.mpr ⟨e, he, ?_⟩)
    rw [expandEdge, hsubject]
    exact hf

/-- A path enters a further member within the limit only. -/
theorem length_of_enter {t : Table} {n : Nat} {trail : Trail} {m next : MemberId}
    (h : .enter next ∈ steps t (some n) trail m) : (trail ++ [m]).length ≤ n := by
  rw [steps_eq] at h
  split at h
  · simp at h
  · split at h
    · cases h
    · obtain ⟨ref, -, hstep⟩ := List.mem_filterMap.mp h
      exact within_of_enter hstep

/-- The faults at a member: it is missing, or a reference would take the path beyond the limit. -/
theorem fault_of_steps {t : Table} {limit : Option Nat} {trail trail' : Trail} {m : MemberId}
    {reason : Fault} (h : .found (.fault reason trail') ∈ steps t limit trail m) :
    (references t m = .error reason ∧ trail' = trail) ∨
      ∃ n next, limit = some n ∧ n < (trail ++ [m]).length ∧ Hop t m next ∧
        next ∉ trail ++ [m] ∧ reason = .tooDeep n ∧ trail' = trail ++ [m] ++ [next] := by
  rw [steps_eq] at h
  cases hrefs : references t m with
  | error missing =>
    rw [hrefs] at h
    obtain ⟨rfl, rfl⟩ : reason = missing ∧ trail' = trail := by simpa using h
    exact Or.inl ⟨rfl, rfl⟩
  | ok refs =>
    rw [hrefs] at h
    by_cases hm : m ∈ trail
    · simp [hm] at h
    · simp only [if_neg hm] at h
      obtain ⟨ref, href, hstep⟩ := List.mem_filterMap.mp h
      rcases stepAt_found hstep with ⟨hsubject, -⟩ |
        ⟨n, next, hlimit, hlt, hnew, hany, rfl, hfault⟩
      · cases hsubject
      · cases hfault
        exact Or.inr ⟨n, next, hlimit, hlt, ⟨refs, hrefs, href, hany⟩, hnew, rfl, rfl⟩

/-- Chains go on from members that are not open, by references that stay the same while permissions
are being solved. -/
theorem hop_of_goes {t s : Table} (ht : Filed t) (hs : Variant (seeded t) s) {m next : MemberId}
    {found : Member} (hm : t.member? m = some found)
    (hgoes : found.kind = .relation ∨ found.activeOverride ≠ none)
    (href : (next.type, .userset next.member) ∈ declared found) (hany : next.type ≠ anyType) :
    Hop s m next := by
  have hclosed : ¬ IsOpen t m := by
    rintro ⟨p, hp, hfollows⟩
    obtain rfl := Option.some.inj (hm.symm.trans (ht.member?_eq hp))
    rcases hgoes with hkind | hoverride
    · rw [ht.permission_kind hp] at hkind
      cases hkind
    · exact hoverride (followsEdges_iff.mp hfollows).1
  exact ⟨_, references_of_not_open ht hs hclosed hm, href, hany⟩

private theorem goes_of_hop {t s : Table} (ht : Filed t) (hs : Variant (seeded t) s)
    (hplain : PlainOpen s) {m next : MemberId} (h : Hop s m next) : next.type ≠ anyType ∧
      ∃ found, t.member? m = some found ∧
        (found.kind = .relation ∨ found.activeOverride ≠ none) ∧
        (next.type, .userset next.member) ∈ declared found := by
  obtain ⟨hclosed, hany, found, hfound, hmem⟩ := declared_of_hop ht hs hplain h
  refine ⟨hany, found, hfound, ?_, hmem⟩
  rcases relation_or_permission hfound with hrel | hp
  · exact Or.inl (ht.relation_kind hrel)
  · right
    intro ho
    obtain ⟨e, he, -⟩ := edge_of_userset ho hmem
    exact hclosed ⟨found, hp, followsEdges_iff.mpr ⟨ho, List.ne_nil_of_mem he⟩⟩

/-- A fault that a permission comes upon, with the trail that leads to it: the permission alone for
a type that one of its edges names, the chain up to the reference of a missing member, or a chain
that has just gone beyond the limit. -/
inductive Trailed (t : Table) (limit : Option Nat) (start : MemberId) : Fault → Trail → Prop
  | object {p e} (hp : permission? t start = some p) (ho : p.activeOverride = none)
      (he : e ∈ p.edges) (h : t.get? e.type = none) :
      Trailed t limit start (.unknownType e.type) [start]
  | missing {hops m reason} (h : Chain t start (hops ++ [m]))
      (hm : Dangles t (m.type, .userset m.member) reason) :
      Trailed t limit start reason (start :: hops)
  | tooDeep {n chain} (hlimit : limit = some n) (h : Chain t start chain)
      (hlength : chain.length = max n 1 + 1) : Trailed t limit start (.tooDeep n) (start :: chain)

section Stage
variable {t s : Table} {d : Nat} {start : MemberId} {edges : List Edge} (ht : Filed t)
  (hs : Variant (seeded t) s) (hstart : (start, edges) ∈ openPermissions t)
include ht hs hstart

/-- A path within the limit follows a chain to its end. -/
theorem Chain.descends {chain : List MemberId} (h : Chain t start chain)
    (hlen : chain.length ≤ max d 1) : ∃ hops m, chain = hops ++ [m] ∧ m ∉ start :: hops ∧
      ∀ f ∈ expandMember s (some d) (start :: hops) m, f ∈ expand s (some d) start edges := by
  induction h with
  | @first p e m hp ho he hm hnew =>
    refine ⟨[], m, rfl, by simpa using hnew, fun f hf => ?_⟩
    obtain ⟨p', hp', -, rfl⟩ := mem_openPermissions.mp hstart
    obtain rfl := Option.some.inj (hp.symm.trans hp')
    refine mem_expand.mpr ⟨e, he, ?_⟩
    obtain ⟨htype, hsubject⟩ := target?_eq.mp hm
    rw [expandEdge, hsubject, htype]
    exact hf
  | @next hops m found next hchain hm hgoes href hany hnew ih =>
    simp only [List.length_append, List.length_singleton] at hlen
    obtain ⟨hops', m', heq, hm', hdescends⟩ := ih (by simp; omega)
    obtain ⟨rfl, rfl⟩ := List.append_singleton_inj.mp heq
    refine ⟨hops ++ [m], next, rfl, hnew, fun f hf => hdescends f ?_⟩
    obtain ⟨refs, hrefs, hmem, -⟩ := hop_of_goes ht hs hm hgoes href hany
    refine mem_expandMember.mpr (Or.inr ⟨next, ?_, hf⟩)
    rw [steps_of_references hrefs hm']
    refine List.mem_filterMap.mpr ⟨_, hmem, stepAt_within hany hnew ?_⟩
    simp only [List.length_append, List.length_cons, List.length_nil]
    omega

/-- A chain beyond the limit is refused. -/
theorem Chain.refused {chain : List MemberId} (h : Chain t start chain)
    (hlen : max d 1 < chain.length) :
    ∃ f ∈ expand s (some d) start edges, f.outcome = .error (.tooDeep d) := by
  induction h with
  | first _ _ _ _ _ =>
    simp only [List.length_singleton] at hlen
    omega
  | @next hops m found next hchain hm hgoes href hany hnew ih =>
    simp only [List.length_append, List.length_singleton] at hlen ih
    by_cases hbefore : max d 1 < hops.length + 1
    · exact ih hbefore
    · have hshort : (hops ++ [m]).length ≤ max d 1 := by
        simp only [List.length_append, List.length_singleton]
        omega
      obtain ⟨hops', m', heq, hm', hdescends⟩ := hchain.descends ht hs hstart hshort
      obtain ⟨rfl, rfl⟩ := List.append_singleton_inj.mp heq
      obtain ⟨refs, hrefs, hmem, -⟩ := hop_of_goes ht hs hm hgoes href hany
      have hdeep : d < (start :: hops ++ [m]).length := by
        simp only [List.length_append, List.length_cons, List.length_nil]
        omega
      refine ⟨.fault (.tooDeep d) (start :: hops ++ [m] ++ [next]),
        hdescends _ (mem_expandMember.mpr (Or.inl ?_)), rfl⟩
      rw [steps_of_references hrefs hm']
      exact List.mem_filterMap.mpr ⟨_, hmem, stepAt_tooDeep hany hnew hdeep⟩

variable {limit : Option Nat} (hplain : PlainOpen s)
include hplain

omit hstart in
private theorem trailed_of_expandMember (trail : Trail) (m : MemberId) {hops : List MemberId}
    (htrail : trail = start :: hops) (hchain : Chain t start (hops ++ [m]))
    (hlength : ∀ n, limit = some n → (hops ++ [m]).length ≤ max n 1) {reason : Fault}
    {trail' : Trail} (hf : .fault reason trail' ∈ expandMember s limit trail m) :
    Trailed t limit start reason trail' := by
  induction trail, m using expand_induction s limit generalizing hops with
  | step trail m ih =>
    subst htrail
    rcases mem_expandMember.mp hf with hfound | ⟨next, hnext, hrest⟩
    · rcases fault_of_steps hfound with ⟨hmissing, rfl⟩ |
        ⟨n, next, hlimit, hlt, hhop, hnew, rfl, rfl⟩
      · exact .missing hchain (find_eq_error.mp ((find_stage ht hs).mp hmissing))
      · obtain ⟨hany, found, hfound, hgoes, href⟩ := goes_of_hop ht hs hplain hhop
        have hlong : Chain t start (hops ++ [m] ++ [next]) :=
          .next hchain hfound hgoes href hany hnew
        have hone : (hops ++ [m] ++ [next]).length = max n 1 + 1 := by
          have hle := hlength n hlimit
          simp only [List.length_append, List.length_cons, List.length_nil] at hle hlt ⊢
          omega
        exact .tooDeep hlimit hlong hone
    · obtain ⟨-, hhop, hnew⟩ := hop_of_enter hnext
      obtain ⟨hany, found, hfound, hgoes, href⟩ := goes_of_hop ht hs hplain hhop
      have hfurther : Chain t start (hops ++ [m] ++ [next]) :=
        .next hchain hfound hgoes href hany hnew
      have hwithin : ∀ n, limit = some n → (hops ++ [m] ++ [next]).length ≤ max n 1 := by
        rintro n rfl
        have hle := length_of_enter hnext
        simp only [List.length_append, List.length_cons, List.length_nil] at hle ⊢
        omega
      exact ih next hnext List.cons_append hfurther hwithin hrest

/-- The faults that the expansion of a permission comes upon have trails that lead to them. -/
theorem trailed_of_expand {reason : Fault} {trail : Trail}
    (hf : .fault reason trail ∈ expand s limit start edges) :
    Trailed t limit start reason trail := by
  obtain ⟨e, he, hfe⟩ := mem_expand.mp hf
  have hopen : (start, edges) ∈ openPermissions s := by
    rw [openPermissions_stage hs]
    exact hstart
  obtain ⟨p, hp, hfollows, rfl⟩ := mem_openPermissions.mp hstart
  have ho := (followsEdges_iff.mp hfollows).1
  rw [expandEdge] at hfe
  cases hsubject : e.subject with
  | itself =>
    simp only [hsubject, contains_stage hs] at hfe
    split at hfe
    · simp at hfe
    · next hno =>
      obtain ⟨rfl, rfl⟩ : reason = .unknownType e.type ∧ trail = [start] := by simpa using hfe
      exact .object hp ho he (by simpa using hno)
  | userset relation =>
    rw [hsubject] at hfe
    by_cases hself : (⟨e.type, relation⟩ : MemberId) = start
    · obtain ⟨refs, hrefs⟩ := references_of_isOpen (isOpen_of_mem hopen)
      simp only [hself, expandMember_on_path hrefs (List.mem_singleton_self start)] at hfe
      cases hfe
    · have hchain : Chain t start [⟨e.type, relation⟩] :=
        .first hp ho he (target?_eq.mpr ⟨rfl, hsubject⟩) hself
      exact trailed_of_expandMember ht hs hplain [start] _ rfl hchain (by simp) hfe

/-- Within the limit nothing is refused. -/
theorem unrefused_of_chainsWithin (h : ChainsWithin t (max d 1)) :
    Unrefused (expand s (some d) start edges) := by
  intro f hf n hdeep
  cases f with
  | subject type => cases hdeep
  | fault reason trail =>
    obtain rfl : reason = .tooDeep n := by simpa [Finding.outcome] using hdeep
    cases trailed_of_expand ht hs hstart hplain hf with
    | missing _ hm => cases hm
    | tooDeep hlimit hchain hlength =>
      cases hlimit
      have hle := h start _ hchain
      omega

end Stage

/-- Under two limits expansions are the same in every state of a resolution. -/
def SameExpansions (t : Table) (limit limit' : Option Nat) : Prop :=
  ∀ s, Variant (seeded t) s → PlainOpen s → ∀ p ∈ openPermissions t,
    expand s limit p.1 p.2 = expand s limit' p.1 p.2

namespace SameExpansions
variable {t : Table} {limit limit' : Option Nat} (h : SameExpansions t limit limit')
include h

theorem permissionDiagnostics_eq :
    permissionDiagnostics limit (seeded t) = permissionDiagnostics limit' (seeded t) := by
  rw [permissionDiagnostics, permissionDiagnostics, openPermissions_seeded]
  apply List.flatMap_congr
  intro p hp
  rw [h _ (Variant.refl _) (plainOpen_seeded t) p hp]

private theorem run {s : Table} (hrun : Run limit (seeded t) s) : Run limit' (seeded t) s := by
  induction hrun with
  | refl => exact .refl
  | @tail s s' hbefore hstep ih =>
    obtain ⟨p, hp, rfl⟩ := hstep
    have hv : Variant (seeded t) s := Run.variant hbefore
    have hplain : PlainOpen s := Run.plainOpen hbefore (plainOpen_seeded t)
    have hopen : p ∈ openPermissions t := by
      rw [← openPermissions_stage hv]
      exact hp
    refine ih.tail ⟨p, hp, ?_⟩
    simp only [extend, advance, h s hv hplain p hopen]

private theorem settled {s : Table} (hs : Variant (seeded t) s) (hplain : PlainOpen s)
    (hsettled : Settled limit s) : Settled limit' s := by
  intro p hp type hf
  have hopen : p ∈ openPermissions t := by
    rw [← openPermissions_stage hs]
    exact hp
  rw [← h s hs hplain p hopen] at hf
  exact hsettled p hp type hf

theorem solution_eq : solution limit t = solution limit' t :=
  (h.run (run_solution limit t)).settled_unique (run_solution limit' t) (plainOpen_seeded t)
    (h.settled (variant_solution limit t) (plainOpen_solution limit t) (settled_solution limit t))
    (settled_solution limit' t)

private theorem complaints_eq : complaints limit t = complaints limit' t := by
  rw [complaints, complaints, h.permissionDiagnostics_eq, h.solution_eq]

end SameExpansions

private theorem sameExpansions_of_chainsWithin {t : Table} (ht : Filed t) {d : Nat}
    (h : ChainsWithin t (max d 1)) : SameExpansions t (some d) none :=
  fun _ hs hplain _ hp => expand_limit_eq (unrefused_of_chainsWithin ht hs hp hplain h)

/-- A table whose references are all good under a limit has no chains beyond it. -/
theorem chainsWithin_of_permissionDiagnostics {t : Table} (ht : Filed t) {d : Nat}
    (h : permissionDiagnostics (some d) (seeded t) = []) : ChainsWithin t (max d 1) := by
  intro start hops hchain
  by_contra hlong
  obtain ⟨edges, hstart⟩ := isOpen_iff.mp hchain.isOpen
  obtain ⟨f, hf, hdeep⟩ :=
    hchain.refused ht (Variant.refl (seeded t)) hstart (Nat.lt_of_not_le hlong)
  cases f with
  | subject type => cases hdeep
  | fault reason trail =>
    have hopen : (start, edges) ∈ openPermissions (seeded t) := by
      rw [openPermissions_seeded]
      exact hstart
    exact permissionDiagnostics_eq_nil.mp h _ hopen reason trail hf

private theorem chainsWithin_of_complaints {t : Table} (ht : Filed t) {d : Nat}
    (h : complaints (some d) t = []) : ChainsWithin t (max d 1) :=
  chainsWithin_of_permissionDiagnostics ht (complaints_eq_nil.mp h).2.1

/-- Where all references are good under a limit, it makes no difference. -/
theorem sameExpansions_of_permissionDiagnostics {t : Table} (ht : Filed t) {limit : Option Nat}
    (h : permissionDiagnostics limit (seeded t) = []) : SameExpansions t limit none := by
  cases limit with
  | none => exact fun _ _ _ _ _ => rfl
  | some d => exact sameExpansions_of_chainsWithin ht (chainsWithin_of_permissionDiagnostics ht h)

private theorem complaints_limit_eq_nil {t : Table} (ht : Filed t) {d : Nat} :
    complaints (some d) t = [] ↔ complaints none t = [] ∧ ChainsWithin t (max d 1) := by
  constructor
  · intro h
    have hwithin := chainsWithin_of_complaints ht h
    rw [← (sameExpansions_of_chainsWithin ht hwithin).complaints_eq]
    exact ⟨h, hwithin⟩
  · rintro ⟨h, hwithin⟩
    rw [(sameExpansions_of_chainsWithin ht hwithin).complaints_eq]
    exact h

/-- What resolution gives under a limit is the solution without one. -/
theorem resolve_eq_ok_unlimited {t r : Table} {policy : Policy} (ht : Filed t)
    (h : resolve policy t = .ok r) : complaints none t = [] ∧ r = solution none t := by
  obtain ⟨hnone, rfl⟩ := resolve_eq_ok.mp h
  have hsame := sameExpansions_of_permissionDiagnostics ht (complaints_eq_nil.mp hnone).2.1
  exact ⟨hsame.complaints_eq ▸ hnone, hsame.solution_eq⟩

/-- Under a limit resolution gives what it gives without one, provided that no chain of references
from a permission is too long; a limit of nothing allows one hop. So a result under a limit is the
result under every larger one. -/
theorem resolve_limit_iff {schema : Compiled.Schema} {t : Table}
    (ht : Table.ofCompiled schema = .ok t) (d : Nat) (stopAtFirst : Bool) (r : Table) :
    (resolve ⟨some d, stopAtFirst⟩ t = .ok r ↔
      resolve ⟨none, stopAtFirst⟩ t = .ok r ∧ ChainsWithin t (max d 1)) ∧
    (resolve ⟨some d, stopAtFirst⟩ t = .ok r →
      ∀ d', d ≤ d' → resolve ⟨some d', stopAtFirst⟩ t = .ok r) := by
  have hfiled := filed_of_compiled ht
  have hiff : ∀ d, resolve ⟨some d, stopAtFirst⟩ t = .ok r ↔
      resolve ⟨none, stopAtFirst⟩ t = .ok r ∧ ChainsWithin t (max d 1) := by
    intro d
    rw [resolve_eq_ok, resolve_eq_ok, complaints_limit_eq_nil hfiled]
    constructor
    · rintro ⟨⟨hnone, hwithin⟩, rfl⟩
      exact ⟨⟨hnone, (sameExpansions_of_chainsWithin hfiled hwithin).solution_eq⟩, hwithin⟩
    · rintro ⟨⟨hnone, rfl⟩, hwithin⟩
      exact ⟨⟨hnone, hwithin⟩, (sameExpansions_of_chainsWithin hfiled hwithin).solution_eq.symm⟩
  refine ⟨hiff d, fun h d' hle => ?_⟩
  obtain ⟨hunlimited, hwithin⟩ := (hiff d).mp h
  refine (hiff d').mpr ⟨hunlimited, fun start hops hchain => ?_⟩
  have hlen := hwithin start hops hchain
  omega

/-- The permission to edit folders comes to its auditors, and by their override to the members of
groups: two hops, and no chain of the example has more. -/
theorem resolve_limit_iff_folders :
    Table.ofCompiled folders = .ok foldersTable ∧
    ∃ r, resolve ⟨some 2, false⟩ foldersTable = .ok r ∧
      resolve ⟨none, false⟩ foldersTable = .ok r ∧ ChainsWithin foldersTable 2 ∧
      resolve ⟨some 3, false⟩ foldersTable = .ok r ∧
      resolve ⟨some 1, false⟩ foldersTable ≠ .ok r := by
  have htwo : resolve ⟨some 2, false⟩ foldersTable = .ok (solution (some 2) foldersTable) :=
    resolve_eq_ok.mpr ⟨by decide +kernel, rfl⟩
  have hone : complaints (some 1) foldersTable ≠ [] := by decide +kernel
  obtain ⟨hiff, hlarger⟩ := resolve_limit_iff ofCompiled_folders 2 false
    (solution (some 2) foldersTable)
  obtain ⟨hnone, hwithin⟩ := hiff.mp htwo
  exact ⟨ofCompiled_folders, _, htwo, hnone, hwithin, hlarger htwo 3 (by decide),
    fun h => hone (resolve_eq_ok.mp h).1⟩

end AuthSchema.Resolution
