import AuthSchema.Proofs.Maps
import AuthSchema.Resolution.Expansion
import Mathlib.Logic.Relation

/-! An expansion enumerates the paths from a member that enter none twice. What it comes upon is
what plain walks on the graph of references come upon: a walk that returns to a member can leave out
the round trip, so cutting a path at the members on it loses nothing. -/
namespace AuthSchema.Resolution

/-- The references that lead on from a member at present, or why there are none. -/
def references (t : Table) (m : MemberId) : Except Fault (List (String × SubjectRelation)) :=
  (find t m).map outgoing

theorem find_eq_ok {t : Table} {m : MemberId} {found : Member} :
    find t m = .ok found ↔ t.member? m = some found := by
  rw [find, Table.member?]
  cases t.get? m.type with
  | none => simp
  | some r => cases h : r.member? m.member <;> simp [h]

theorem references_eq_ok {t : Table} {m : MemberId} {refs : List (String × SubjectRelation)} :
    references t m = .ok refs ↔ ∃ found, find t m = .ok found ∧ outgoing found = refs := by
  rw [references]
  cases find t m <;> simp [Except.map]

theorem references_eq_error {t : Table} {m : MemberId} {reason : Fault} :
    references t m = .error reason ↔ find t m = .error reason := by
  rw [references]
  cases find t m <;> simp [Except.map]

/-- A reference of one member to another. One on the type that stands for any leads nowhere. -/
def Hop (t : Table) (a b : MemberId) : Prop :=
  ∃ refs, references t a = .ok refs ∧ (b.type, .userset b.member) ∈ refs ∧ b.type ≠ anyType

/-- What a member gives without a further hop: a subject type, or the fault that it is missing. -/
inductive Gives (t : Table) (m : MemberId) : Except Fault String → Prop
  | subject {refs type subject} (hrefs : references t m = .ok refs) (hmem : (type, subject) ∈ refs)
      (hend : subject = .itself ∨ type = anyType) : Gives t m (.ok type)
  | missing {reason} (h : references t m = .error reason) : Gives t m (.error reason)

/-- A walk along references that stays clear of some members once it has begun. -/
def Walk (t : Table) (avoid : Trail) : MemberId → MemberId → Prop :=
  Relation.ReflTransGen fun a b => Hop t a b ∧ b ∉ avoid

theorem Walk.mono {t : Table} {avoid avoid' : Trail} {a b : MemberId} (h : Walk t avoid a b)
    (hsub : ∀ m ∈ avoid', m ∈ avoid) : Walk t avoid' a b :=
  Relation.ReflTransGen.mono (fun _ m hm => ⟨hm.1, fun hin => hm.2 (hsub m hin)⟩) a b h

/-- A walk need not come back to where it begins. -/
theorem Walk.leave {t : Table} {avoid : Trail} {a b : MemberId} (h : Walk t avoid a b) :
    b = a ∨ ∃ next, Hop t a next ∧ next ∉ avoid ++ [a] ∧ Walk t (avoid ++ [a]) next b := by
  induction h with
  | refl => exact Or.inl rfl
  | @tail c b hac hcb ih =>
    by_cases hba : b = a
    · exact Or.inl hba
    · have hb : b ∉ avoid ++ [a] := by simp [hcb.2, hba]
      rcases ih with rfl | ⟨next, hnext, hn, hw⟩
      · exact Or.inr ⟨b, hcb.1, hb, .refl⟩
      · exact Or.inr ⟨next, hnext, hn, hw.tail ⟨hcb.1, hb⟩⟩

/-- What a finding says, without the path that led to it. -/
def Finding.outcome : Finding → Except Fault String
  | .subject type => .ok type
  | .fault reason _ => .error reason

theorem steps_eq (t : Table) (limit : Option Nat) (trail : Trail) (m : MemberId) :
    steps t limit trail m = match references t m with
      | .error reason => [.found (.fault reason trail)]
      | .ok refs => if m ∈ trail then [] else refs.filterMap (stepAt limit (trail ++ [m])) := by
  rw [steps, references]
  cases find t m <;> rfl

theorem steps_of_references {t : Table} {limit : Option Nat} {trail : Trail} {m : MemberId}
    {refs : List (String × SubjectRelation)} (h : references t m = .ok refs) (hm : m ∉ trail) :
    steps t limit trail m = refs.filterMap (stepAt limit (trail ++ [m])) := by
  rw [steps_eq, h]
  exact if_neg hm

theorem mem_expandMember {t : Table} {limit : Option Nat} {trail : Trail} {m : MemberId}
    {f : Finding} : f ∈ expandMember t limit trail m ↔ .found f ∈ steps t limit trail m ∨
      ∃ next, .enter next ∈ steps t limit trail m ∧
        f ∈ expandMember t limit (trail ++ [m]) next := by
  rw [expandMember_eq, List.mem_flatMap]
  constructor
  · rintro ⟨step, hstep, hf⟩
    cases step with
    | found g =>
      obtain rfl := List.mem_singleton.mp hf
      exact Or.inl hstep
    | enter next => exact Or.inr ⟨next, hstep, hf⟩
  · rintro (hf | ⟨next, hstep, hf⟩)
    · exact ⟨_, hf, List.mem_singleton_self f⟩
    · exact ⟨_, hstep, hf⟩

/-- Induction on the calls of an expansion: each call enters members that are not on its path. -/
theorem expand_induction (t : Table) (limit : Option Nat) {motive : Trail → MemberId → Prop}
    (step : ∀ trail m, (∀ next, .enter next ∈ steps t limit trail m → motive (trail ++ [m]) next) →
      motive trail m) (trail : Trail) (m : MemberId) : motive trail m := by
  induction h : unvisited t trail using Nat.strongRecOn generalizing trail m with
  | _ n ih =>
    subst h
    refine step trail m fun next hnext => ?_
    exact ih _ (unvisited_lt_of_enter hnext) (trail ++ [m]) next rfl

theorem stepAt_enter {limit : Option Nat} {trail : Trail} {ref : String × SubjectRelation}
    {next : MemberId} (h : stepAt limit trail ref = some (.enter next)) :
    ref = (next.type, .userset next.member) ∧ next.type ≠ anyType ∧ next ∉ trail := by
  obtain ⟨type, subject⟩ := ref
  cases subject with
  | itself => cases h
  | userset relation =>
    simp only [stepAt] at h
    split at h
    · cases h
    · next hany =>
      split at h
      · cases h
      · next hnew =>
        split at h
        · cases h
        · cases h
          exact ⟨rfl, hany, hnew⟩

theorem stepAt_found {limit : Option Nat} {trail : Trail} {ref : String × SubjectRelation}
    {f : Finding} (h : stepAt limit trail ref = some (.found f)) :
    (f = .subject ref.1 ∧ (ref.2 = .itself ∨ ref.1 = anyType)) ∨
      ∃ n next, limit = some n ∧ n < trail.length ∧ next ∉ trail ∧ next.type ≠ anyType ∧
        ref = (next.type, .userset next.member) ∧ f = .fault (.tooDeep n) (trail ++ [next]) := by
  obtain ⟨type, subject⟩ := ref
  cases subject with
  | itself =>
    cases h
    exact Or.inl ⟨rfl, Or.inl rfl⟩
  | userset relation =>
    simp only [stepAt] at h
    split at h
    · next hany =>
      cases h
      exact Or.inl ⟨rfl, Or.inr hany⟩
    · next hany =>
      split at h
      · cases h
      · next hnew =>
        split at h
        · next n hn =>
          obtain ⟨hlimit, hlt⟩ := Option.filter_eq_some_iff.mp hn
          cases h
          exact Or.inr ⟨n, ⟨type, relation⟩, hlimit, by simpa using hlt, hnew, hany, rfl, rfl⟩
        · cases h

theorem stepAt_end {limit : Option Nat} {trail : Trail} {type : String} {subject : SubjectRelation}
    (h : subject = .itself ∨ type = anyType) :
    stepAt limit trail (type, subject) = some (.found (.subject type)) := by
  cases subject with
  | itself => rfl
  | userset relation =>
    have hany : type = anyType := h.resolve_left (by simp)
    simp [stepAt, hany]

private theorem stepAt_none_enter {trail : Trail} {next : MemberId} (hany : next.type ≠ anyType)
    (hnew : next ∉ trail) :
    stepAt none trail (next.type, .userset next.member) = some (.enter next) := by
  simp [stepAt, hany, hnew]

theorem hop_of_enter {t : Table} {limit : Option Nat} {trail : Trail} {m next : MemberId}
    (h : .enter next ∈ steps t limit trail m) :
    m ∉ trail ∧ Hop t m next ∧ next ∉ trail ++ [m] := by
  rw [steps_eq] at h
  split at h
  · simp at h
  · next refs hrefs =>
    split at h
    · cases h
    · next hm =>
      obtain ⟨ref, href, hstep⟩ := List.mem_filterMap.mp h
      obtain ⟨rfl, hany, hnew⟩ := stepAt_enter hstep
      exact ⟨hm, ⟨refs, hrefs, href, hany⟩, hnew⟩

private theorem enter_of_hop {t : Table} {trail : Trail} {m next : MemberId} (hm : m ∉ trail)
    (h : Hop t m next) (hnew : next ∉ trail ++ [m]) : .enter next ∈ steps t none trail m := by
  obtain ⟨refs, hrefs, href, hany⟩ := h
  rw [steps_of_references hrefs hm]
  exact List.mem_filterMap.mpr ⟨_, href, stepAt_none_enter hany hnew⟩

private theorem gives_of_found {t : Table} {limit : Option Nat} {trail : Trail} {m : MemberId}
    {f : Finding} (h : .found f ∈ steps t limit trail m) :
    Gives t m f.outcome ∨ ∃ n, limit = some n ∧ f.outcome = .error (.tooDeep n) := by
  rw [steps_eq] at h
  split at h
  · next reason hreason =>
    obtain rfl : f = .fault reason trail := by simpa using h
    exact Or.inl (.missing hreason)
  · next refs hrefs =>
    split at h
    · cases h
    · obtain ⟨⟨type, subject⟩, href, hstep⟩ := List.mem_filterMap.mp h
      rcases stepAt_found hstep with ⟨rfl, hend⟩ | ⟨n, next, hlimit, -, -, -, -, rfl⟩
      · exact Or.inl (.subject hrefs href hend)
      · exact Or.inr ⟨n, hlimit, rfl⟩

private theorem found_of_gives {t : Table} {limit : Option Nat} {trail : Trail} {m : MemberId}
    {o : Except Fault String} (hm : m ∉ trail) (h : Gives t m o) :
    ∃ f, .found f ∈ steps t limit trail m ∧ f.outcome = o := by
  cases h with
  | @subject refs type subject hrefs href hend =>
    refine ⟨.subject type, ?_, rfl⟩
    rw [steps_of_references hrefs hm]
    exact List.mem_filterMap.mpr ⟨_, href, stepAt_end hend⟩
  | @missing reason hreason =>
    refine ⟨.fault reason trail, ?_, rfl⟩
    rw [steps_eq, hreason]
    exact List.mem_singleton_self _

/-- An expansion comes upon nothing but what walks come upon, and the refusals of its limit. -/
theorem walk_of_mem_expandMember {t : Table} {limit : Option Nat} (trail : Trail) (m : MemberId)
    {f : Finding} (hm : m ∉ trail) (h : f ∈ expandMember t limit trail m) :
    (∃ b, Walk t trail m b ∧ Gives t b f.outcome) ∨
      ∃ n, limit = some n ∧ f.outcome = .error (.tooDeep n) := by
  induction trail, m using expand_induction t limit with
  | step trail m ih =>
    rcases mem_expandMember.mp h with hf | ⟨next, hnext, hf⟩
    · rcases gives_of_found hf with hg | hdeep
      · exact Or.inl ⟨m, .refl, hg⟩
      · exact Or.inr hdeep
    · obtain ⟨-, hhop, hnew⟩ := hop_of_enter hnext
      have htrail : next ∉ trail := fun hin => hnew (List.mem_append_left _ hin)
      rcases ih next hnext hnew hf with ⟨b, hw, hg⟩ | hdeep
      · exact Or.inl ⟨b, .head ⟨hhop, htrail⟩ (hw.mono fun _ => List.mem_append_left _), hg⟩
      · exact Or.inr hdeep

/-- Without a limit an expansion comes upon all that walks come upon. -/
theorem mem_expandMember_of_walk {t : Table} (trail : Trail) (m : MemberId) {b : MemberId}
    {o : Except Fault String} (hm : m ∉ trail) (hw : Walk t trail m b) (hg : Gives t b o) :
    ∃ f ∈ expandMember t none trail m, f.outcome = o := by
  induction trail, m using expand_induction t none with
  | step trail m ih =>
    rcases hw.leave with rfl | ⟨next, hhop, hnew, hrest⟩
    · obtain ⟨f, hf, ho⟩ := found_of_gives hm hg
      exact ⟨f, mem_expandMember.mpr (Or.inl hf), ho⟩
    · have hnext := enter_of_hop hm hhop hnew
      obtain ⟨f, hf, ho⟩ := ih next hnext hnew hrest
      exact ⟨f, mem_expandMember.mpr (Or.inr ⟨next, hnext, hf⟩), ho⟩

/-- What an edge of the permission `start` leads to; walks stay clear of the permission. -/
inductive EdgeGives (t : Table) (start : MemberId) (e : Edge) : Except Fault String → Prop
  | object (hself : e.subject = .itself) (hin : t.contains e.type = true) :
      EdgeGives t start e (.ok e.type)
  | noType (hself : e.subject = .itself) (hno : t.contains e.type = false) :
      EdgeGives t start e (.error (.unknownType e.type))
  | walk {x b o} (htarget : e.target? = some x) (hne : x ≠ start) (hw : Walk t [start] x b)
      (hg : Gives t b o) : EdgeGives t start e o

theorem mem_expand {t : Table} {limit : Option Nat} {start : MemberId} {edges : List Edge}
    {f : Finding} : f ∈ expand t limit start edges ↔ ∃ e ∈ edges, f ∈ expandEdge t limit start e :=
  List.mem_flatMap

theorem expandMember_on_path {t : Table} {limit : Option Nat} {trail : Trail} {m : MemberId}
    {refs : List (String × SubjectRelation)} (h : references t m = .ok refs) (hm : m ∈ trail) :
    expandMember t limit trail m = [] := by
  rw [expandMember_eq, steps_eq, h]
  simp [hm]

theorem edgeGives_of_mem_expand {t : Table} {limit : Option Nat} {start : MemberId}
    {edges : List Edge} {f : Finding} {refs : List (String × SubjectRelation)}
    (hstart : references t start = .ok refs) (h : f ∈ expand t limit start edges) :
    (∃ e ∈ edges, EdgeGives t start e f.outcome) ∨
      ∃ n, limit = some n ∧ f.outcome = .error (.tooDeep n) := by
  obtain ⟨⟨type, subject, caveat⟩, he, hf⟩ := mem_expand.mp h
  cases subject with
  | itself =>
    refine Or.inl ⟨_, he, ?_⟩
    by_cases hin : t.contains type = true
    · obtain rfl : f = .subject type := by simpa [expandEdge, hin] using hf
      exact .object rfl hin
    · obtain rfl : f = .fault (.unknownType type) [start] := by simpa [expandEdge, hin] using hf
      exact .noType rfl (Bool.eq_false_iff.mpr hin)
  | userset relation =>
    change f ∈ expandMember t limit [start] ⟨type, relation⟩ at hf
    by_cases hne : (⟨type, relation⟩ : MemberId) = start
    · rw [hne, expandMember_on_path hstart (List.mem_singleton_self start)] at hf
      cases hf
    · rcases walk_of_mem_expandMember _ _ (by simpa using hne) hf with ⟨b, hw, hg⟩ | hdeep
      · exact Or.inl ⟨_, he, .walk rfl hne hw hg⟩
      · exact Or.inr hdeep

theorem mem_expand_of_edgeGives {t : Table} {start : MemberId} {edges : List Edge} {e : Edge}
    {o : Except Fault String} (he : e ∈ edges) (h : EdgeGives t start e o) :
    ∃ f ∈ expand t none start edges, f.outcome = o := by
  obtain ⟨type, subject, caveat⟩ := e
  cases h with
  | object hself hin =>
    cases hself
    exact ⟨.subject type, mem_expand.mpr ⟨_, he, by simp_all [expandEdge]⟩, rfl⟩
  | noType hself hno =>
    cases hself
    refine ⟨.fault (.unknownType type) [start], mem_expand.mpr ⟨_, he, ?_⟩, rfl⟩
    simp_all [expandEdge]
  | @walk x b o htarget hne hw hg =>
    cases subject with
    | itself => cases htarget
    | userset relation =>
      cases htarget
      obtain ⟨f, hf, ho⟩ := mem_expandMember_of_walk [start] _ (by simpa using hne) hw hg
      exact ⟨f, mem_expand.mpr ⟨_, he, hf⟩, ho⟩

theorem subject_mem_expand {t : Table} {start : MemberId} {edges : List Edge} {e : Edge}
    {type : String} (he : e ∈ edges) (h : EdgeGives t start e (.ok type)) :
    .subject type ∈ expand t none start edges := by
  obtain ⟨f, hf, houtcome⟩ := mem_expand_of_edgeGives he h
  cases f with
  | subject type' =>
    cases houtcome
    exact hf
  | fault reason trail => cases houtcome

end AuthSchema.Resolution
