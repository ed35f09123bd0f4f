import AuthSchema.Proofs.Collected
import AuthSchema.Proofs.Solution
import Mathlib.Data.Finset.Card
import Mathlib.Data.Finset.SDiff

/-! An expansion carried out on one path for all of its calls. A call puts its member on the path
and takes it off again, whichever way it ends, so each call gives back the path that it was made on.
The search comes upon what the expansion comes upon, and without a limit its subject types are those
that plain search finds in the graph from which the permission has been taken out. -/
namespace AuthSchema.Resolution

/-- What a step comes upon, on the spot or further on. -/
def Step.findings (t : Table) (limit : Option Nat) (trail : Trail) : Step → List Finding
  | .found f => [f]
  | .enter next => expandMember t limit trail next

/-- The state of a search: its path, as a set to look members up in and as the trail of its
diagnostics, and what it has come upon so far. -/
structure Search where
  path : Finset MemberId
  trail : Trail
  subjects : SubjectMap := .empty
  diagnostics : List Diagnostic := []

namespace Search

/-- A search for the subjects of a permission. -/
def begin (start : MemberId) : Search := { path := {start}, trail := [start] }

def enter (s : Search) (m : MemberId) : Search :=
  { s with path := insert m s.path, trail := s.trail ++ [m] }

def leave (s : Search) (m : MemberId) : Search :=
  { s with path := s.path.erase m, trail := s.trail.dropLast }

/-- Takes in a finding, for the permission `start`. -/
def take (start : MemberId) (s : Search) : Finding → Search
  | .subject type => { s with subjects := (s.subjects.grow type .itself).1 }
  | .fault reason trail => { s with diagnostics := s.diagnostics ++ [⟨start, reason, trail⟩] }

/-- What a search does with one reference of the member that it has entered last, `depth` references
away from the permission. -/
def stepAt (limit : Option Nat) (depth : Nat) (s : Search) :
    String × SubjectRelation → Option Step
  | (type, .itself) => some (.found (.subject type))
  | (type, .userset relation) =>
    let next : MemberId := ⟨type, relation⟩
    if type = anyType then some (.found (.subject type))
    else if next ∈ s.path then none
    else match limit.filter fun n => n ≤ depth with
      | some n => some (.found (.fault (.tooDeep n) (s.trail ++ [next])))
      | none => some (.enter next)

/-- What a search does with an edge of the permission that goes through no member. -/
def direct (t : Table) (start : MemberId) (s : Search) (type : String) : Search :=
  s.take start (if t.contains type then .subject type else .fault (.unknownType type) s.trail)

/-- What is to be done: a call on a member, the rest of the references of a member that has been
entered, or the rest of the edges of the permission. -/
inductive Task where
  | call (depth : Nat) (m : MemberId)
  | follow (depth : Nat) (refs : List (String × SubjectRelation))
  | expand (edges : List Edge)

/-- How a task changes the state of a search. A call has three exits: the member does not exist, it
is on the path, or all its references have been followed. -/
inductive Does (t : Table) (limit : Option Nat) (start : MemberId) : Task → Search → Search → Prop
  | missing {depth m s reason} (hm : find t m = .error reason) :
      Does t limit start (.call depth m) s (s.take start (.fault reason s.trail))
  | onPath {depth m s member} (hm : find t m = .ok member) (hin : m ∈ s.path) :
      Does t limit start (.call depth m) s s
  | through {depth m s s' member} (hm : find t m = .ok member) (hnew : m ∉ s.path)
      (hrefs : Does t limit start (.follow depth (outgoing member)) (s.enter m) s') :
      Does t limit start (.call depth m) s (s'.leave m)
  | followed {depth s} : Does t limit start (.follow depth []) s s
  | passed {depth ref refs s s'} (hstep : s.stepAt limit depth ref = none)
      (hrest : Does t limit start (.follow depth refs) s s') :
      Does t limit start (.follow depth (ref :: refs)) s s'
  | found {depth ref refs f s s'} (hstep : s.stepAt limit depth ref = some (.found f))
      (hrest : Does t limit start (.follow depth refs) (s.take start f) s') :
      Does t limit start (.follow depth (ref :: refs)) s s'
  | called {depth ref refs next s s' s''} (hstep : s.stepAt limit depth ref = some (.enter next))
      (hcall : Does t limit start (.call (depth + 1) next) s s')
      (hrest : Does t limit start (.follow depth refs) s' s'') :
      Does t limit start (.follow depth (ref :: refs)) s s''
  | expanded {s} : Does t limit start (.expand []) s s
  | object {e edges s s'} (hself : e.target? = none)
      (hrest : Does t limit start (.expand edges) (s.direct t start e.type) s') :
      Does t limit start (.expand (e :: edges)) s s'
  | target {e edges m s s' s''} (htarget : e.target? = some m)
      (hcall : Does t limit start (.call 1 m) s s')
      (hrest : Does t limit start (.expand edges) s' s'') :
      Does t limit start (.expand (e :: edges)) s s''

/-- Two states of a search with one path. -/
structure SamePath (s s' : Search) : Prop where
  path : s'.path = s.path
  trail : s'.trail = s.trail

theorem SamePath.refl (s : Search) : SamePath s s := ⟨rfl, rfl⟩

theorem SamePath.trans {s s' s'' : Search} (h : SamePath s s') (h' : SamePath s' s'') :
    SamePath s s'' := ⟨h'.path.trans h.path, h'.trail.trans h.trail⟩

private theorem samePath_take (start : MemberId) (s : Search) (f : Finding) :
    SamePath s (s.take start f) := by
  cases f <;> exact ⟨rfl, rfl⟩

/-- What has been entered can be left, whatever has been come upon in between. -/
theorem SamePath.leave {s s' : Search} {m : MemberId} (hm : m ∉ s.path)
    (h : SamePath (s.enter m) s') : SamePath s (s'.leave m) := by
  constructor
  · change s'.path.erase m = s.path
    rw [h.path]
    exact Finset.erase_insert hm
  · change s'.trail.dropLast = s.trail
    rw [h.trail]
    exact List.dropLast_concat

variable {t : Table} {limit : Option Nat} {start : MemberId}

/-- Every task gives back the path, each call on each of its exits. -/
theorem Does.samePath {task : Task} {s s' : Search} (h : Does t limit start task s s') :
    SamePath s s' := by
  induction h with
  | missing _ => exact samePath_take start _ _
  | onPath _ _ => exact .refl _
  | through _ hnew _ ih => exact ih.leave hnew
  | followed => exact .refl _
  | passed _ _ ih => exact ih
  | found _ _ ih => exact (samePath_take start _ _).trans ih
  | called _ _ _ ihcall ihrest => exact ihcall.trans ihrest
  | expanded => exact .refl _
  | object _ _ ih => exact (samePath_take start _ _).trans ih
  | target _ _ _ ihcall ihrest => exact ihcall.trans ihrest

private theorem Does.deterministic {task : Task} {s a b : Search} (ha : Does t limit start task s a)
    (hb : Does t limit start task s b) : a = b := by
  induction ha generalizing b with
  | missing hm =>
    cases hb with
    | missing hm' =>
      cases hm.symm.trans hm'
      rfl
    | onPath hm' => cases hm.symm.trans hm'
    | through hm' => cases hm.symm.trans hm'
  | onPath hm hin =>
    cases hb with
    | missing hm' => cases hm.symm.trans hm'
    | onPath => rfl
    | through _ hnew => exact absurd hin hnew
  | through hm hnew _ ih =>
    cases hb with
    | missing hm' => cases hm.symm.trans hm'
    | onPath _ hin => exact absurd hin hnew
    | through hm' _ hrefs =>
      cases hm.symm.trans hm'
      rw [ih hrefs]
  | followed =>
    cases hb
    rfl
  | passed hstep _ ih =>
    cases hb with
    | passed _ hrest => exact ih hrest
    | found hstep' => cases hstep.symm.trans hstep'
    | called hstep' => cases hstep.symm.trans hstep'
  | found hstep _ ih =>
    cases hb with
    | passed hstep' => cases hstep.symm.trans hstep'
    | found hstep' hrest =>
      cases hstep.symm.trans hstep'
      exact ih hrest
    | called hstep' => cases hstep.symm.trans hstep'
  | called hstep _ _ ihcall ihrest =>
    cases hb with
    | passed hstep' => cases hstep.symm.trans hstep'
    | found hstep' => cases hstep.symm.trans hstep'
    | called hstep' hcall hrest =>
      cases hstep.symm.trans hstep'
      cases ihcall hcall
      exact ihrest hrest
  | expanded =>
    cases hb
    rfl
  | object hself _ ih =>
    cases hb with
    | object _ hrest => exact ih hrest
    | target htarget => cases hself.symm.trans htarget
  | target htarget _ _ ihcall ihrest =>
    cases hb with
    | object hself => cases hself.symm.trans htarget
    | target htarget' hcall hrest =>
      cases htarget.symm.trans htarget'
      cases ihcall hcall
      exact ihrest hrest

private theorem Does.iff_eq {task : Task} {s a b : Search} (hb : Does t limit start task s b) :
    Does t limit start task s a ↔ a = b := by
  constructor
  · intro ha
    exact ha.deterministic hb
  · intro h
    rw [h]
    exact hb

/-- How many members of the table are not on the path. -/
def remaining (t : Table) (s : Search) : Nat := ((memberIds t).toFinset \ s.path).card

private theorem remaining_enter_lt {s : Search} {m : MemberId} (hm : m ∉ s.path)
    (hin : m ∈ memberIds t) : remaining t (s.enter m) < remaining t s := by
  have hmem : m ∈ (memberIds t).toFinset \ s.path :=
    Finset.mem_sdiff.mpr ⟨List.mem_toFinset.mpr hin, hm⟩
  have herase : (memberIds t).toFinset \ insert m s.path =
      ((memberIds t).toFinset \ s.path).erase m := Finset.sdiff_insert _ _ _
  change ((memberIds t).toFinset \ insert m s.path).card < _
  rw [herase]
  exact Finset.card_erase_lt_of_mem hmem

/-- References can be followed where calls from the path can be made: each gives that path back to
the next one. -/
theorem exists_follow {depth : Nat} {s : Search} (hcall : ∀ next s', SamePath s s' →
      ∃ s'', Does t limit start (.call (depth + 1) next) s' s'')
    (refs : List (String × SubjectRelation)) {s' : Search} (hs' : SamePath s s') :
    ∃ s'', Does t limit start (.follow depth refs) s' s'' := by
  induction refs generalizing s' with
  | nil => exact ⟨s', .followed⟩
  | cons ref refs ih =>
    cases hstep : s'.stepAt limit depth ref with
    | none =>
      obtain ⟨last, hrest⟩ := ih hs'
      exact ⟨last, .passed hstep hrest⟩
    | some step =>
      cases step with
      | found f =>
        obtain ⟨last, hrest⟩ := ih (hs'.trans (samePath_take start s' f))
        exact ⟨last, .found hstep hrest⟩
      | enter next =>
        obtain ⟨after, hnext⟩ := hcall next s' hs'
        obtain ⟨last, hrest⟩ := ih (hs'.trans hnext.samePath)
        exact ⟨last, .called hstep hnext hrest⟩

/-- Calls end, from whatever state. -/
theorem exists_call (depth : Nat) (m : MemberId) (s : Search) :
    ∃ s', Does t limit start (.call depth m) s s' := by
  induction h : remaining t s using Nat.strongRecOn generalizing depth m s with
  | _ n ih =>
    subst h
    cases hfind : find t m with
    | error reason => exact ⟨_, .missing hfind⟩
    | ok member =>
      by_cases hm : m ∈ s.path
      · exact ⟨s, .onPath hfind hm⟩
      · have hcall : ∀ next s', SamePath (s.enter m) s' →
            ∃ s'', Does t limit start (.call (depth + 1) next) s' s'' := by
          intro next s' hs'
          have hlt : remaining t s' < remaining t s := by
            rw [remaining, hs'.path]
            exact remaining_enter_lt hm (mem_memberIds_of_find hfind)
          exact ih _ hlt (depth + 1) next s' rfl
        obtain ⟨s', hrefs⟩ := exists_follow hcall (outgoing member) (.refl _)
        exact ⟨s'.leave m, .through hfind hm hrefs⟩

private theorem foldl_take (s : Search) (findings : List Finding) :
    findings.foldl (take start) s = { s with
      subjects := (s.subjects.growAll (findings.filterMap Finding.subject?)).1
      diagnostics := s.diagnostics ++ findings.filterMap (Finding.diagnostic? start) } := by
  induction findings generalizing s with
  | nil => simp [SubjectMap.growAll]
  | cons f findings ih =>
    rw [List.foldl_cons, ih]
    cases f with
    | subject type =>
      rw [List.filterMap_cons_some (f := Finding.subject?) rfl,
        List.filterMap_cons_none (f := Finding.diagnostic? start) rfl, SubjectMap.growAll_cons]
      rfl
    | fault reason trail =>
      rw [List.filterMap_cons_none (f := Finding.subject?) rfl,
        List.filterMap_cons_some (f := Finding.diagnostic? start) rfl, List.append_cons]
      rfl

/-- What is taken in between entering a member and leaving it might be taken in before. -/
theorem leave_foldl_take {s : Search} {m : MemberId} (hm : m ∉ s.path)
    (findings : List Finding) :
    (findings.foldl (take start) (s.enter m)).leave m = findings.foldl (take start) s := by
  rw [foldl_take, foldl_take]
  simp only [leave, enter, Finset.erase_insert hm, List.dropLast_concat]

/-- The path of a search is a trail, and the members in it are those on the trail. -/
structure OnTrail (trail : Trail) (s : Search) : Prop where
  trail_eq : s.trail = trail
  mem_path : ∀ m, m ∈ s.path ↔ m ∈ trail

private theorem onTrail_begin (start : MemberId) : OnTrail [start] (begin start) :=
  ⟨rfl, by simp [begin]⟩

private theorem OnTrail.enter {trail : Trail} {s : Search} (h : OnTrail trail s) (m : MemberId) :
    OnTrail (trail ++ [m]) (s.enter m) :=
  ⟨congrArg (· ++ [m]) h.trail_eq, by simp [Search.enter, h.mem_path, or_comm]⟩

private theorem OnTrail.foldl_take {trail : Trail} {s : Search} (h : OnTrail trail s)
    (findings : List Finding) : OnTrail trail (findings.foldl (take start) s) := by
  rw [Search.foldl_take]
  exact ⟨h.trail_eq, h.mem_path⟩

private theorem OnTrail.stepAt_eq {trail : Trail} {s : Search} (h : OnTrail trail s) {depth : Nat}
    (hdepth : trail.length = depth + 1) (ref : String × SubjectRelation) :
    s.stepAt limit depth ref = Resolution.stepAt limit trail ref := by
  obtain ⟨type, subject⟩ := ref
  cases subject with
  | itself => rfl
  | userset relation =>
    have hlimit : (limit.filter fun n => n ≤ depth) = limit.filter fun n => n < trail.length := by
      simp only [hdepth, Nat.lt_succ_iff]
    refine if_congr Iff.rfl rfl (if_congr (h.mem_path _) rfl ?_)
    cases hdeep : limit.filter fun n => n < trail.length with
    | none => simp only [hlimit, hdeep]
    | some n => simp only [hlimit, hdeep, h.trail_eq]

/-- Following references takes in what their steps come upon, if calls take in what expansions of
their members do. -/
theorem does_follow {trail : Trail} {depth : Nat} (hdepth : trail.length = depth + 1)
    {refs : List (String × SubjectRelation)}
    (hcalls : ∀ ref ∈ refs, ∀ next, Resolution.stepAt limit trail ref = some (.enter next) →
      ∀ s, OnTrail trail s → Does t limit start (.call (depth + 1) next) s
        ((expandMember t limit trail next).foldl (take start) s))
    {s : Search} (hs : OnTrail trail s) :
    Does t limit start (.follow depth refs) s
      (((refs.filterMap (Resolution.stepAt limit trail)).flatMap
        (Step.findings t limit trail)).foldl (take start) s) := by
  induction refs generalizing s with
  | nil => exact .followed
  | cons ref refs ih =>
    have hlater := fun r hr => hcalls r (List.mem_cons_of_mem ref hr)
    cases hstep : Resolution.stepAt limit trail ref with
    | none =>
      rw [List.filterMap_cons_none hstep]
      exact .passed ((hs.stepAt_eq hdepth ref).trans hstep) (ih hlater hs)
    | some step =>
      rw [List.filterMap_cons_some hstep, List.flatMap_cons, List.foldl_append]
      cases step with
      | found f =>
        exact .found ((hs.stepAt_eq hdepth ref).trans hstep) (ih hlater (hs.foldl_take [f]))
      | enter next =>
        exact .called ((hs.stepAt_eq hdepth ref).trans hstep)
          (hcalls ref List.mem_cons_self next hstep s hs) (ih hlater (hs.foldl_take _))

/-- A call takes in what the expansion of its member comes upon, in the same order. -/
theorem does_call (trail : Trail) (m : MemberId) {s : Search} (hs : OnTrail trail s) :
    Does t limit start (.call trail.length m) s
      ((expandMember t limit trail m).foldl (take start) s) := by
  induction trail, m using expand_induction t limit generalizing s with
  | step trail m ih =>
    cases hfind : find t m with
    | error reason =>
      have hsteps : steps t limit trail m = [.found (.fault reason trail)] := by rw [steps, hfind]
      rw [expandMember_eq, hsteps, ← hs.trail_eq]
      exact .missing hfind
    | ok member =>
      have hrefs : references t m = .ok (outgoing member) :=
        references_eq_ok.mpr ⟨member, hfind, rfl⟩
      by_cases hm : m ∈ trail
      · rw [expandMember_on_path hrefs hm]
        exact .onPath hfind ((hs.mem_path m).mpr hm)
      · have hnew : m ∉ s.path := fun hin => hm ((hs.mem_path m).mp hin)
        have hlength : (trail ++ [m]).length = trail.length + 1 := by simp
        have hsteps : steps t limit trail m =
            (outgoing member).filterMap (Resolution.stepAt limit (trail ++ [m])) :=
          steps_of_references hrefs hm
        have hcalls : ∀ ref ∈ outgoing member, ∀ next,
            Resolution.stepAt limit (trail ++ [m]) ref = some (.enter next) →
            ∀ s, OnTrail (trail ++ [m]) s → Does t limit start (.call (trail.length + 1) next) s
              ((expandMember t limit (trail ++ [m]) next).foldl (take start) s) := by
          intro ref href next hnext s hs
          rw [← hlength]
          exact ih next (hsteps ▸ List.mem_filterMap.mpr ⟨ref, href, hnext⟩) hs
        have hall := does_follow hlength hcalls (hs.enter m)
        rw [← hsteps] at hall
        have hthrough := Does.through hfind hnew hall
        rw [leave_foldl_take hnew] at hthrough
        rw [expandMember_eq]
        exact hthrough

/-- A search takes in what the expansion of its permission comes upon, in the same order. -/
theorem does_expand (edges : List Edge) {s : Search} (hs : OnTrail [start] s) :
    Does t limit start (.expand edges) s ((expand t limit start edges).foldl (take start) s) := by
  induction edges generalizing s with
  | nil => exact .expanded
  | cons e edges ih =>
    rw [expand, List.flatMap_cons, List.foldl_append]
    have hafter : OnTrail [start] ((expandEdge t limit start e).foldl (take start) s) :=
      hs.foldl_take _
    have hrest := ih hafter
    obtain ⟨type, subject, caveat⟩ := e
    cases subject with
    | itself =>
      refine .object rfl ?_
      have hdirect : s.direct t start type =
          (expandEdge t limit start ⟨type, .itself, caveat⟩).foldl (take start) s := by
        rw [direct, expandEdge, hs.trail_eq]
        cases t.contains type <;> rfl
      exact hdirect ▸ hrest
    | userset relation => exact .target rfl (does_call [start] ⟨type, relation⟩ hs) hrest

end Search

/-- The members that plain search comes to from the edges of a permission, in the graph from which
the permission has been taken out. -/
def Attains (t : Table) (start : MemberId) (edges : List Edge) (m : MemberId) : Prop :=
  ∃ e ∈ edges, ∃ x, e.target? = some x ∧ x ≠ start ∧ Walk t [start] x m

/-- A path that has come back to a member of its own comes upon no subject type there. -/
theorem subject_not_mem_expandMember {t : Table} {limit : Option Nat} {trail : Trail}
    {m : MemberId} (hm : m ∈ trail) (type : String) :
    .subject type ∉ expandMember t limit trail m := by
  rw [expandMember_eq, steps]
  cases find t m with
  | error reason => simp
  | ok member => simp [hm]

/-- An expansion without a limit comes upon the subject types that plain search finds: those of
direct edges, once the type exists, and those that show at the members it comes to. -/
theorem subject_mem_expand_iff {t : Table} {start : MemberId} {edges : List Edge} {type : String} :
    .subject type ∈ expand t none start edges ↔
      (∃ e ∈ edges, e.type = type ∧ e.subject = .itself ∧ t.contains type = true) ∨
      ∃ m, Attains t start edges m ∧ Gives t m (.ok type) := by
  constructor
  · intro h
    obtain ⟨e, he, hf⟩ := mem_expand.mp h
    rw [expandEdge] at hf
    cases hs : e.subject with
    | itself =>
      simp only [hs] at hf
      split at hf
      · next hin =>
        obtain rfl : type = e.type := by simpa using hf
        exact Or.inl ⟨e, he, rfl, hs, hin⟩
      · simp at hf
    | userset relation =>
      simp only [hs] at hf
      have hne : (⟨e.type, relation⟩ : MemberId) ≠ start := by
        intro heq
        exact subject_not_mem_expandMember (by simp [heq]) type hf
      obtain ⟨m, hw, hg⟩ | ⟨n, hlimit, -⟩ :=
        walk_of_mem_expandMember [start] _ (by simpa using hne) hf
      · have htarget : e.target? = some ⟨e.type, relation⟩ := by
          simp [Edge.target?, hs, SubjectRelation.relation?]
        exact Or.inr ⟨m, ⟨e, he, _, htarget, hne, hw⟩, hg⟩
      · cases hlimit
  · intro h
    obtain ⟨e, he, rfl, hself, hin⟩ | ⟨m, ⟨e, he, x, htarget, hne, hw⟩, hg⟩ := h
    · exact subject_mem_expand he (.object hself hin)
    · exact subject_mem_expand he (.walk htarget hne hw hg)

private theorem mem_keys_collect_subjects {findings : List Finding} {type : String} :
    type ∈ (SubjectMap.collect (findings.filterMap Finding.subject?)).keys ↔
      .subject type ∈ findings := by
  rw [SubjectMap.mem_keys_collect_iff, List.mem_map]
  constructor
  · intro h
    obtain ⟨e, he, rfl⟩ := h
    exact (mem_subjects.mp he).2
  · intro h
    exact ⟨(type, .itself), mem_subjects.mpr ⟨rfl, h⟩, rfl⟩

/-- The expansion of a permission, in any state of a table, collects the subject types that plain
search finds in the graph from which the permission has been taken out. A search that keeps one path
for all its calls collects the same and ends on the path that it began on. Each call that it could
make, from whatever state and with whatever limit, ends in one way, and gives back the path that it
was made on. -/
theorem expand_exact (t : Table) (start : MemberId) (edges : List Edge) :
    (∀ type, type ∈
        (SubjectMap.collect ((expand t none start edges).filterMap Finding.subject?)).keys ↔
      (∃ e ∈ edges, e.type = type ∧ e.subject = .itself ∧ t.contains type = true) ∨
      ∃ m, Attains t start edges m ∧ Gives t m (.ok type)) ∧
    (∀ limit s, Search.Does t limit start (.expand edges) (.begin start) s ↔ s =
      { path := {start}
        trail := [start]
        subjects := SubjectMap.collect ((expand t limit start edges).filterMap Finding.subject?)
        diagnostics := (expand t limit start edges).filterMap (Finding.diagnostic? start) }) ∧
    ∀ limit depth m s, ∃ s', (∀ a, Search.Does t limit start (.call depth m) s a ↔ a = s') ∧
      s'.path = s.path ∧ s'.trail = s.trail := by
  refine ⟨fun type => ?_, fun limit s => ?_, fun limit depth m s => ?_⟩
  · rw [mem_keys_collect_subjects, subject_mem_expand_iff]
  · have hdoes : Search.Does t limit start (.expand edges) (.begin start) _ :=
      Search.does_expand edges (Search.onTrail_begin start)
    rw [Search.foldl_take] at hdoes
    exact hdoes.iff_eq
  · obtain ⟨s', hs'⟩ : ∃ s', Search.Does t limit start (.call depth m) s s' :=
      Search.exists_call depth m s
    exact ⟨s', fun a => hs'.iff_eq, hs'.samePath.path, hs'.samePath.trail⟩

/-- Auditors are members of groups, whose members are users and the members of further groups: the
search turns back at the group that it has come through and finds the users. -/
example : (SubjectMap.collect ((expand (seeded foldersTable) none ⟨"folder", "edit"⟩
    [.through "folder" "auditor", .through "folder" "view"]).filterMap Finding.subject?)).keys =
    ["user"] := by
  decide +kernel

end AuthSchema.Resolution
