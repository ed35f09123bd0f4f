import AuthSchema.Proofs.Members
import AuthSchema.Proofs.Pipeline

/-! Members that are hidden from those who read a resolved schema. Hiding comes last, so all that is
left is as it is without hiding: the same refusals, resource types and narrowings, and every member
that stays has the same subjects and edges, on hidden members too. -/
namespace AuthSchema

/-- A name that begins with none of the texts to hide; the empty text hides nothing. -/
def Shown (hidden : List String) (name : String) : Prop :=
  ∀ start ∈ hidden, start = "" ∨ ¬ start.toList <+: name.toList

private theorem shown_singleton {start name : String} :
    Shown [start] name ↔ start = "" ∨ start.toList.isPrefixOf name.toList = false := by
  rw [Bool.eq_false_iff, Ne, List.isPrefixOf_iff_prefix]
  simp [Shown]

private theorem shown_cons (start : String) (hidden : List String) :
    Shown (start :: hidden) = fun name => Shown [start] name ∧ Shown hidden name := by
  funext name
  simp [Shown]

/-- Only which texts are hidden matters, not their order or how often they are listed. -/
theorem shown_congr {hidden hidden' : List String} (h : ∀ start, start ∈ hidden ↔ start ∈ hidden') :
    Shown hidden = Shown hidden' := by
  funext name
  simp only [Shown, h]

/-- Of the members of one map, another one has those of the shown names, and nothing else. -/
def SortedMap.Keeps {α : Type u} (shown : String → Prop) (m m' : SortedMap α) : Prop :=
  ∀ name v, m'.get? name = some v ↔ m.get? name = some v ∧ shown name

/-- A resource type has the members of shown names of another one, as they are, and all else. -/
structure Resource.Keeps (shown : String → Prop) (r r' : Resource) : Prop where
  name : r'.name = r.name
  permissionSubject : r'.permissionSubject = r.permissionSubject
  relationSubject : r'.relationSubject = r.relationSubject
  permissions : r.permissions.Keeps shown r'.permissions
  relations : r.relations.Keeps shown r'.relations

/-- A schema has the resource types and caveats of another one, the types without the members whose
names are not shown. -/
structure Schema.Keeps (shown : String → Prop) (s s' : Schema) : Prop where
  caveats : s'.caveats = s.caveats
  resources : SortedMap.Matches (Resource.Keeps shown) s.resources s'.resources

namespace SortedMap.Keeps
variable {α : Type u} {p q : String → Prop} {m m' m'' : SortedMap α}

theorem refl (hp : ∀ name, p name) (m : SortedMap α) : m.Keeps p m := by
  intro name v
  simp [hp name]

theorem trans (h : m.Keeps p m') (h' : m'.Keeps q m'') :
    m.Keeps (fun name => p name ∧ q name) m'' := by
  intro name v
  rw [h' name v, h name v, and_assoc]

private theorem get?_of_shown (h : m.Keeps p m') {name : String} (hname : p name) :
    m'.get? name = m.get? name := by
  apply Option.ext
  intro v
  rw [h name v, and_iff_left hname]

private theorem get?_of_hidden (h : m.Keeps p m') {name : String} (hname : ¬ p name) :
    m'.get? name = none := by
  rw [Option.eq_none_iff_forall_ne_some]
  intro v hv
  exact hname ((h name v).mp hv).2

theorem unique (h : m.Keeps p m') (h' : m.Keeps p m'') : m' = m'' := by
  apply SortedMap.ext_get?
  intro name
  apply Option.ext
  intro v
  rw [h name v, h' name v]

end SortedMap.Keeps

namespace Resource.Keeps
variable {p q : String → Prop} {r r' r'' : Resource}

theorem refl (hp : ∀ name, p name) (r : Resource) : r.Keeps p r :=
  ⟨rfl, rfl, rfl, .refl hp _, .refl hp _⟩

theorem trans (h : r.Keeps p r') (h' : r'.Keeps q r'') :
    r.Keeps (fun name => p name ∧ q name) r'' :=
  ⟨h'.name.trans h.name, h'.permissionSubject.trans h.permissionSubject,
    h'.relationSubject.trans h.relationSubject, h.permissions.trans h'.permissions,
    h.relations.trans h'.relations⟩

theorem unique (h : r.Keeps p r') (h' : r.Keeps p r'') : r' = r'' := by
  obtain ⟨name, permissions, relations, permissionSubject, relationSubject⟩ := r'
  obtain ⟨name', permissions', relations', permissionSubject', relationSubject'⟩ := r''
  obtain rfl : name = name' := h.name.trans h'.name.symm
  obtain rfl : permissions = permissions' := h.permissions.unique h'.permissions
  obtain rfl : relations = relations' := h.relations.unique h'.relations
  obtain rfl : permissionSubject = permissionSubject' :=
    h.permissionSubject.trans h'.permissionSubject.symm
  obtain rfl : relationSubject = relationSubject' :=
    h.relationSubject.trans h'.relationSubject.symm
  rfl

end Resource.Keeps

namespace Schema.Keeps
variable {p q : String → Prop} {s s' s'' : Schema}

theorem refl (hp : ∀ name, p name) (s : Schema) : s.Keeps p s := by
  refine ⟨rfl, ?_, ?_⟩
  · exact fun _ r hr => ⟨r, hr, .refl hp r⟩
  · exact fun _ r hr => ⟨r, hr, .refl hp r⟩

theorem trans (h : s.Keeps p s') (h' : s'.Keeps q s'') :
    s.Keeps (fun name => p name ∧ q name) s'' := by
  refine ⟨h'.caveats.trans h.caveats, ?_, ?_⟩
  · intro type r hr
    obtain ⟨r', hr', hkeeps⟩ := h.resources.forth type r hr
    obtain ⟨r'', hr'', hkeeps'⟩ := h'.resources.forth type r' hr'
    exact ⟨r'', hr'', hkeeps.trans hkeeps'⟩
  · intro type r'' hr''
    obtain ⟨r', hr', hkeeps'⟩ := h'.resources.back type r'' hr''
    obtain ⟨r, hr, hkeeps⟩ := h.resources.back type r' hr'
    exact ⟨r, hr, hkeeps.trans hkeeps'⟩

/-- What is kept settles the schema. -/
theorem unique (h : s.Keeps p s') (h' : s.Keeps p s'') : s' = s'' := by
  have hresources : s'.resources = s''.resources := by
    apply SortedMap.ext_get?
    intro type
    cases hr : s.resources.get? type with
    | none => rw [h.resources.get?_eq_none hr, h'.resources.get?_eq_none hr]
    | some r =>
      obtain ⟨r', hr', hkeeps⟩ := h.resources.forth type r hr
      obtain ⟨r'', hr'', hkeeps'⟩ := h'.resources.forth type r hr
      rw [hr', hr'', hkeeps.unique hkeeps']
  obtain ⟨resources, caveats⟩ := s'
  obtain ⟨resources', caveats'⟩ := s''
  obtain rfl : resources = resources' := hresources
  obtain rfl : caveats = caveats' := h.caveats.trans h'.caveats.symm
  rfl

theorem member?_iff (h : s.Keeps p s') {m : MemberId} {found : Member} :
    s'.resources.member? m = some found ↔
      s.resources.member? m = some found ∧ p m.member := by
  rw [Table.member?, Table.member?]
  cases hr : s.resources.get? m.type with
  | none => simp [h.resources.get?_eq_none hr]
  | some r =>
    obtain ⟨r', hr', hkeeps⟩ := h.resources.forth m.type r hr
    rw [hr', Option.bind_some, Option.bind_some, Resource.member?, Resource.member?]
    by_cases hshown : p m.member
    · simp [hkeeps.relations.get?_of_shown hshown, hkeeps.permissions.get?_of_shown hshown, hshown]
    · simp [hkeeps.relations.get?_of_hidden hshown, hkeeps.permissions.get?_of_hidden hshown,
        hshown]

end Schema.Keeps

private theorem SortedMap.keeps_filterKeys {α : Type u} {start : String} (hstart : start ≠ "")
    (m : SortedMap α) :
    m.Keeps (Shown [start]) (m.filterKeys fun name => !start.toList.isPrefixOf name.toList) := by
  intro name v
  rw [SortedMap.get?_filterKeys, shown_singleton, or_iff_right hstart, Bool.not_eq_true']

theorem Schema.keeps_hide (s : Schema) (start : String) :
    s.Keeps (Shown [start]) (s.hide start) := by
  rw [Schema.hide]
  split
  · next hnone =>
    refine .refl (fun name => ?_) s
    simp [Shown, hnone]
  · next hsome =>
    have hkeeps : ∀ r : Resource, r.Keeps (Shown [start])
        { r with permissions := r.permissions.filterKeys fun name =>
                   !start.toList.isPrefixOf name.toList
                 relations := r.relations.filterKeys fun name =>
                   !start.toList.isPrefixOf name.toList } :=
      fun r => ⟨rfl, rfl, rfl, r.permissions.keeps_filterKeys hsome,
        r.relations.keeps_filterKeys hsome⟩
    refine ⟨rfl, ?_, ?_⟩
    · intro type r hr
      rw [SortedMap.get?_map, hr]
      exact ⟨_, rfl, hkeeps r⟩
    · intro type r' hr'
      rw [SortedMap.get?_map] at hr'
      obtain ⟨r, hr, rfl⟩ := Option.map_eq_some_iff.mp hr'
      exact ⟨r, hr, hkeeps r⟩

theorem Schema.keys_hide (s : Schema) (hidden : String) :
    (s.hide hidden).resources.keys = s.resources.keys :=
  (s.keeps_hide hidden).resources.keys_eq.symm

/-- Hiding leaves a member out or keeps it as it is. -/
theorem Schema.member?_hide {s : Schema} {hidden : String} {m : MemberId} {found : Member} :
    (s.hide hidden).resources.member? m = some found ↔ s.resources.member? m = some found ∧
      (hidden = "" ∨ hidden.toList.isPrefixOf m.member.toList = false) := by
  rw [(s.keeps_hide hidden).member?_iff, shown_singleton]

/-- Hiding several texts one after the other leaves what begins with none of them. -/
theorem Schema.keeps_foldl_hide (s : Schema) (hidden : List String) :
    s.Keeps (Shown hidden) (hidden.foldl hide s) := by
  induction hidden generalizing s with
  | nil => exact .refl (fun name start hstart => absurd hstart List.not_mem_nil) s
  | cons start hidden ih =>
    rw [shown_cons]
    exact (s.keeps_hide start).trans (ih (s.hide start))

namespace Schema
variable {c : Compiled.Schema} {policy : Resolution.Policy}

/-- Resolving with and without hiding is one run, but for the last step. -/
theorem ofCompiled_hide (policy : Resolution.Policy) (hidden : String) (c : Compiled.Schema) :
    ofCompiled ⟨policy, hidden⟩ c = (ofCompiled ⟨policy, ""⟩ c).map fun s => s.hide hidden := by
  rw [ofCompiled_eq, ofCompiled_eq]
  cases Table.ofCompiled c with
  | error e => rfl
  | ok t =>
    cases h : Resolution.resolve policy t with
    | error ds => simp [h, Except.map]
    | ok r => simp [h, Except.map, hide]

private theorem filed_ofCompiled {s : Schema} (h : ofCompiled ⟨policy, ""⟩ c = .ok s) :
    Resolution.Filed s.resources := by
  obtain ⟨t, ht, -, rfl⟩ := ofCompiled_eq_ok_solution.mp h
  intro type r hr
  rw [hide, if_pos rfl, Table.narrow, SortedMap.get?_map] at hr
  obtain ⟨source, hsource, rfl⟩ := Option.map_eq_some_iff.mp hr
  have hfiled : source.Filed := Resolution.filed_stage (Resolution.variant_solution _ t)
    (Resolution.filed_of_compiled ht) type source hsource
  exact ⟨hfiled.relation, hfiled.permission, hfiled.apart⟩

/-- A schema is refused for the same reasons whatever is hidden. A schema that is resolved has all
that it has when nothing is hidden, where members are filed under their own names, but for the
members whose names begin with the hidden text. Several texts can be hidden one after the other, in
any order. -/
theorem ofCompiled_hidden (policy : Resolution.Policy) (c : Compiled.Schema) :
    (∀ hidden e, ofCompiled ⟨policy, hidden⟩ c = .error e ↔
      ofCompiled ⟨policy, ""⟩ c = .error e) ∧
    (∀ hidden s', ofCompiled ⟨policy, hidden⟩ c = .ok s' ↔
      ∃ s, ofCompiled ⟨policy, ""⟩ c = .ok s ∧ Resolution.Filed s.resources ∧
        s.Keeps (Shown [hidden]) s') ∧
    ∀ (s : Schema) (hidden : List String), s.Keeps (Shown hidden) (hidden.foldl hide s) ∧
      ∀ hidden' : List String, (∀ start, start ∈ hidden ↔ start ∈ hidden') →
        hidden.foldl hide s = hidden'.foldl hide s := by
  refine ⟨fun hidden e => ?_, fun hidden s' => ?_, fun s hidden => ⟨s.keeps_foldl_hide hidden, ?_⟩⟩
  · rw [ofCompiled_hide]
    cases ofCompiled ⟨policy, ""⟩ c <;> simp [Except.map]
  · rw [ofCompiled_hide]
    cases hs : ofCompiled ⟨policy, ""⟩ c with
    | error e => simp [Except.map]
    | ok s =>
      have hfiled : Resolution.Filed s.resources := filed_ofCompiled hs
      simp only [Except.map, Except.ok.injEq]
      constructor
      · rintro rfl
        exact ⟨s, rfl, hfiled, s.keeps_hide hidden⟩
      · rintro ⟨_, rfl, -, hkeeps⟩
        exact (s.keeps_hide hidden).unique hkeeps
  · intro hidden' hsame
    have hkeeps : s.Keeps (Shown hidden) (hidden.foldl hide s) := s.keeps_foldl_hide hidden
    rw [shown_congr hsame] at hkeeps
    exact hkeeps.unique (s.keeps_foldl_hide hidden')

/-- Who edits a folder is not hidden with its viewers and those who view it, and still goes through
these. -/
theorem ofCompiled_hidden_folders : ∃ s s' edit, ofCompiled ⟨{}, ""⟩ folders = .ok s ∧
    ofCompiled ⟨{}, "v"⟩ folders = .ok s' ∧ s.Keeps (Shown ["v"]) s' ∧
    s'.resources.member? ⟨"folder", "edit"⟩ = some edit ∧
    .through "folder" "view" ∈ edit.edges ∧ s'.resources.member? ⟨"folder", "view"⟩ = none ∧
    ["v", "a", "v"].foldl hide s = ["a", "v"].foldl hide s := by
  obtain ⟨-, hresolved, hseveral⟩ := ofCompiled_hidden {} folders
  have hall := ofCompiled_folders_ok
  have hshown : ofCompiled ⟨{}, "v"⟩ folders = .ok (hide
      ⟨(Resolution.solution none foldersTable).narrow, caveatsOf folders⟩ "v") := by
    rw [ofCompiled_hide]
    exact congrArg _ hall
  have hedit : ((hide ⟨(Resolution.solution none foldersTable).narrow, caveatsOf folders⟩
      "v").resources.member? ⟨"folder", "edit"⟩).any
        (fun edit => .through "folder" "view" ∈ edit.edges) = true := by decide +kernel
  obtain ⟨edit, hfound, hedge⟩ := (Option.any_eq_true _ _).mp hedit
  obtain ⟨s, hs, -, hkeeps⟩ := (hresolved "v" _).mp hshown
  refine ⟨s, _, edit, hs, hshown, hkeeps, hfound, of_decide_eq_true hedge, by decide +kernel, ?_⟩
  exact (hseveral s ["v", "a", "v"]).2 ["a", "v"] fun start => by
    simp only [List.mem_cons, List.not_mem_nil, or_false]
    tauto

end Schema

end AuthSchema
