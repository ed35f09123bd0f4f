import AuthSchema.Proofs.Variant

/-! What an expansion reads of the state it runs in. Open permissions hold objects only, so more of
them never open or close a path: they add subject types at its end and nothing else. -/
namespace AuthSchema.Resolution

/-- Open permissions have no usersets among their subjects. -/
def PlainOpen (t : Table) : Prop := ∀ m, IsOpen t m → (subjectsAt t m).Plain

/-- A permission has a subject type among its objects. -/
def Allows (t : Table) (m : MemberId) (type : String) : Prop :=
  (subjectsAt t m).get? type = some .itself

/-- The steps at a member that shows the subject types it has. -/
def shown (t : Table) (trail : Trail) (m : MemberId) : List Step :=
  if m ∈ trail then [] else (subjectsAt t m).keys.map fun type => .found (.subject type)

private theorem filterMap_stepAt_plain {refs : List (String × SubjectRelation)}
    (h : ∀ ref ∈ refs, ref.2 = .itself) (limit : Option Nat) (trail : Trail) :
    refs.filterMap (stepAt limit trail) =
      (refs.map Prod.fst).map fun type => .found (.subject type) := by
  induction refs with
  | nil => rfl
  | cons ref refs ih =>
    obtain ⟨type, subject⟩ := ref
    obtain rfl : subject = .itself := h _ List.mem_cons_self
    rw [List.filterMap_cons_some (stepAt_end (Or.inl rfl)),
      ih fun ref href => h ref (List.mem_cons_of_mem _ href)]
    rfl

private theorem steps_shown {t : Table} {m : MemberId} (hp : (subjectsAt t m).Plain)
    (h : references t m = .ok (subjectsAt t m).entries) (limit : Option Nat) (trail : Trail) :
    steps t limit trail m = shown t trail m := by
  rw [steps_eq, h, shown, SortedMap.keys,
    ← filterMap_stepAt_plain (fun _ => hp.mem_entries) limit (trail ++ [m])]

/-- At each member two variants take the same steps, or the member is open in both and shows its
subjects. -/
theorem steps_variant {t t' : Table} (h : Variant t t') (hp : PlainOpen t) (hp' : PlainOpen t')
    (limit : Option Nat) (trail : Trail) (m : MemberId) :
    steps t' limit trail m = steps t limit trail m ∨ (IsOpen t m ∧
      steps t limit trail m = shown t trail m ∧ steps t' limit trail m = shown t' trail m) := by
  rcases h.references_eq m with heq | ⟨ho, hrefs, hrefs'⟩
  · left
    rw [steps_eq, steps_eq, heq]
  · right
    exact ⟨ho, steps_shown (hp m ho) hrefs limit trail,
      steps_shown (hp' m (h.isOpen_iff.mpr ho)) hrefs' limit trail⟩

private theorem mem_shown {t : Table} {trail : Trail} {m : MemberId} {s : Step} :
    s ∈ shown t trail m ↔
      m ∉ trail ∧ ∃ type ∈ (subjectsAt t m).keys, s = .found (.subject type) := by
  by_cases hm : m ∈ trail <;> simp [shown, hm, eq_comm]

private theorem filterMap_diagnostic?_expandMember (t : Table) (limit : Option Nat)
    (start : MemberId) (trail : Trail) (m : MemberId) :
    (expandMember t limit trail m).filterMap (Finding.diagnostic? start) =
      (steps t limit trail m).flatMap fun
        | .found f => (f.diagnostic? start).toList
        | .enter next =>
          (expandMember t limit (trail ++ [m]) next).filterMap (Finding.diagnostic? start) := by
  rw [expandMember_eq, List.filterMap_flatMap]
  refine congrArg (List.flatMap · _) (funext fun s => ?_)
  cases s with
  | found f => cases f <;> rfl
  | enter next => rfl

/-- The faults on the paths from a member, with their trails and in their order, do not depend on
the subjects of open permissions. -/
theorem expandMember_diagnostics_variant {t t' : Table} (h : Variant t t') (hp : PlainOpen t)
    (hp' : PlainOpen t') (limit : Option Nat) (start : MemberId) (trail : Trail) (m : MemberId) :
    (expandMember t' limit trail m).filterMap (Finding.diagnostic? start) =
      (expandMember t limit trail m).filterMap (Finding.diagnostic? start) := by
  induction trail, m using expand_induction t limit with
  | step trail m ih =>
    rw [filterMap_diagnostic?_expandMember, filterMap_diagnostic?_expandMember]
    rcases steps_variant h hp hp' limit trail m with heq | ⟨-, hs, hs'⟩
    · rw [heq]
      refine List.flatMap_congr fun s hmem => ?_
      cases s with
      | found f => rfl
      | enter next => exact ih next hmem
    · have hnone : ∀ t : Table, (shown t trail m).flatMap (fun
          | .found f => (f.diagnostic? start).toList
          | .enter next => (expandMember t limit (trail ++ [m]) next).filterMap
              (Finding.diagnostic? start)) = [] := by
        intro t
        refine List.flatMap_eq_nil_iff.mpr fun s hmem => ?_
        obtain ⟨-, type, -, rfl⟩ := mem_shown.mp hmem
        rfl
      rw [hs, hs', hnone t, hnone t']

theorem expand_diagnostics_variant {t t' : Table} (h : Variant t t') (hp : PlainOpen t)
    (hp' : PlainOpen t') (limit : Option Nat) (start : MemberId) (edges : List Edge) :
    (expand t' limit start edges).filterMap (Finding.diagnostic? start) =
      (expand t limit start edges).filterMap (Finding.diagnostic? start) := by
  rw [expand, expand, List.filterMap_flatMap, List.filterMap_flatMap]
  refine congrArg (List.flatMap · _) (funext fun e => ?_)
  cases hs : e.subject with
  | itself => simp only [expandEdge, hs, h.contains_eq]
  | userset relation =>
    simp only [expandEdge, hs]
    exact expandMember_diagnostics_variant h hp hp' limit start _ _

/-- Where open permissions allow more, the same paths come upon more subject types. -/
theorem expandMember_mono {t t' : Table} (h : Variant t t') (hp : PlainOpen t) (hp' : PlainOpen t')
    (hle : ∀ m, IsOpen t m → ∀ type, Allows t m type → Allows t' m type) {limit : Option Nat}
    (trail : Trail) (m : MemberId) {type : String}
    (hf : .subject type ∈ expandMember t limit trail m) :
    .subject type ∈ expandMember t' limit trail m := by
  induction trail, m using expand_induction t limit with
  | step trail m ih =>
    rcases steps_variant h hp hp' limit trail m with heq | ⟨ho, hs, hs'⟩
    · rcases mem_expandMember.mp hf with hfound | ⟨next, hnext, hrest⟩
      · exact mem_expandMember.mpr (Or.inl (heq ▸ hfound))
      · exact mem_expandMember.mpr (Or.inr ⟨next, heq ▸ hnext, ih next hnext hrest⟩)
    · rcases mem_expandMember.mp hf with hfound | ⟨next, hnext, -⟩
      · rw [hs] at hfound
        obtain ⟨hm, type', hkey, he⟩ := mem_shown.mp hfound
        cases he
        have hkey' : type ∈ (subjectsAt t' m).keys :=
          (hp' m (h.isOpen_iff.mpr ho)).mem_keys_iff.mpr
            (hle m ho type ((hp m ho).mem_keys_iff.mp hkey))
        refine mem_expandMember.mpr (Or.inl ?_)
        rw [hs']
        exact mem_shown.mpr ⟨hm, type, hkey', rfl⟩
      · rw [hs] at hnext
        obtain ⟨-, type', -, he⟩ := mem_shown.mp hnext
        cases he

theorem expand_mono {t t' : Table} (h : Variant t t') (hp : PlainOpen t) (hp' : PlainOpen t')
    (hle : ∀ m, IsOpen t m → ∀ type, Allows t m type → Allows t' m type) {limit : Option Nat}
    {start : MemberId} {edges : List Edge} {type : String}
    (hf : .subject type ∈ expand t limit start edges) :
    .subject type ∈ expand t' limit start edges := by
  obtain ⟨e, he, hfe⟩ := mem_expand.mp hf
  refine mem_expand.mpr ⟨e, he, ?_⟩
  cases hs : e.subject with
  | itself =>
    simp only [expandEdge, hs, h.contains_eq] at hfe ⊢
    exact hfe
  | userset relation =>
    simp only [expandEdge, hs] at hfe ⊢
    exact expandMember_mono h hp hp' hle _ _ hfe

end AuthSchema.Resolution
