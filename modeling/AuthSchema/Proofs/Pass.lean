import AuthSchema.Proofs.Advance
import Mathlib.Data.Finset.Prod
import Mathlib.Data.Finset.Card

/-! Passes over the open permissions. Each pass that changes the table makes some permission allow
one more of finitely many types, so before long a pass changes nothing and the table is settled. -/
namespace AuthSchema.Resolution
variable {limit : Option Nat}

theorem mem_openPermissions_advance {progress : Progress} {p : MemberId × List Edge}
    {ps : List (MemberId × List Edge)} (h : ∀ q ∈ p :: ps, q ∈ openPermissions progress.table) :
    ∀ q ∈ ps, q ∈ openPermissions (advance limit progress p).table := by
  intro q hq
  have hv : Variant progress.table (advance limit progress p).table :=
    variant_extend (h p List.mem_cons_self)
  rw [hv.openPermissions_eq]
  exact h q (List.mem_cons_of_mem _ hq)

private theorem foldl_advance_run {ps : List (MemberId × List Edge)} (progress : Progress)
    (h : ∀ p ∈ ps, p ∈ openPermissions progress.table) :
    Run limit progress.table (ps.foldl (advance limit) progress).table := by
  induction ps generalizing progress with
  | nil => exact .refl
  | cons p ps ih =>
    have hstep : Extends limit progress.table (advance limit progress p).table :=
      ⟨p, h p List.mem_cons_self, rfl⟩
    exact (ih _ (mem_openPermissions_advance h)).head hstep

private theorem foldl_advance_unchanged {ps : List (MemberId × List Edge)} (progress : Progress)
    (h : ∀ p ∈ ps, p ∈ openPermissions progress.table) (hp : PlainOpen progress.table)
    (hno : (ps.foldl (advance limit) progress).changed = false) :
    progress.changed = false ∧ (ps.foldl (advance limit) progress).table = progress.table ∧
      ∀ p ∈ ps, ∀ type, .subject type ∈ expand progress.table limit p.1 p.2 →
        Allows progress.table p.1 type := by
  induction ps generalizing progress with
  | nil => exact ⟨hno, rfl, fun _ hp => absurd hp List.not_mem_nil⟩
  | cons p ps ih =>
    have hmem := h p List.mem_cons_self
    obtain ⟨hadvance, htable, hrest⟩ :=
      ih _ (mem_openPermissions_advance h) (plainOpen_extend hp hmem) hno
    have hnot := mt (advance_changed progress p).mpr (Bool.eq_false_iff.mp hadvance)
    have hall : ∀ type, .subject type ∈ expand progress.table limit p.1 p.2 →
        Allows progress.table p.1 type := fun type hf => by
      by_contra hne
      exact hnot (Or.inr ⟨type, hf, hne⟩)
    have hsame : (advance limit progress p).table = progress.table := extend_eq_self hp hmem hall
    rw [hsame] at htable hrest
    refine ⟨Bool.eq_false_iff.mpr fun hc => hnot (Or.inl hc), htable, ?_⟩
    intro q hq
    rcases List.mem_cons.mp hq with rfl | hq
    · exact hall
    · exact hrest q hq

private theorem foldl_advance_changed {ps : List (MemberId × List Edge)} (progress : Progress)
    (h : ∀ p ∈ ps, p ∈ openPermissions progress.table)
    (hyes : (ps.foldl (advance limit) progress).changed = true) :
    progress.changed = true ∨ ∃ m type, IsOpen progress.table m ∧ ¬ Allows progress.table m type ∧
      Allows (ps.foldl (advance limit) progress).table m type := by
  induction ps generalizing progress with
  | nil => exact Or.inl hyes
  | cons p ps ih =>
    have hmem := h p List.mem_cons_self
    have hlater : ∀ q ∈ ps, q ∈ openPermissions (advance limit progress p).table :=
      mem_openPermissions_advance h
    rcases ih _ hlater hyes with hadvance | ⟨m, type, ho, hno, ha⟩
    · rcases (advance_changed progress p).mp hadvance with hc | ⟨type, hf, hne⟩
      · exact Or.inl hc
      · have hnow : Allows (advance limit progress p).table p.1 type :=
          (allows_extend hmem).mpr (Or.inr ⟨rfl, hf⟩)
        exact Or.inr ⟨p.1, type, isOpen_of_mem hmem, hne, (foldl_advance_run _ hlater).allows hnow⟩
    · have ho' : IsOpen progress.table m := (variant_extend hmem).isOpen_iff.mp ho
      have hno' : ¬ Allows progress.table m type := fun hbefore =>
        hno ((allows_extend hmem).mpr (Or.inl hbefore))
      exact Or.inr ⟨m, type, ho', hno', ha⟩

theorem references_of_isOpen {t : Table} {m : MemberId} (h : IsOpen t m) :
    ∃ refs, references t m = .ok refs := by
  obtain ⟨p, hp, -⟩ := h
  obtain ⟨r, hr, hget⟩ := permission?_iff.mp hp
  rw [references, find, hr]
  simp only [Resource.member?, hget]
  cases r.relations.get? m.member with
  | none => exact ⟨_, rfl⟩
  | some rel => exact ⟨_, rfl⟩

/-- The diagnostics of the open permissions of a table. -/
def permissionDiagnostics (limit : Option Nat) (t : Table) : List Diagnostic :=
  (openPermissions t).flatMap fun p =>
    (expand t limit p.1 p.2).filterMap (Finding.diagnostic? p.1)

theorem permissionDiagnostics_variant {t t' : Table} (h : Variant t t') (hp : PlainOpen t)
    (hp' : PlainOpen t') : permissionDiagnostics limit t' = permissionDiagnostics limit t := by
  rw [permissionDiagnostics, permissionDiagnostics, h.openPermissions_eq]
  exact List.flatMap_congr fun p _ => expand_diagnostics_variant h hp hp' limit p.1 p.2

theorem permissionDiagnostics_eq_nil {t : Table} : permissionDiagnostics limit t = [] ↔
    ∀ p ∈ openPermissions t, ∀ reason trail, .fault reason trail ∉ expand t limit p.1 p.2 := by
  rw [permissionDiagnostics, List.flatMap_eq_nil_iff]
  refine forall₂_congr fun p _ => ?_
  rw [List.filterMap_eq_nil_iff]
  constructor
  · intro h reason trail hf
    cases h _ hf
  · intro h f hf
    cases f with
    | subject type => rfl
    | fault reason trail => exact absurd hf (h reason trail)

/-- Without a limit the diagnostics of a permission are the faults that its edges come upon. -/
theorem mem_permissionDiagnostics {t : Table} {m : MemberId} {reason : Fault} :
    (∃ d ∈ permissionDiagnostics none t, d.member = m ∧ d.fault = reason) ↔
      ∃ edges, (m, edges) ∈ openPermissions t ∧ ∃ e ∈ edges, EdgeGives t m e (.error reason) := by
  constructor
  · rintro ⟨d, hd, rfl, rfl⟩
    obtain ⟨⟨start, edges⟩, hopen, hd⟩ := List.mem_flatMap.mp hd
    obtain ⟨f, hf, hdiagnostic⟩ := List.mem_filterMap.mp hd
    cases f with
    | subject type => cases hdiagnostic
    | fault reason trail =>
      cases hdiagnostic
      obtain ⟨refs, hrefs⟩ := references_of_isOpen (isOpen_of_mem hopen)
      rcases edgeGives_of_mem_expand hrefs hf with hgives | ⟨n, hlimit, -⟩
      · exact ⟨edges, hopen, hgives⟩
      · cases hlimit
  · rintro ⟨edges, hopen, e, he, hgives⟩
    obtain ⟨f, hf, houtcome⟩ := mem_expand_of_edgeGives he hgives
    cases f with
    | subject type => cases houtcome
    | fault reason trail =>
      cases houtcome
      refine ⟨⟨m, reason, trail⟩, List.mem_flatMap.mpr ⟨_, hopen, ?_⟩, rfl, rfl⟩
      exact List.mem_filterMap.mpr ⟨_, hf, rfl⟩

private theorem foldl_advance_diagnostics {ps : List (MemberId × List Edge)} (progress : Progress)
    (h : ∀ p ∈ ps, p ∈ openPermissions progress.table) (hp : PlainOpen progress.table) :
    (ps.foldl (advance limit) progress).diagnostics = progress.diagnostics ++
      ps.flatMap fun p =>
        (expand progress.table limit p.1 p.2).filterMap (Finding.diagnostic? p.1) := by
  induction ps generalizing progress with
  | nil => simp
  | cons p ps ih =>
    have hmem := h p List.mem_cons_self
    have hv : Variant progress.table (advance limit progress p).table := variant_extend hmem
    have hp' : PlainOpen (advance limit progress p).table := plainOpen_extend hp hmem
    have hrest : (ps.flatMap fun q =>
        (expand (advance limit progress p).table limit q.1 q.2).filterMap
          (Finding.diagnostic? q.1)) = ps.flatMap fun q =>
        (expand progress.table limit q.1 q.2).filterMap (Finding.diagnostic? q.1) :=
      List.flatMap_congr fun q _ => expand_diagnostics_variant hv hp hp' limit q.1 q.2
    rw [List.foldl_cons, ih _ (mem_openPermissions_advance h) hp', hrest, List.flatMap_cons,
      ← List.append_assoc]
    rfl

theorem pass_run (t : Table) : Run limit t (pass limit (openPermissions t) t).table :=
  foldl_advance_run { table := t } fun _ hp => hp

/-- A pass that changes nothing has found nothing missing. -/
theorem pass_unchanged {t : Table} (hp : PlainOpen t)
    (h : (pass limit (openPermissions t) t).changed = false) :
    (pass limit (openPermissions t) t).table = t ∧ Settled limit t :=
  (foldl_advance_unchanged { table := t } (fun _ hp => hp) hp h).2

private theorem pass_changed {t : Table} (h : (pass limit (openPermissions t) t).changed = true) :
    ∃ m type, IsOpen t m ∧ ¬ Allows t m type ∧
      Allows (pass limit (openPermissions t) t).table m type :=
  (foldl_advance_changed { table := t } (fun _ hp => hp) h).resolve_left (by simp)

theorem pass_diagnostics {t : Table} (hp : PlainOpen t) :
    (pass limit (openPermissions t) t).diagnostics = permissionDiagnostics limit t :=
  foldl_advance_diagnostics { table := t } (fun _ hp => hp) hp

/-- Passes made one after the other until one changes nothing, with their number. -/
inductive Settles (limit : Option Nat) (permissions : List (MemberId × List Edge)) :
    Nat → Table → Table → Prop
  | last {t} (h : (pass limit permissions t).changed = false) :
      Settles limit permissions 1 t (pass limit permissions t).table
  | again {n t t'} (h : (pass limit permissions t).changed = true)
      (hrest : Settles limit permissions n (pass limit permissions t).table t') :
      Settles limit permissions (n + 1) t t'

theorem pass_openPermissions (t : Table) :
    openPermissions (pass limit (openPermissions t) t).table = openPermissions t :=
  (pass_run t).variant.openPermissions_eq

theorem Settles.run_settled {permissions : List (MemberId × List Edge)} {n : Nat} {t t' : Table}
    (h : Settles limit permissions n t t') (hps : permissions = openPermissions t)
    (hp : PlainOpen t) : Run limit t t' ∧ Settled limit t' := by
  induction h with
  | @last t h =>
    subst hps
    obtain ⟨htable, hsettled⟩ := pass_unchanged hp h
    rw [htable]
    exact ⟨.refl, hsettled⟩
  | @again n t t' h _ ih =>
    subst hps
    have hrun : Run limit t (pass limit (openPermissions t) t).table := pass_run t
    obtain ⟨hrest, hsettled⟩ := ih (pass_openPermissions t).symm (hrun.plainOpen hp)
    exact ⟨hrun.trans hrest, hsettled⟩

/-- All subject types that the references of a table can lead to are in a list. -/
structure Covers (types : List String) (t : Table) : Prop where
  edges : ∀ p ∈ openPermissions t, ∀ e ∈ p.2, e.type ∈ types
  refs : ∀ m refs, references t m = .ok refs → ∀ ref ∈ refs, ref.1 ∈ types
  subjects : ∀ m, IsOpen t m → ∀ type, Allows t m type → type ∈ types

namespace Covers

private theorem mem_of_expand {types : List String} {t : Table} (h : Covers types t)
    {p : MemberId × List Edge} (hp : p ∈ openPermissions t) {type : String}
    (hf : .subject type ∈ expand t limit p.1 p.2) : type ∈ types := by
  obtain ⟨refs, hstart⟩ := references_of_isOpen (isOpen_of_mem hp)
  rcases edgeGives_of_mem_expand hstart hf with ⟨e, he, hgives⟩ | ⟨n, -, hdeep⟩
  · generalize ho : Finding.outcome (.subject type) = o at hgives
    cases hgives with
    | object =>
      cases ho
      exact h.edges p hp e he
    | noType => cases ho
    | walk _ _ _ hg =>
      cases hg with
      | subject hrefs hmem =>
        cases ho
        exact h.refs _ _ hrefs _ hmem
      | missing => cases ho
  · cases hdeep

private theorem extend {types : List String} {t : Table} (h : Covers types t) (hplain : PlainOpen t)
    {p : MemberId × List Edge} (hp : p ∈ openPermissions t) :
    Covers types (extend limit t p) := by
  have hv : Variant t (Resolution.extend limit t p) := variant_extend hp
  have hsubjects : ∀ m, IsOpen t m → ∀ type, Allows (Resolution.extend limit t p) m type →
      type ∈ types := by
    intro m hm type ha
    rcases (allows_extend hp).mp ha with ha | ⟨-, hf⟩
    · exact h.subjects m hm type ha
    · exact h.mem_of_expand hp hf
  refine ⟨?_, ?_, fun m hm => hsubjects m (hv.isOpen_iff.mp hm)⟩
  · rw [hv.openPermissions_eq]
    exact h.edges
  · intro m refs hrefs ref href
    rcases hv.references_eq m with heq | ⟨ho, -, hrefs'⟩
    · exact h.refs m refs (heq ▸ hrefs) ref href
    · rw [hrefs'] at hrefs
      cases hrefs
      have hplain' : (subjectsAt (Resolution.extend limit t p) m).Plain :=
        plainOpen_extend hplain hp m (hv.isOpen_iff.mpr ho)
      exact hsubjects m ho ref.1 (hplain'.mem_keys_iff.mp (List.mem_map.mpr ⟨ref, href, rfl⟩))

theorem run {types : List String} {t t' : Table} (h : Covers types t) (hplain : PlainOpen t)
    (hrun : Run limit t t') : Covers types t' := by
  induction hrun with
  | refl => exact h
  | tail hrun hstep ih =>
    obtain ⟨p, hp, rfl⟩ := hstep
    exact ih.extend (Run.plainOpen hrun hplain) hp

end Covers

instance (t : Table) (m : MemberId) (type : String) : Decidable (Allows t m type) :=
  inferInstanceAs (Decidable ((subjectsAt t m).get? type = some .itself))

/-- What the open permissions of a table allow. -/
def facts (types : List String) (t : Table) : Finset (MemberId × String) :=
  (((openPermissions t).map Prod.fst).toFinset ×ˢ types.toFinset).filter fun a => Allows t a.1 a.2

private theorem mem_facts {types : List String} {t : Table} {m : MemberId} {type : String} :
    (m, type) ∈ facts types t ↔ IsOpen t m ∧ type ∈ types ∧ Allows t m type := by
  rw [facts, Finset.mem_filter, Finset.mem_product, List.mem_toFinset, List.mem_toFinset, and_assoc]
  refine and_congr_left' ?_
  rw [isOpen_iff]
  simp

private theorem card_facts_le (types : List String) (t : Table) :
    (facts types t).card ≤ (openPermissions t).length * types.length := by
  calc (facts types t).card
      ≤ (((openPermissions t).map Prod.fst).toFinset ×ˢ types.toFinset).card :=
        Finset.card_filter_le _ _
    _ = ((openPermissions t).map Prod.fst).toFinset.card * types.toFinset.card :=
        Finset.card_product _ _
    _ ≤ ((openPermissions t).map Prod.fst).length * types.length :=
        Nat.mul_le_mul (List.toFinset_card_le _) (List.toFinset_card_le _)
    _ = (openPermissions t).length * types.length := by rw [List.length_map]

theorem card_facts_pass_lt {types : List String} {t : Table} (hc : Covers types t)
    (hp : PlainOpen t) (h : (pass limit (openPermissions t) t).changed = true) :
    (facts types t).card < (facts types (pass limit (openPermissions t) t).table).card := by
  have hrun : Run limit t (pass limit (openPermissions t) t).table := pass_run t
  obtain ⟨m, type, ho, hno, ha⟩ := pass_changed h
  have ho' := hrun.variant.isOpen_iff.mpr ho
  have htype : type ∈ types := (hc.run hp hrun).subjects m ho' type ha
  refine Finset.card_lt_card (Finset.ssubset_iff_subset_ne.mpr ⟨?_, ?_⟩)
  · rintro ⟨m, type⟩ hfact
    obtain ⟨hopen, hin, hallows⟩ := mem_facts.mp hfact
    exact mem_facts.mpr ⟨hrun.variant.isOpen_iff.mpr hopen, hin, hrun.allows hallows⟩
  · intro heq
    have hfact : (m, type) ∈ facts types t := heq ▸ mem_facts.mpr ⟨ho', htype, ha⟩
    exact hno (mem_facts.mp hfact).2.2

/-- With as many passes as there are facts still to be found, one of them changes nothing. -/
theorem settles_settle {types : List String} {t : Table} (hc : Covers types t) (hp : PlainOpen t)
    (n : Nat) (hn : (openPermissions t).length * types.length < (facts types t).card + n) :
    ∃ k ≤ n, Settles limit (openPermissions t) k t (settle limit (openPermissions t) n t) := by
  induction n generalizing t with
  | zero =>
    have hle := card_facts_le types t
    omega
  | succ n ih =>
    rw [settle]
    cases h : (pass limit (openPermissions t) t).changed with
    | false => exact ⟨1, by omega, .last h⟩
    | true =>
      have hrun : Run limit t (pass limit (openPermissions t) t).table := pass_run t
      have hlt := card_facts_pass_lt hc hp h
      have hops : openPermissions (pass limit (openPermissions t) t).table = openPermissions t :=
        pass_openPermissions t
      obtain ⟨k, hk, hsettles⟩ := ih (hc.run hp hrun) (hrun.plainOpen hp) (by rw [hops]; omega)
      rw [hops] at hsettles
      exact ⟨k + 1, by omega, .again h hsettles⟩

end AuthSchema.Resolution
