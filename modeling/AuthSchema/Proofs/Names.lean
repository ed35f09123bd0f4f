import AuthSchema.Proofs.Cutting
import AuthSchema.Text.Identifier

/-! What names look like. An identifier is ASCII letters, digits and underscores that do not begin
with a digit, the name of a type is such identifiers joined by slashes, or the asterisk, and the
tests on names tell just these. -/
namespace AuthSchema.Text

/-- An ASCII letter or the underscore. -/
inductive Letter : Char → Prop
  | upper {c : Char} (h : 'A' ≤ c ∧ c ≤ 'Z') : Letter c
  | lower {c : Char} (h : 'a' ≤ c ∧ c ≤ 'z') : Letter c
  | underscore : Letter '_'

/-- An ASCII digit. -/
def Digit (c : Char) : Prop := '0' ≤ c ∧ c ≤ '9'

/-- A letter, and then letters and digits. -/
inductive Identifier : List Char → Prop
  | name {c : Char} {rest : List Char} (first : Letter c)
    (others : ∀ x ∈ rest, Letter x ∨ Digit x) : Identifier (c :: rest)

/-- One or more identifiers joined by slashes. -/
inductive TypePath : List Char → Prop
  | type {name : List Char} (h : Identifier name) : TypePath name
  | within {space path : List Char} (h : Identifier space) (hpath : TypePath path) :
    TypePath (space ++ '/' :: path)

/-- What a type may be called; the asterisk stands for all types. -/
inductive TypeName : List Char → Prop
  | any : TypeName ['*']
  | path {name : List Char} (h : TypePath name) : TypeName name

theorem isIdentifierStart_iff {c : Char} : isIdentifierStart c = true ↔ Letter c := by
  have hupper : c.isUpper = true ↔ 'A' ≤ c ∧ c ≤ 'Z' := decide_eq_true_iff
  have hlower : c.isLower = true ↔ 'a' ≤ c ∧ c ≤ 'z' :=
    Bool.and_eq_true_iff.trans (and_congr decide_eq_true_iff decide_eq_true_iff)
  have halpha : c.isAlpha = true ↔ c.isUpper = true ∨ c.isLower = true := Bool.or_eq_true_iff
  rw [isIdentifierStart, Bool.or_eq_true, halpha, hupper, hlower, decide_eq_true_eq]
  constructor
  · rintro ((h | h) | rfl)
    · exact .upper h
    · exact .lower h
    · exact .underscore
  · rintro (h | h | _)
    · exact Or.inl (Or.inl h)
    · exact Or.inl (Or.inr h)
    · exact Or.inr rfl

theorem isIdentifierChar_iff {c : Char} : isIdentifierChar c = true ↔ Letter c ∨ Digit c := by
  have hdigit : c.isDigit = true ↔ Digit c :=
    Bool.and_eq_true_iff.trans (and_congr decide_eq_true_iff decide_eq_true_iff)
  have halphanum : c.isAlphanum = true ↔ c.isAlpha = true ∨ c.isDigit = true := Bool.or_eq_true_iff
  rw [← isIdentifierStart_iff, ← hdigit, isIdentifierChar, isIdentifierStart, Bool.or_eq_true,
    Bool.or_eq_true, halphanum, or_right_comm]

theorem isIdentifier_iff {s : List Char} : isIdentifier s = true ↔ Identifier s := by
  cases s with
  | nil => exact ⟨nofun, nofun⟩
  | cons c rest =>
    rw [isIdentifier, Bool.and_eq_true, isIdentifierStart_iff, List.all_eq_true]
    constructor
    · rintro ⟨hfirst, hrest⟩
      exact .name hfirst fun x hx => isIdentifierChar_iff.mp (hrest x hx)
    · rintro ⟨hfirst, hrest⟩
      exact ⟨hfirst, fun x hx => isIdentifierChar_iff.mpr (hrest x hx)⟩

theorem Identifier.ne_nil {s : List Char} (h : Identifier s) : s ≠ [] := by
  cases h
  simp

private theorem Identifier.forall_mem {s : List Char} (h : Identifier s) :
    ∀ c ∈ s, isIdentifierChar c = true := by
  cases h with
  | name first others =>
    exact List.forall_mem_cons.mpr ⟨isIdentifierChar_iff.mpr (Or.inl first),
      fun x hx => isIdentifierChar_iff.mpr (others x hx)⟩

theorem Identifier.not_mem {s : List Char} (h : Identifier s) {c : Char}
    (hc : isIdentifierChar c = false) : c ∉ s :=
  fun hmem => Bool.false_ne_true (hc.symm.trans (h.forall_mem c hmem))

private theorem isBlank_of_isIdentifierChar {c : Char} (h : isIdentifierChar c = true) :
    isBlank c = false := by
  have hrange : ('0'.toNat ≤ c.toNat ∧ c.toNat ≤ '9'.toNat) ∨
      ('A'.toNat ≤ c.toNat ∧ c.toNat ≤ 'z'.toNat) := by
    rcases isIdentifierChar_iff.mp h with (h | h | _) | h
    · exact Or.inr ⟨h.1, h.2.trans (by decide)⟩
    · exact Or.inr ⟨le_trans (by decide) h.1, h.2⟩
    · exact Or.inr (by decide)
    · exact Or.inl h
  simp only [isBlank, Bool.or_eq_false_iff, Bool.and_eq_false_iff, decide_eq_false_iff_not,
    beq_eq_false_iff_ne]
  simp only [Char.reduceToNat] at hrange
  omega

theorem Identifier.solid {s : List Char} (h : Identifier s) : ∀ c ∈ s, isBlank c = false :=
  fun c hc => isBlank_of_isIdentifierChar (h.forall_mem c hc)

/-- What holds of the characters of identifiers and of the slash holds of all of a path. -/
theorem TypePath.forall_mem {p : Char → Prop} (hname : ∀ c, isIdentifierChar c = true → p c)
    (hslash : p '/') {s : List Char} (h : TypePath s) : ∀ c ∈ s, p c := by
  induction h with
  | type h => exact fun c hc => hname c (h.forall_mem c hc)
  | within h hpath ih =>
    rw [List.forall_mem_append, List.forall_mem_cons]
    exact ⟨fun c hc => hname c (h.forall_mem c hc), hslash, ih⟩

theorem TypePath.exists_last {s : List Char} (h : TypePath s) :
    ∃ front name, s = front ++ name ∧ Identifier name := by
  induction h with
  | type h => exact ⟨[], _, rfl, h⟩
  | @within space path h hpath ih =>
    obtain ⟨front, name, hlast, hname⟩ := ih
    exact ⟨space ++ '/' :: front, name, by rw [hlast, List.append_assoc, List.cons_append], hname⟩

theorem TypeName.forall_mem {s : List Char} (h : TypeName s) :
    ∀ c ∈ s, isBlank c = false ∧ c ≠ '#' := by
  cases h with
  | any => simp [isBlank]
  | path h =>
    refine h.forall_mem (fun c hc => ⟨isBlank_of_isIdentifierChar hc, ?_⟩) (by decide)
    rintro rfl
    cases hc

theorem Identifier.last_ne_slash {name : List Char} (h : Identifier name) (front : List Char) :
    ∀ c ∈ (front ++ name).getLast?, c ≠ '/' := by
  rintro c hc rfl
  exact h.not_mem rfl (mem_of_getLast?_append h.ne_nil hc)

theorem TypeName.last_ne_slash {name : List Char} (h : TypeName name) (front : List Char) :
    ∀ c ∈ (front ++ name).getLast?, c ≠ '/' := by
  cases h with
  | any => simp
  | path h =>
    obtain ⟨spaces, name, rfl, hname⟩ := h.exists_last
    rw [← List.append_assoc]
    exact hname.last_ne_slash (front ++ spaces)

private theorem isTypePath_of_typePath {s : List Char} (h : TypePath s) : isTypePath s = true := by
  induction h with
  | type h =>
    rw [isTypePath, split_of_not_mem (h.not_mem rfl), List.all_cons, isIdentifier_iff.mpr h]
    rfl
  | within h hpath ih =>
    rw [isTypePath] at ih
    rw [isTypePath, split_append, split_of_not_mem (h.not_mem rfl), List.singleton_append,
      List.all_cons, isIdentifier_iff.mpr h, ih]
    rfl

/-- The pieces of a path are identifiers, and so is the last of them, which has no slash. -/
theorem typePath_of_isTypePath (s : List Char) (h : isTypePath s = true) : TypePath s := by
  by_cases hslash : '/' ∈ s
  · obtain ⟨space, path, hs, hspace⟩ := List.eq_append_cons_of_mem hslash
    rw [hs] at h ⊢
    rw [isTypePath, split_append, split_of_not_mem hspace, List.singleton_append, List.all_cons,
      Bool.and_eq_true] at h
    exact .within (isIdentifier_iff.mp h.1) (typePath_of_isTypePath path h.2)
  · rw [isTypePath, split_of_not_mem hslash, List.all_cons, Bool.and_eq_true] at h
    exact .type (isIdentifier_iff.mp h.1)
termination_by s.length
decreasing_by
  rw [hs, List.length_append, List.length_cons]
  omega

theorem isTypePath_iff {s : List Char} : isTypePath s = true ↔ TypePath s :=
  ⟨typePath_of_isTypePath s, isTypePath_of_typePath⟩

end AuthSchema.Text
