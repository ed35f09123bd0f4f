import AuthSchema.Directive.Parser
import AuthSchema.Proofs.Keyed
import AuthSchema.Proofs.Names

/-! The grammar of directives. What a comment line says is told by how its text is made up, from
the blanks and comment marks around it to the names in its value, and the reader finds just what
the grammar gives: nothing where the directive mark is missing, and a directive or an error behind
it. -/
namespace AuthSchema.Directive

open Text

/-- A text has its closing mark taken away, one of them where there are more. -/
inductive Closes : List Char → List Char → Prop
  | closed (s : List Char) : Closes (s ++ "*/".toList) s
  | unclosed {s : List Char} (h : ∀ front, s ≠ front ++ "*/".toList) : Closes s s

/-- A text has all the slashes and asterisks taken away that it begins with. -/
inductive Opens : List Char → List Char → Prop
  | opened {marks rest : List Char} (h : ∀ c ∈ marks, c = '/' ∨ c = '*')
    (hrest : ∀ c ∈ rest.head?, ¬ (c = '/' ∨ c = '*')) : Opens (marks ++ rest) rest

/-- What a comment line has behind the directive mark, which stands first in it when the comment
marks and the blanks around them are taken away. -/
inductive HasBody : List Char → List Char → Prop
  | marked {line text unclosed unopened body : List Char} (rest : List Char)
    (outer : Trims line text) (hclose : Closes text unclosed) (hopen : Opens unclosed unopened)
    (inner : Trims unopened ("spicegen:".toList ++ rest)) (h : Trims rest body) :
    HasBody line body

/-- A subject is written as a type, a type with the mark of the object itself or a type with a
relation. -/
inductive SpellsSubject : List Char → String → SubjectRelation → Prop
  | type {t : List Char} (h : TypeName t) : SpellsSubject t (String.ofList t) .itself
  | itself {t : List Char} (h : TypeName t) :
    SpellsSubject (t ++ "#...".toList) (String.ofList t) .itself
  | userset {t n : List Char} (h : TypeName t) (hn : Identifier n) :
    SpellsSubject (t ++ '#' :: n) (String.ofList t) (.userset (String.ofList n))

/-- The directive that a body is. Blanks around a value do not count. -/
inductive Says : List Char → Directive → Prop
  | subject {value core : List Char} {type : String} {s : SubjectRelation} (hline : '\n' ∉ value)
    (hcore : Trims value core) (h : SpellsSubject core type s) :
    Says ("subject_type".toList ++ '=' :: value) (.subject type s)
  | rename {value name : List Char} (hline : '\n' ∉ value) (hcore : Trims value name)
    (h : Identifier name) : Says ("rename".toList ++ '=' :: value) (.rename (String.ofList name))
  | bare {tag : List Char} (h : Identifier tag) (hsubject : tag ≠ "subject_type".toList)
    (hrename : tag ≠ "rename".toList) : Says tag (.unrecognized (String.ofList tag) none)
  | valued {tag value core : List Char} (h : Identifier tag)
    (hsubject : tag ≠ "subject_type".toList) (hrename : tag ≠ "rename".toList)
    (hline : '\n' ∉ value) (hcore : Trims value core) :
    Says (tag ++ '=' :: value) (.unrecognized (String.ofList tag) (some (String.ofList core)))

section Body

theorem withoutEnding_eq_iff {s rest : List Char} :
    withoutEnding ['*', '/'] s = rest ↔ Closes s rest := by
  by_cases h : ['*', '/'] <:+ s
  · obtain ⟨front, rfl⟩ := h
    have htake : withoutEnding ['*', '/'] (front ++ ['*', '/']) = front := by
      rw [withoutEnding, if_pos (List.isSuffixOf_iff_suffix.mpr (List.suffix_append ..))]
      simp
    rw [htake]
    constructor
    · rintro rfl
      exact .closed front
    · intro hcloses
      generalize hs : front ++ ['*', '/'] = s at hcloses
      cases hcloses with
      | closed s => exact List.append_cancel_right hs
      | unclosed hno => exact absurd hs.symm (hno front)
  · rw [withoutEnding, if_neg (by rwa [List.isSuffixOf_iff_suffix])]
    constructor
    · rintro rfl
      exact .unclosed fun front hs => h ⟨front, hs.symm⟩
    · rintro (_ | _)
      · exact absurd (List.suffix_append _ _) h
      · rfl

private theorem closes_withoutEnding (s : List Char) : Closes s (withoutEnding ['*', '/'] s) :=
  withoutEnding_eq_iff.mp rfl

private theorem dropWhile_eq_iff_opens {s rest : List Char} :
    (s.dropWhile fun c => c = '/' || c = '*') = rest ↔ Opens s rest := by
  rw [dropWhile_eq_iff]
  constructor
  · rintro ⟨marks, rfl, hmarks, hrest⟩
    exact .opened (by simpa using hmarks) (by simpa using hrest)
  · rintro ⟨hmarks, hrest⟩
    exact ⟨_, rfl, by simpa using hmarks, by simpa using hrest⟩

private theorem opens_dropWhile (s : List Char) :
    Opens s (s.dropWhile fun c => c = '/' || c = '*') :=
  dropWhile_eq_iff_opens.mp rfl

theorem body?_eq_some_iff {line body : List Char} :
    body? line = some body ↔ HasBody line body := by
  rw [body?]
  constructor
  · intro h
    split at h
    · next hmark =>
      obtain ⟨rest, hrest⟩ := List.isPrefixOf_iff_prefix.mp hmark
      rw [← hrest, List.drop_left, Option.some_inj] at h
      exact .marked rest (trims_trim line) (closes_withoutEnding _) (opens_dropWhile _)
        (trim_eq_iff.mp hrest.symm) (trim_eq_iff.mp h)
    · cases h
  · rintro ⟨rest, outer, hclose, hopen, inner, h⟩
    have huncomment : uncomment line = mark ++ rest := by
      rw [uncomment, trim_eq_iff.mpr outer, withoutEnding_eq_iff.mpr hclose,
        dropWhile_eq_iff_opens.mpr hopen, trim_eq_iff.mpr inner]
      rfl
    rw [huncomment, if_pos (List.isPrefixOf_iff_prefix.mpr (List.prefix_append mark rest)),
      List.drop_left, trim_eq_iff.mpr h]

theorem HasBody.unique {line body body' : List Char} (h : HasBody line body)
    (h' : HasBody line body') : body = body' :=
  Option.some.inj ((body?_eq_some_iff.mpr h).symm.trans (body?_eq_some_iff.mpr h'))

theorem body?_eq_none_iff {line : List Char} : body? line = none ↔ ∀ body, ¬ HasBody line body := by
  simp only [← body?_eq_some_iff]
  cases body? line <;> simp

end Body

section Value

/-- A body is a tag without blank and equals sign, alone or with a value on the same line. -/
inductive Cuts : List Char → List Char → Option (List Char) → Prop
  | alone {tag : List Char} (h : ∀ c ∈ tag, c ≠ '=' ∧ isBlank c = false) : Cuts tag tag none
  | valued {tag core : List Char} (value : List Char) (h : ∀ c ∈ tag, c ≠ '=' ∧ isBlank c = false)
    (hline : '\n' ∉ value) (hcore : Trims value core) :
    Cuts (tag ++ '=' :: value) tag (some core)

theorem cut?_eq_some_iff {body tag : List Char} {value : Option (List Char)} :
    cut? body = some (tag, value) ↔ Cuts body tag value := by
  have htag (h : ∀ c ∈ tag, c ≠ '=' ∧ isBlank c = false) :
      ∀ c ∈ tag, (c ≠ '=' && !isBlank c) = true := by simpa using h
  constructor
  · intro h
    have hsplit := List.takeWhile_append_dropWhile (p := fun c => c ≠ '=' && !isBlank c) (l := body)
    have hfront : ∀ c ∈ body.takeWhile fun c => c ≠ '=' && !isBlank c,
        c ≠ '=' ∧ isBlank c = false := fun c hc => by simpa using List.mem_takeWhile_imp hc
    rw [cut?] at h
    split at h
    · next hrest =>
      rw [hrest, List.append_nil] at hsplit
      cases h
      rw [hsplit] at hfront ⊢
      exact .alone hfront
    · next rest hrest =>
      split at h
      · cases h
      · next hline =>
        cases h
        rw [hrest] at hsplit
        nth_rewrite 1 [← hsplit]
        exact .valued rest hfront (by simpa using hline) (trims_trim rest)
    · cases h
  · rintro (h | ⟨value, h, hline, hcore⟩)
    · have hspan := span_append [] (htag h) (by simp)
      rw [List.append_nil] at hspan
      rw [cut?, hspan.1, hspan.2]
    · have hspan := span_append ('=' :: value) (htag h) (by simp)
      rw [cut?, hspan.1, hspan.2]
      simp [hline, trim_eq_iff.mpr hcore]

theorem isTypePath_or_any_iff {t : List Char} :
    (isTypePath t || decide (t = anyType.toList)) = true ↔ TypeName t := by
  rw [Bool.or_eq_true, isTypePath_iff, decide_eq_true_eq]
  constructor
  · rintro (h | rfl)
    · exact .path h
    · exact .any
  · rintro (_ | h)
    · exact Or.inr rfl
    · exact Or.inl h

theorem ofName_identifier {n : List Char} (h : Identifier n) :
    SubjectRelation.ofName (some (String.ofList n)) = .userset (String.ofList n) := by
  have hmark : String.ofList n ≠ selfMark := by
    intro he
    have hn : n = selfMark.toList := by rw [← he, String.toList_ofList]
    exact h.not_mem (c := '.') rfl (by rw [hn]; decide)
  have hempty : String.ofList n ≠ "" := fun he => h.ne_nil (String.ofList_eq_empty_iff.mp he)
  rw [SubjectRelation.ofName, if_neg (by simp [hempty, hmark])]

theorem subject?_eq_some_iff {value : List Char} {type : String} {s : SubjectRelation} :
    subject? value = some (type, s) ↔ SpellsSubject value type s := by
  constructor
  · intro h
    have hsplit := List.takeWhile_append_dropWhile (p := fun c => decide (c ≠ '#')) (l := value)
    have hmark := head?_dropWhile (p := fun c => decide (c ≠ '#')) (l := value)
    rw [subject?] at h
    split at h
    · next htype =>
      rw [isTypePath_or_any_iff] at htype
      split at h
      · next hrest =>
        rw [hrest, List.append_nil] at hsplit
        cases h
        rw [hsplit] at htype ⊢
        exact .type htype
      · next c relation hrest =>
        rw [hrest] at hsplit hmark
        obtain rfl : c = '#' := by simpa using hmark c rfl
        split at h
        · next hrelation =>
          cases h
          nth_rewrite 1 [← hsplit]
          rw [Bool.or_eq_true, isIdentifier_iff, decide_eq_true_eq] at hrelation
          rcases hrelation with hrelation | rfl
          · rw [ofName_identifier hrelation]
            exact .userset htype hrelation
          · exact .itself htype
        · cases h
    · cases h
  · intro h
    have hname {t : List Char} (h : TypeName t) : ∀ c ∈ t, decide (c ≠ '#') = true := by
      simpa using fun c hc => (h.forall_mem c hc).2
    cases h with
    | type h =>
      have hspan := span_append [] (hname h) (by simp)
      rw [List.append_nil] at hspan
      rw [subject?, hspan.1, hspan.2, if_pos (isTypePath_or_any_iff.mpr h)]
    | itself h =>
      have hspan := span_append "#...".toList (hname h) (by simp)
      rw [subject?, hspan.1, hspan.2, if_pos (isTypePath_or_any_iff.mpr h)]
      rfl
    | @userset t n h hn =>
      have hspan := span_append ('#' :: n) (hname h) (by simp)
      rw [subject?, hspan.1, hspan.2, if_pos (isTypePath_or_any_iff.mpr h)]
      simp [isIdentifier_iff.mpr hn, ofName_identifier hn]

private theorem SpellsSubject.ne_nil {value : List Char} {type : String} {s : SubjectRelation}
    (h : SpellsSubject value type s) : value ≠ [] := by
  cases h with
  | type h =>
    cases h with
    | any => simp
    | path h =>
      obtain ⟨front, name, rfl, hname⟩ := h.exists_last
      exact List.append_ne_nil_of_right_ne_nil front hname.ne_nil
  | itself h => simp
  | userset h hn => simp

theorem needed_eq_ok {tag core : List Char} {value : Option (List Char)} :
    needed tag value = .ok core ↔ value = some core ∧ core ≠ [] := by
  match value with
  | none => simp [needed]
  | some [] => simp +contextual [needed]
  | some (c :: rest) =>
    rw [needed, Except.ok.injEq, Option.some.injEq]
    exact ⟨fun h => ⟨h, h ▸ List.cons_ne_nil c rest⟩, And.left⟩

end Value

/-- The directive that a tag makes of a value. -/
inductive Answers : List Char → Option (List Char) → Directive → Prop
  | subject {core : List Char} {type : String} {s : SubjectRelation}
    (h : SpellsSubject core type s) :
    Answers "subject_type".toList (some core) (.subject type s)
  | rename {name : List Char} (h : Identifier name) :
    Answers "rename".toList (some name) (.rename (String.ofList name))
  | other {tag : List Char} (value : Option (List Char)) (hsubject : tag ≠ "subject_type".toList)
    (hrename : tag ≠ "rename".toList) :
    Answers tag value (.unrecognized (String.ofList tag) (value.map String.ofList))

section Tag
variable {body tag : List Char} {value : Option (List Char)} {d : Directive}

private theorem exists_cuts_of_ofBody (h : ofBody body = .ok d) :
    ∃ tag value, Cuts body tag value ∧ Identifier tag := by
  rw [ofBody] at h
  split at h
  · cases h
  · cases h
  · next tag value _ hcut =>
    split at h
    · cases h
    · next htag =>
      exact ⟨tag, value, cut?_eq_some_iff.mp hcut, isIdentifier_iff.mp (by simpa using htag)⟩

/-- A body that begins with a name is read as its tag demands. -/
theorem ofBody_eq_ok_of_cuts (hcut : Cuts body tag value) (h : Identifier tag) :
    ofBody body = .ok d ↔ Answers tag value d := by
  have htag := isIdentifier_iff.mpr h
  -- a name has a first letter, so the tag is not missing
  obtain ⟨c, rest, rfl⟩ := List.exists_cons_of_ne_nil h.ne_nil
  rw [ofBody, cut?_eq_some_iff.mpr hcut]
  simp only [htag, Bool.not_true, Bool.false_eq_true, if_false]
  clear hcut h htag
  generalize c :: rest = tag
  constructor
  · intro h
    split at h
    · next hsubject =>
      obtain ⟨core, hneeded, hrest⟩ := bind_eq_ok.mp h
      obtain ⟨rfl, -⟩ := needed_eq_ok.mp hneeded
      split at hrest
      · next hread =>
        cases hrest
        rw [hsubject]
        exact .subject (subject?_eq_some_iff.mp hread)
      · cases hrest
    · next hsubject =>
      split at h
      · next hrename =>
        obtain ⟨core, hneeded, hrest⟩ := bind_eq_ok.mp h
        obtain ⟨rfl, -⟩ := needed_eq_ok.mp hneeded
        split at hrest
        · next hname =>
          cases hrest
          rw [hrename]
          exact .rename (isIdentifier_iff.mp hname)
        · cases hrest
      · next hrename =>
        cases h
        exact .other value hsubject hrename
  · intro h
    cases h with
    | subject h =>
      rw [if_pos rfl, needed_eq_ok.mpr ⟨rfl, h.ne_nil⟩]
      exact bind_eq_ok.mpr ⟨_, rfl, by rw [subject?_eq_some_iff.mpr h]; rfl⟩
    | rename h =>
      rw [if_neg (by decide), if_pos rfl, needed_eq_ok.mpr ⟨rfl, h.ne_nil⟩]
      exact bind_eq_ok.mpr ⟨_, rfl, by rw [if_pos (isIdentifier_iff.mpr h)]; rfl⟩
    | other value hsubject hrename =>
      rw [if_neg hsubject, if_neg hrename]
      rfl

end Tag

private theorem cuts_tag {tag : List Char} (h : Identifier tag) :
    ∀ c ∈ tag, c ≠ '=' ∧ isBlank c = false := by
  refine fun c hc => ⟨?_, h.solid c hc⟩
  rintro rfl
  exact h.not_mem rfl hc

private theorem identifier_subjectType : Identifier "subject_type".toList :=
  isIdentifier_iff.mp (by decide +kernel)

private theorem identifier_rename : Identifier "rename".toList :=
  isIdentifier_iff.mp (by decide +kernel)

theorem says_iff {body : List Char} {d : Directive} : Says body d ↔
    ∃ tag value, Cuts body tag value ∧ Identifier tag ∧ Answers tag value d := by
  constructor
  · intro h
    cases h with
    | subject hline hcore h =>
      exact ⟨_, _, .valued _ (cuts_tag identifier_subjectType) hline hcore,
        identifier_subjectType, .subject h⟩
    | rename hline hcore h =>
      exact ⟨_, _, .valued _ (cuts_tag identifier_rename) hline hcore, identifier_rename, .rename h⟩
    | bare h hs hr => exact ⟨_, _, .alone (cuts_tag h), h, .other none hs hr⟩
    | valued h hs hr hline hcore =>
      exact ⟨_, _, .valued _ (cuts_tag h) hline hcore, h, .other (some _) hs hr⟩
  · rintro ⟨tag, value, hcut, htag, hanswers⟩
    cases hanswers with
    | subject h =>
      cases hcut with
      | valued value _ hline hcore => exact .subject hline hcore h
    | rename h =>
      cases hcut with
      | valued value _ hline hcore => exact .rename hline hcore h
    | other value hs hr =>
      cases hcut with
      | alone => exact .bare htag hs hr
      | valued value _ hline hcore => exact .valued htag hs hr hline hcore

theorem ofBody_eq_ok_iff {body : List Char} {d : Directive} :
    ofBody body = .ok d ↔ Says body d := by
  rw [says_iff]
  constructor
  · intro h
    obtain ⟨tag, value, hcut, htag⟩ := exists_cuts_of_ofBody h
    exact ⟨tag, value, hcut, htag, (ofBody_eq_ok_of_cuts hcut htag).mp h⟩
  · rintro ⟨tag, value, hcut, htag, h⟩
    exact (ofBody_eq_ok_of_cuts hcut htag).mpr h

/-- A subject directive or one that renames, as it is written out. -/
inductive Renders : List Char → Directive → Prop
  | subject {value : List Char} {type : String} {s : SubjectRelation}
    (h : SpellsSubject value type s) :
    Renders ("spicegen:".toList ++ ("subject_type".toList ++ '=' :: value)) (.subject type s)
  | rename {name : List Char} (h : Identifier name) :
    Renders ("spicegen:".toList ++ ("rename".toList ++ '=' :: name)) (.rename (String.ofList name))

/-- A text stands in a comment line, behind one run of comment marks. -/
inductive Decorates : List Char → List Char → Prop
  | unclosed {before marks between after : List Char} (text : List Char) (hbefore : Blanks before)
    (hmarks : ∀ c ∈ marks, c = '/' ∨ c = '*') (hbetween : Blanks between) (hafter : Blanks after) :
    Decorates text (before ++ marks ++ between ++ text ++ after)
  | closed {before marks between after last : List Char} (text : List Char)
    (hbefore : Blanks before) (hmarks : ∀ c ∈ marks, c = '/' ∨ c = '*') (hbetween : Blanks between)
    (hafter : Blanks after) (hlast : Blanks last) :
    Decorates text (before ++ marks ++ between ++ (text ++ after ++ "*/".toList) ++ last)

section Rendering

private theorem SpellsSubject.forall_mem {value : List Char} {type : String} {s : SubjectRelation}
    (h : SpellsSubject value type s) : ∀ c ∈ value, isBlank c = false := by
  cases h with
  | type h => exact fun c hc => (h.forall_mem c hc).1
  | itself h =>
    exact List.forall_mem_append.mpr ⟨fun c hc => (h.forall_mem c hc).1,
      solid_of_any (by decide +kernel)⟩
  | userset h hn =>
    exact List.forall_mem_append.mpr ⟨fun c hc => (h.forall_mem c hc).1,
      List.forall_mem_cons.mpr ⟨rfl, hn.solid⟩⟩

private theorem SpellsSubject.last_ne_slash {value : List Char} {type : String}
    {s : SubjectRelation} (h : SpellsSubject value type s) (front : List Char) :
    ∀ c ∈ (front ++ value).getLast?, c ≠ '/' := by
  cases h with
  | type h => exact h.last_ne_slash front
  | itself h => simp
  | @userset t n h hn =>
    have := hn.last_ne_slash (front ++ t ++ ['#'])
    simpa using this

/-- Written out, a directive has no blanks in it and does not end like a closing mark. -/
theorem Renders.exists_body {text : List Char} {d : Directive} (h : Renders text d) :
    (∃ body, text = "spicegen:".toList ++ body ∧ Says body d) ∧ (∀ c ∈ text, isBlank c = false) ∧
      ∀ front, ∀ c ∈ (front ++ text).getLast?, c ≠ '/' := by
  have hsolid {tag value : List Char} (htag : ∀ c ∈ tag, isBlank c = false)
      (hvalue : ∀ c ∈ value, isBlank c = false) :
      ∀ c ∈ "spicegen:".toList ++ (tag ++ '=' :: value), isBlank c = false :=
    List.forall_mem_append.mpr ⟨solid_of_any (by decide +kernel),
      List.forall_mem_append.mpr ⟨htag, List.forall_mem_cons.mpr ⟨rfl, hvalue⟩⟩⟩
  have hlast {tag value : List Char} (h : ∀ front, ∀ c ∈ (front ++ value).getLast?, c ≠ '/')
      (front : List Char) :
      ∀ c ∈ (front ++ ("spicegen:".toList ++ (tag ++ '=' :: value))).getLast?, c ≠ '/' := by
    have hvalue := h (front ++ "spicegen:".toList ++ tag ++ ['='])
    simpa only [List.append_assoc, List.singleton_append] using hvalue
  cases h with
  | subject h =>
    have hline : '\n' ∉ _ := fun hmem => Bool.false_ne_true (h.forall_mem _ hmem).symm
    exact ⟨⟨_, rfl, .subject hline (trims_self h.forall_mem) h⟩,
      hsolid identifier_subjectType.solid h.forall_mem, hlast h.last_ne_slash⟩
  | rename h =>
    exact ⟨⟨_, rfl, .rename (h.not_mem rfl) (trims_self h.solid) h⟩,
      hsolid identifier_rename.solid h.solid, hlast h.last_ne_slash⟩

variable {before marks between tail text after line body : List Char}

/-- Blanks around what a line holds go away, and those behind the comment marks with them where
there are no marks. -/
theorem exists_trims (hbefore : Blanks before) (hmarks : ∀ c ∈ marks, c = '/' ∨ c = '*')
    (hbetween : Blanks between) (hafter : Blanks after)
    (hfirst : ∀ c ∈ tail.head?, isBlank c = false)
    (hlast : ∀ front, ∀ c ∈ (front ++ tail).getLast?, isBlank c = false) :
    ∃ gap, Blanks gap ∧
      Trims (before ++ marks ++ between ++ tail ++ after) (marks ++ gap ++ tail) := by
  cases marks with
  | nil =>
    -- nothing keeps the two runs of blanks apart
    have hblanks := blanks_append.mpr ⟨hbefore, hbetween⟩
    exact ⟨[], nofun, ⟨before ++ between, after, by simp, hblanks, hafter⟩, hfirst, hlast []⟩
  | cons m rest =>
    refine ⟨between, hbetween, ⟨before, after, by simp, hbefore, hafter⟩, ?_, hlast _⟩
    rintro c ⟨rfl⟩
    rcases hmarks m (List.mem_cons_self ..) with rfl | rfl <;> rfl

private theorem hasBody_of_closes {trimmed unclosed : List Char} (outer : Trims line trimmed)
    (hclose : Closes trimmed unclosed) (hunclosed : unclosed = marks ++ (between ++ text ++ after))
    (hmarks : ∀ c ∈ marks, c = '/' ∨ c = '*') (hbetween : Blanks between) (hafter : Blanks after)
    (htext : text = "spicegen:".toList ++ body) (hsolid : ∀ c ∈ text, isBlank c = false) :
    HasBody line body := by
  have hhead : ∀ c ∈ (between ++ text ++ after).head?, ¬ (c = '/' ∨ c = '*') := by
    cases between with
    | nil => simp [htext]
    | cons b rest =>
      have hb := hbetween b (List.mem_cons_self ..)
      rintro c ⟨rfl⟩ (rfl | rfl) <;> cases hb
  have inner : Trims (between ++ text ++ after) ("spicegen:".toList ++ body) :=
    htext ▸ trims_of_forall hsolid hbetween hafter
  have hbody : ∀ c ∈ body, isBlank c = false :=
    (List.forall_mem_append.mp (htext ▸ hsolid)).2
  exact .marked body outer hclose (hunclosed ▸ .opened hmarks hhead) inner (trims_self hbody)

private theorem hasBody_of_decorates (htext : text = "spicegen:".toList ++ body)
    (hsolid : ∀ c ∈ text, isBlank c = false)
    (hlast : ∀ front, ∀ c ∈ (front ++ text).getLast?, c ≠ '/') (h : Decorates text line) :
    HasBody line body := by
  have hne : text ≠ [] := by simp [htext]
  have hfirst : ∀ rest, ∀ c ∈ (text ++ rest).head?, isBlank c = false := by
    intro rest c hc
    rw [htext] at hc
    obtain rfl : 's' = c := by simpa using hc
    rfl
  cases h with
  | unclosed text hbefore hmarks hbetween hafter =>
    have hend : ∀ front, ∀ c ∈ (front ++ text).getLast?, isBlank c = false :=
      fun front c hc => hsolid c (mem_of_getLast?_append hne hc)
    obtain ⟨gap, hgap, outer⟩ :=
      exists_trims hbefore hmarks hbetween hafter (List.append_nil text ▸ hfirst []) hend
    -- a slash would have to be the end of the text itself
    refine hasBody_of_closes outer (.unclosed fun front hfront => ?_) (by simp) hmarks hgap
      (List.forall_mem_nil _) htext hsolid
    exact hlast _ '/' (by rw [hfront]; simp) rfl
  | @closed before marks between after last text hbefore hmarks hbetween hafter hblanks =>
    have hend : ∀ front, ∀ c ∈ (front ++ (text ++ after ++ "*/".toList)).getLast?,
        isBlank c = false := by
      intro front c hc
      rw [← List.append_assoc, List.getLast?_append] at hc
      obtain rfl : '/' = c := by simpa using hc
      rfl
    have hhead : ∀ c ∈ (text ++ after ++ "*/".toList).head?, isBlank c = false := by
      rw [List.append_assoc]
      exact hfirst _
    obtain ⟨gap, hgap, outer⟩ := exists_trims hbefore hmarks hbetween hblanks hhead hend
    rw [← List.append_assoc (marks ++ gap)] at outer
    exact hasBody_of_closes outer (.closed _) (by simp) hmarks hgap hafter htext hsolid

end Rendering

theorem ofLine_eq_ok_some {line : List Char} {d : Directive} :
    ofLine line = .ok (some d) ↔ ∃ body, HasBody line body ∧ Says body d := by
  rw [ofLine]
  cases hbody : body? line with
  | none => simp [body?_eq_none_iff.mp hbody]
  | some body =>
    constructor
    · intro h
      cases hread : ofBody body with
      | error e => simp [hread, Except.map] at h
      | ok d' =>
        obtain rfl : d' = d := by simpa [hread, Except.map] using h
        exact ⟨body, body?_eq_some_iff.mp hbody, ofBody_eq_ok_iff.mp hread⟩
    · rintro ⟨body', hhas, hsays⟩
      obtain rfl : body = body' := (body?_eq_some_iff.mp hbody).unique hhas
      simp only [ofBody_eq_ok_iff.mpr hsays]
      rfl

private theorem ofLine_eq_ok_none {line : List Char} :
    ofLine line = .ok none ↔ ∀ body, ¬ HasBody line body := by
  rw [ofLine, ← body?_eq_none_iff]
  cases hbody : body? line with
  | none => simp
  | some body => cases hread : ofBody body <;> simp [hread, Except.map]

theorem ofLine_eq_error {line : List Char} :
    (∃ e, ofLine line = .error e) ↔ ∃ body, HasBody line body ∧ ∀ d, ¬ Says body d := by
  constructor
  · rintro ⟨e, he⟩
    cases hbody : body? line with
    | none =>
      have hnone := ofLine_eq_ok_none.mpr (body?_eq_none_iff.mp hbody)
      rw [he] at hnone
      cases hnone
    | some body =>
      refine ⟨body, body?_eq_some_iff.mp hbody, fun d hsays => ?_⟩
      have hsome := ofLine_eq_ok_some.mpr ⟨body, body?_eq_some_iff.mp hbody, hsays⟩
      rw [he] at hsome
      cases hsome
  · rintro ⟨body, hbody, hno⟩
    match h : ofLine line with
    | .error e => exact ⟨e, rfl⟩
    | .ok none => exact absurd hbody (ofLine_eq_ok_none.mp h body)
    | .ok (some d) =>
      obtain ⟨body', hbody', hsays⟩ := ofLine_eq_ok_some.mp h
      exact absurd (hbody.unique hbody' ▸ hsays) (hno d)

/-- The reader accepts just the grammar, and it reads what is written out, wherever it stands in a
comment line. -/
theorem ofLine_grammar (line : List Char) :
    (ofLine line = .ok none ↔ ∀ body, ¬ HasBody line body) ∧
    (∀ d, ofLine line = .ok (some d) ↔ ∃ body, HasBody line body ∧ Says body d) ∧
    ((∃ e, ofLine line = .error e) ↔ ∃ body, HasBody line body ∧ ∀ d, ¬ Says body d) ∧
    ∀ text d, Renders text d → Decorates text line → ofLine line = .ok (some d) := by
  refine ⟨ofLine_eq_ok_none, fun d => ofLine_eq_ok_some, ofLine_eq_error, ?_⟩
  intro text d hrenders hdecorates
  obtain ⟨⟨body, htext, hsays⟩, hsolid, hlast⟩ := hrenders.exists_body
  exact ofLine_eq_ok_some.mpr ⟨body, hasBody_of_decorates htext hsolid hlast hdecorates, hsays⟩

/-- A subject with a relation, in a comment of one line. -/
def teamMembers : List Char := "spicegen:".toList ++
  ("subject_type".toList ++ '=' :: ("org/team".toList ++ '#' :: "member".toList))

def teamMembersLine : List Char :=
  [' '] ++ "/**".toList ++ [' '] ++ (teamMembers ++ [' '] ++ "*/".toList) ++ []

theorem ofLine_grammar_teamMembers :
    Renders teamMembers (.subject "org/team" (.userset "member")) ∧
      Decorates teamMembers teamMembersLine ∧
      ofLine teamMembersLine = .ok (some (.subject "org/team" (.userset "member"))) := by
  have hsubject := SpellsSubject.userset (TypeName.path (isTypePath_iff.mp
    (show isTypePath "org/team".toList = true by decide)))
    (isIdentifier_iff.mp (show isIdentifier "member".toList = true by decide))
  rw [String.ofList_toList, String.ofList_toList] at hsubject
  have hrenders : Renders teamMembers _ := .subject hsubject
  have hspace : Blanks [' '] := List.forall_mem_singleton.mpr rfl
  have hdecorates : Decorates teamMembers teamMembersLine :=
    .closed teamMembers hspace (by simp) hspace hspace (List.forall_mem_nil _)
  exact ⟨hrenders, hdecorates, (ofLine_grammar teamMembersLine).2.2.2 _ _ hrenders hdecorates⟩

end AuthSchema.Directive
