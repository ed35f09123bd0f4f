import AuthSchema.Text.Blank
import AuthSchema.Text.Split
import Mathlib.Data.List.TakeWhile

/-! Texts cut into pieces: where a test fails for the first time, where the blanks at the two ends
stop, at a separator, and into lines. What a cut gives is told by how the pieces make up the text,
so that nothing further has to be said of how it is found. -/
namespace AuthSchema.Text

section Span
variable {α : Type u} {p : α → Bool} {l front rest : List α}

private theorem takeWhile_eq_nil (h : ∀ a ∈ rest.head?, p a = false) : rest.takeWhile p = [] := by
  cases rest with
  | nil => rfl
  | cons a tail => rw [List.takeWhile_cons, h a rfl]; rfl

private theorem dropWhile_eq_self (h : ∀ a ∈ rest.head?, p a = false) :
    rest.dropWhile p = rest := by
  cases rest with
  | nil => rfl
  | cons a tail => rw [List.dropWhile_cons, h a rfl]; rfl

/-- Elements pass a test up to the first that does not. -/
theorem span_append (rest : List α) (hfront : ∀ a ∈ front, p a = true)
    (hrest : ∀ a ∈ rest.head?, p a = false) :
    (front ++ rest).takeWhile p = front ∧ (front ++ rest).dropWhile p = rest := by
  rw [List.takeWhile_append_of_pos hfront, List.dropWhile_append_of_pos hfront,
    takeWhile_eq_nil hrest, dropWhile_eq_self hrest, List.append_nil]
  exact ⟨rfl, rfl⟩

theorem head?_dropWhile : ∀ a ∈ (l.dropWhile p).head?, p a = false := by
  induction l with
  | nil => simp
  | cons b tail ih =>
    cases hb : p b with
    | true => simpa [List.dropWhile_cons, hb] using ih
    | false => simp [hb]

theorem dropWhile_eq_iff : l.dropWhile p = rest ↔
    ∃ front, l = front ++ rest ∧ (∀ a ∈ front, p a = true) ∧ ∀ a ∈ rest.head?, p a = false := by
  constructor
  · rintro rfl
    exact ⟨l.takeWhile p, List.takeWhile_append_dropWhile.symm,
      fun a ha => List.mem_takeWhile_imp ha, head?_dropWhile⟩
  · rintro ⟨front, rfl, hfront, hrest⟩
    exact (span_append rest hfront hrest).2

/-- Where an append does not end with its first part, it ends in the second. -/
theorem mem_of_getLast?_append {a : α} (hne : l ≠ []) (h : a ∈ (front ++ l).getLast?) : a ∈ l := by
  rw [List.getLast?_append, List.getLast?_eq_some_getLast hne, Option.some_or] at h
  exact Option.some.inj h ▸ List.getLast_mem hne

end Span

/-- All characters of a text are blank. -/
def Blanks (s : List Char) : Prop := ∀ c ∈ s, isBlank c = true

/-- A text is another one with blanks around it, which neither begins nor ends with a blank. -/
structure Trims (s core : List Char) : Prop where
  around : ∃ before after, s = before ++ core ++ after ∧ Blanks before ∧ Blanks after
  first : ∀ c ∈ core.head?, isBlank c = false
  last : ∀ c ∈ core.getLast?, isBlank c = false

theorem solid_of_any {s : List Char} (h : s.any isBlank = false) : ∀ c ∈ s, isBlank c = false :=
  fun c hc => Bool.eq_false_iff.mpr (List.any_eq_false.mp h c hc)

theorem blanks_append {s s' : List Char} : Blanks (s ++ s') ↔ Blanks s ∧ Blanks s' :=
  List.forall_mem_append

private theorem Blanks.reverse {s : List Char} (h : Blanks s) : Blanks s.reverse :=
  fun c hc => h c (List.mem_reverse.mp hc)

theorem trim_eq_iff {s core : List Char} : trim s = core ↔ Trims s core := by
  rw [trim, List.reverse_eq_iff, dropWhile_eq_iff]
  constructor
  · rintro ⟨after, hreverse, (hafter : Blanks after), hlast⟩
    rw [List.head?_reverse] at hlast
    have hmiddle : s.dropWhile isBlank = core ++ after.reverse := by
      rw [← List.reverse_reverse (s.dropWhile isBlank), hreverse, List.reverse_append,
        List.reverse_reverse]
    obtain ⟨before, hs, hbefore, hfirst⟩ := dropWhile_eq_iff.mp hmiddle
    refine ⟨⟨before, after.reverse, by rw [hs, List.append_assoc], hbefore, hafter.reverse⟩,
      ?_, hlast⟩
    cases core with
    | nil => simp
    | cons c tail => exact hfirst
  · rintro ⟨⟨before, after, rfl, hbefore, hafter⟩, hfirst, hlast⟩
    rw [List.append_assoc, List.dropWhile_append_of_pos hbefore]
    cases core with
    | nil =>
      refine ⟨[], ?_, by simp, by simp⟩
      rw [List.nil_append, List.dropWhile_eq_nil_iff.mpr hafter]
      rfl
    | cons c tail =>
      refine ⟨after.reverse, ?_, hafter.reverse, by rwa [List.head?_reverse]⟩
      have hcore : ∀ x ∈ (c :: tail ++ after).head?, isBlank x = false := hfirst
      rw [dropWhile_eq_self hcore, List.reverse_append]

theorem trims_trim (s : List Char) : Trims s (trim s) := trim_eq_iff.mp rfl

/-- A text without blanks is what trimming leaves of it, whatever blanks stand around it. -/
theorem trims_of_forall {before core after : List Char} (h : ∀ c ∈ core, isBlank c = false)
    (hbefore : Blanks before) (hafter : Blanks after) : Trims (before ++ core ++ after) core where
  around := ⟨before, after, rfl, hbefore, hafter⟩
  first c hc := h c (List.mem_of_head? hc)
  last c hc := h c (List.mem_of_getLast? hc)

theorem trims_self {s : List Char} (h : ∀ c ∈ s, isBlank c = false) : Trims s s := by
  have htrims := @trims_of_forall [] s [] h nofun nofun
  rwa [List.nil_append, List.append_nil] at htrims

theorem trim_append {s after : List Char} (h : Blanks after) : trim (s ++ after) = trim s := by
  obtain ⟨⟨before, rest, hs, hbefore, hrest⟩, hfirst, hlast⟩ := trims_trim s
  refine trim_eq_iff.mpr ⟨⟨before, rest ++ after, ?_, hbefore, blanks_append.mpr ⟨hrest, h⟩⟩,
    hfirst, hlast⟩
  rw [← List.append_assoc, ← hs]

section Split
variable {separator : Char}

private theorem split_ne_nil (s : List Char) : split separator s ≠ [] := by
  cases s with
  | nil => simp [split]
  | cons c rest =>
    rw [split]
    split
    · simp
    · split <;> simp

private theorem split_cons_separator (s : List Char) :
    split separator (separator :: s) = [] :: split separator s := by
  rw [split]
  cases h : split separator s with
  | nil => exact absurd h (split_ne_nil s)
  | cons piece pieces => simp

/-- A character that does not separate goes to the front of the first piece. -/
theorem split_cons {c : Char} (h : c ≠ separator) (s : List Char) : ∃ piece pieces,
    split separator s = piece :: pieces ∧ split separator (c :: s) = (c :: piece) :: pieces := by
  cases hs : split separator s with
  | nil => exact absurd hs (split_ne_nil s)
  | cons piece pieces => exact ⟨piece, pieces, rfl, by rw [split, hs]; simp [h]⟩

/-- A text is cut at each separator. -/
theorem split_append (a b : List Char) :
    split separator (a ++ separator :: b) = split separator a ++ split separator b := by
  induction a with
  | nil => exact split_cons_separator b
  | cons c rest ih =>
    by_cases hc : c = separator
    · subst hc
      rw [List.cons_append, split_cons_separator, split_cons_separator, ih, List.cons_append]
    · obtain ⟨piece, pieces, hrest, hcons⟩ := split_cons hc rest
      obtain ⟨piece', pieces', hrest', hcons'⟩ := split_cons hc (rest ++ separator :: b)
      rw [ih, hrest, List.cons_append] at hrest'
      cases hrest'
      rw [List.cons_append, hcons', hcons, List.cons_append]

theorem split_of_not_mem {s : List Char} (h : separator ∉ s) : split separator s = [s] := by
  induction s with
  | nil => rfl
  | cons c rest ih =>
    rw [List.mem_cons, not_or] at h
    obtain ⟨piece, pieces, hrest, hcons⟩ := split_cons (Ne.symm h.1) rest
    rw [ih h.2] at hrest
    cases hrest
    exact hcons

/-- A character that does not separate goes to the end of the last piece. -/
theorem split_concat {c : Char} (h : c ≠ separator) (s : List Char) : ∃ pieces piece,
    split separator s = pieces ++ [piece] ∧
      split separator (s ++ [c]) = pieces ++ [piece ++ [c]] := by
  induction s with
  | nil => exact ⟨[], [], rfl, split_of_not_mem (by simpa using Ne.symm h)⟩
  | cons x rest ih =>
    obtain ⟨pieces, piece, hrest, hconcat⟩ := ih
    by_cases hx : x = separator
    · subst hx
      exact ⟨[] :: pieces, piece, by rw [split_cons_separator, hrest, List.cons_append],
        by rw [List.cons_append, split_cons_separator, hconcat, List.cons_append]⟩
    · obtain ⟨head, tail, hsplit, hcons⟩ := split_cons hx rest
      obtain ⟨head', tail', hsplit', hcons'⟩ := split_cons hx (rest ++ [c])
      rw [hrest] at hsplit
      rw [hconcat] at hsplit'
      cases pieces with
      | nil =>
        cases hsplit
        cases hsplit'
        exact ⟨[], x :: piece, hcons, hcons'⟩
      | cons first others =>
        cases hsplit
        cases hsplit'
        exact ⟨_ :: others, piece, hcons, hcons'⟩

end Split

private theorem withoutReturn_eq (line : List Char) :
    withoutReturn line = line ∨ line = withoutReturn line ++ ['\r'] := by
  rw [withoutReturn]
  split
  · next rest hreverse =>
    right
    rw [← List.reverse_reverse line, hreverse, List.reverse_cons]
  · exact Or.inl rfl

section Lines
variable {β : Type u} {tell : List Char → Option β}

/-- What tells nothing of an empty line and is blind to a carriage return at the end of a line tells
the same of the lines of a text and of its pieces between newlines. -/
theorem filterMap_lines (hempty : tell [] = none)
    (hreturn : ∀ line, tell (line ++ ['\r']) = tell line) (s : List Char) :
    (lines s).filterMap tell = (split '\n' s).filterMap tell := by
  have hwithout : ∀ line, tell (withoutReturn line) = tell line := by
    intro line
    rcases withoutReturn_eq line with h | h
    · rw [h]
    · calc tell (withoutReturn line) = tell (withoutReturn line ++ ['\r']) := (hreturn _).symm
        _ = tell line := congrArg tell h.symm
  obtain ⟨pieces, piece, hsplit⟩ : ∃ pieces piece, split '\n' s = pieces ++ [piece] :=
    ⟨_, _, (List.dropLast_concat_getLast (split_ne_nil s)).symm⟩
  rw [lines, hsplit]
  simp only [List.dropLast_concat, List.getLast?_concat, List.filterMap_append, List.filterMap_map]
  congr 1
  · exact congrArg (pieces.filterMap ·) (funext hwithout)
  · cases piece with
    | nil => simp [hempty]
    | cons c rest => rfl

end Lines

end AuthSchema.Text
