import AuthSchema.Proofs.Comments
import AuthSchema.Proofs.Cutting
import AuthSchema.Proofs.Semilattice

/-! Comments are read line by line. What they instruct is put together from what their parts
instruct: the overrides merge, and the last name counts. So it makes no difference how lines are
spread over comments and how they end, and lines that say nothing may be left out. -/
namespace AuthSchema

open Text (lines split)

namespace Directive

/-- The directive in a comment line, where there is a good one. -/
def inLine? (line : List Char) : Option Directive :=
  match ofLine line with
  | .ok d => d
  | .error _ => none

/-- The new name that a comment line gives. -/
def renamed? (line : List Char) : Option String :=
  match ofLine line with
  | .ok (some (.rename name)) => some name
  | _ => none

/-- A line that instructs nothing. -/
inductive Silent : List Char → Prop
  | bad {line : List Char} {e : DirectiveError} (h : ofLine line = .error e) : Silent line
  | missing {line : List Char} (h : ofLine line = .ok none) : Silent line
  | unrecognized {line : List Char} {tag : String} {value : Option String}
    (h : ofLine line = .ok (some (.unrecognized tag value))) : Silent line

private theorem ofLine_empty : ofLine [] = .ok none := rfl

/-- A carriage return at the end of a line is a blank like any other. -/
theorem ofLine_return (line : List Char) : ofLine (line ++ ['\r']) = ofLine line := by
  have htrim : Text.trim (line ++ ['\r']) = Text.trim line :=
    Text.trim_append (List.forall_mem_singleton.mpr rfl)
  rw [ofLine, ofLine, body?, body?, uncomment, uncomment, htrim]

private theorem inLine?_return (line : List Char) : inLine? (line ++ ['\r']) = inLine? line := by
  rw [inLine?, inLine?, ofLine_return]

/-- The directives in a text. -/
def inText (s : List Char) : List Directive := (lines s).filterMap inLine?

private theorem inText_eq (s : List Char) : inText s = (split '\n' s).filterMap inLine? := by
  refine Text.filterMap_lines ?_ inLine?_return s
  rw [inLine?, ofLine_empty]

private theorem inText_newline (s t : List Char) :
    inText (s ++ '\n' :: t) = inText s ++ inText t := by
  rw [inText_eq, inText_eq, inText_eq, Text.split_append, List.filterMap_append]

private theorem inText_return (s : List Char) : inText (s ++ ['\r']) = inText s := by
  obtain ⟨pieces, piece, hs, hreturn⟩ := Text.split_concat (show '\r' ≠ '\n' by decide) s
  rw [inText_eq, inText_eq, hs, hreturn, List.filterMap_append, List.filterMap_append,
    List.filterMap_cons, List.filterMap_cons, inLine?_return]

/-- What ends a line. -/
inductive LineEnd : String → Prop
  | newline : LineEnd "\n"
  | returned : LineEnd "\r\n"

private theorem inText_lineEnd {e : String} (h : LineEnd e) (s t : List Char) :
    inText (s ++ e.toList ++ t) = inText s ++ inText t := by
  cases h with
  | newline =>
    rw [List.append_assoc]
    exact inText_newline s t
  | returned =>
    have hsplit : s ++ "\r\n".toList ++ t = s ++ ['\r'] ++ '\n' :: t := by simp
    rw [hsplit, inText_newline, inText_return]

/-- Some lines may end between two texts, empty ones among them. -/
theorem inText_lineEnds {ends : List String} (hends : ∀ e ∈ ends, LineEnd e) (hne : ends ≠ [])
    (s t : List Char) :
    inText (s ++ (String.join ends).toList ++ t) = inText s ++ inText t := by
  induction ends generalizing s with
  | nil => exact absurd rfl hne
  | cons e rest ih =>
    rw [List.forall_mem_cons] at hends
    rw [String.join_cons, String.toList_append, ← List.append_assoc]
    by_cases hrest : rest = []
    · subst hrest
      rw [show (String.join []).toList = [] from rfl, List.append_nil]
      exact inText_lineEnd hends.1 s t
    · have hlast := inText_lineEnd hends.1 s []
      rw [List.append_nil] at hlast
      rw [ih hends.2 hrest, hlast]
      rw [show inText [] = [] from rfl, List.append_nil]

end Directive

open Directive (Silent LineEnd renamed? inLine? inText)

namespace Instructions

/-- All lines of the comments. -/
def allLines (comments : List String) : List (List Char) :=
  comments.flatMap fun c => lines c.toList

private theorem followLine_eq (i : Instructions) (line : List Char) :
    i.followLine line = (inLine? line).elim i i.follow := by
  rw [followLine, inLine?]
  cases Directive.ofLine line with
  | error e => rfl
  | ok d => cases d <;> rfl

/-- The directives in the comments decide what they instruct. -/
theorem ofComments_eq (comments : List String) :
    ofComments comments = (comments.flatMap fun c => inText c.toList).foldl follow {} := by
  have hflat : (comments.flatMap fun c => inText c.toList) =
      (allLines comments).filterMap inLine? := List.filterMap_flatMap.symm
  rw [hflat, List.foldl_filterMap, ofComments, allLines]
  congr
  funext i line
  rw [followLine_eq]
  cases inLine? line <;> rfl

section Rename

private theorem rename_followLine (i : Instructions) (line : List Char) :
    (i.followLine line).rename = (renamed? line).or i.rename := by
  rw [followLine, renamed?]
  cases Directive.ofLine line with
  | error e => rfl
  | ok directive =>
    cases directive with
    | none => rfl
    | some d => cases d <;> rfl

/-- The last new name counts. -/
theorem rename_foldl (l : List (List Char)) (i : Instructions) :
    (l.foldl followLine i).rename = (l.filterMap renamed?).getLast?.or i.rename := by
  induction l generalizing i with
  | nil => rfl
  | cons line rest ih =>
    rw [List.foldl_cons, ih, rename_followLine]
    cases hname : renamed? line with
    | none => rw [List.filterMap_cons_none hname, Option.none_or]
    | some name =>
      rw [List.filterMap_cons_some hname, List.getLast?_cons]
      cases (rest.filterMap renamed?).getLast? <;> rfl

private theorem rename_append (xs ys : List String) :
    (ofComments (xs ++ ys)).rename = (ofComments ys).rename.or (ofComments xs).rename := by
  have hfold (comments : List String) : (ofComments comments).rename =
      ((allLines comments).filterMap renamed?).getLast? := by
    rw [ofComments, rename_foldl, Option.or_none]
    rfl
  rw [hfold, hfold, hfold, allLines, List.flatMap_append, List.filterMap_append,
    List.getLast?_append]
  rfl

end Rename

section Override

private theorem override_append (xs ys : List String) : (ofComments (xs ++ ys)).override =
    Option.merge (fun m m' => (m.merge m').1) (ofComments xs).override
      (ofComments ys).override := by
  rw [override_ofComments, override_ofComments, override_ofComments, subjects_append]
  cases hxs : subjects xs with
  | nil => cases hys : subjects ys <;> rfl
  | cons e l =>
    cases hys : subjects ys with
    | nil => rw [List.append_nil]; rfl
    | cons e' l' => exact congrArg some (SubjectMap.collect_append (e :: l) (e' :: l'))

private theorem override_perm {xs ys : List String} (h : (allLines xs).Perm (allLines ys)) :
    (ofComments xs).override = (ofComments ys).override := by
  have hsubjects : (subjects xs).Perm (subjects ys) := h.filterMap Directive.declared?
  have hcollect : SubjectMap.collect (subjects xs) = SubjectMap.collect (subjects ys) :=
    SubjectMap.collect_congr fun e => hsubjects.mem_iff
  have hnil : subjects xs = [] ↔ subjects ys = [] := by
    constructor
    · intro hxs
      exact List.nil_perm.mp (hxs ▸ hsubjects)
    · intro hys
      exact List.perm_nil.mp (hys ▸ hsubjects)
  rw [override_ofComments, override_ofComments, hcollect]
  simp only [hnil]

theorem override_eq_none_iff (xs : List String) : (ofComments xs).override = none ↔
    ∀ line ∈ allLines xs, ∀ type s, Directive.ofLine line ≠ .ok (some (.subject type s)) := by
  have hnil : subjects xs = [] ↔ ∀ line ∈ allLines xs, Directive.declared? line = none :=
    List.filterMap_eq_nil_iff
  have hdeclared (line : List Char) : Directive.declared? line = none ↔
      ∀ type s, Directive.ofLine line ≠ .ok (some (.subject type s)) := by
    rw [Directive.declared?]
    constructor
    · intro h type s hline
      rw [hline] at h
      cases h
    · intro h
      split
      · next type s hline => exact absurd hline (h type s)
      · rfl
  have hnone : (ofComments xs).override = none ↔ subjects xs = [] := by
    by_cases h : subjects xs = [] <;> simp [override_ofComments, h]
  rw [hnone, hnil]
  simp only [hdeclared]

end Override

/-- Some lines of a list are left out, all of them such as may be. -/
inductive Thinned (May : List Char → Prop) : List (List Char) → List (List Char) → Prop
  | nil : Thinned May [] []
  | keep (line : List Char) {l l' : List (List Char)} (h : Thinned May l l') :
    Thinned May (line :: l) (line :: l')
  | drop {line : List Char} {l l' : List (List Char)} (hline : May line) (h : Thinned May l l') :
    Thinned May (line :: l) l'

private theorem followLine_silent {line : List Char} (h : Silent line) (i : Instructions) :
    i.followLine line = i := by
  rw [followLine]
  cases h with
  | bad h => rw [h]
  | missing h => rw [h]
  | unrecognized h => rw [h]; rfl

private theorem foldl_thinned {l l' : List (List Char)} (h : Thinned Silent l l')
    (i : Instructions) : l'.foldl followLine i = l.foldl followLine i := by
  induction h generalizing i with
  | nil => rfl
  | keep line _ ih => exact ih _
  | drop hline _ ih => rw [List.foldl_cons, followLine_silent hline, ih]

/-- What comments instruct is put together line by line. -/
theorem ofComments_lineByLine :
    (∀ xs ys : List String,
      (ofComments (xs ++ ys)).override = Option.merge (fun m m' => (m.merge m').1)
        (ofComments xs).override (ofComments ys).override ∧
      (ofComments (xs ++ ys)).rename = (ofComments ys).rename.or (ofComments xs).rename) ∧
    (∀ (a b : String) (ends : List String), (∀ e ∈ ends, LineEnd e) →
      (ends ≠ [] → ofComments [a ++ String.join ends ++ b] = ofComments [a, b]) ∧
      ofComments [a ++ String.join ends] = ofComments [a]) ∧
    (∀ xs ys : List String, (allLines xs).Perm (allLines ys) →
      (ofComments xs).override = (ofComments ys).override) ∧
    (∀ xs : List String, (ofComments xs).override = none ↔
      ∀ line ∈ allLines xs, ∀ type s, Directive.ofLine line ≠ .ok (some (.subject type s))) ∧
    ∀ xs ys : List String, Thinned Silent (allLines xs) (allLines ys) →
      ofComments ys = ofComments xs := by
  refine ⟨fun xs ys => ⟨override_append xs ys, rename_append xs ys⟩, ?_,
    fun xs ys => override_perm, override_eq_none_iff, fun xs ys h => foldl_thinned h {}⟩
  intro a b ends hends
  have htext (s : String) (hne : ends ≠ []) :
      inText (a ++ String.join ends ++ s).toList = inText a.toList ++ inText s.toList := by
    rw [String.toList_append, String.toList_append, Directive.inText_lineEnds hends hne]
  constructor
  · intro hne
    rw [ofComments_eq, ofComments_eq, List.flatMap_singleton, htext b hne, List.flatMap_cons,
      List.flatMap_singleton]
  · by_cases hne : ends = []
    · subst hne
      rw [show String.join [] = "" from rfl, String.append_empty]
    · have hempty := htext "" hne
      rw [String.append_empty, show inText "".toList = [] from rfl, List.append_nil] at hempty
      rw [ofComments_eq, ofComments_eq, List.flatMap_singleton, List.flatMap_singleton, hempty]

/-- Two subjects and a remark between them. -/
def readers : List String :=
  ["//spicegen:subject_type=user", "// those that read", "//spicegen:subject_type=team#member"]

theorem ofComments_lineByLine_readers :
    (∀ e ∈ ["\r\n", "\n"], LineEnd e) ∧ (allLines readers).Perm (allLines readers.reverse) ∧
    Thinned Silent (allLines readers) (allLines (readers.eraseIdx 1)) ∧
    ofComments ["/* spicegen:rename=reader" ++ String.join ["\r\n", "\n"] ++ "*/"] =
      ofComments ["/* spicegen:rename=reader", "*/"] ∧
    (ofComments readers).override = (ofComments readers.reverse).override ∧
    (ofComments readers).override ≠ none ∧
    ofComments (readers.eraseIdx 1) = ofComments readers := by
  have hends : ∀ e ∈ ["\r\n", "\n"], LineEnd e :=
    List.forall_mem_cons.mpr ⟨.returned, List.forall_mem_singleton.mpr .newline⟩
  have hperm : (allLines readers).Perm (allLines readers.reverse) := by decide +kernel
  have hall : allLines readers = readers.map String.toList := by decide +kernel
  have hthin : allLines (readers.eraseIdx 1) = (readers.eraseIdx 1).map String.toList := by
    decide +kernel
  have hthinned : Thinned Silent (allLines readers) (allLines (readers.eraseIdx 1)) := by
    rw [hall, hthin]
    exact .keep _ (.drop (.missing (by rfl)) (.keep _ .nil))
  have hlaws := ofComments_lineByLine
  exact ⟨hends, hperm, hthinned, (hlaws.2.1 _ _ _ hends).1 (by decide), hlaws.2.2.1 _ _ hperm,
    by decide +kernel, hlaws.2.2.2.2 _ _ hthinned⟩

end Instructions

end AuthSchema
