import AuthSchema.Directive.Basic
import AuthSchema.Text.Blank
import AuthSchema.Text.Identifier

/-!
Reading a directive from a comment line. Comment marks and blanks around it are dropped; what is
left has to begin with the directive mark and is a tag, alone or followed by an equals sign and a
value on the same line.
-/
namespace AuthSchema.Directive

open Text (trim isBlank isIdentifier isTypePath)

/-- The text that every directive begins with. -/
def mark : List Char := "spicegen:".toList

def withoutEnding (ending s : List Char) : List Char :=
  if ending.isSuffixOf s then s.take (s.length - ending.length) else s

def uncomment (line : List Char) : List Char :=
  trim ((withoutEnding ['*', '/'] (trim line)).dropWhile fun c => c = '/' || c = '*')

def body? (line : List Char) : Option (List Char) :=
  let text := uncomment line
  if mark.isPrefixOf text then some (trim (text.drop mark.length)) else none

/-- The tag of a body and its value: the tag runs up to an equals sign or blank, and only a value
without newline may follow it. -/
def cut? (body : List Char) : Option (List Char × Option (List Char)) :=
  let tag := body.takeWhile fun c => c ≠ '=' && !isBlank c
  match body.dropWhile fun c => c ≠ '=' && !isBlank c with
  | [] => some (tag, none)
  | '=' :: value => if value.contains '\n' then none else some (tag, some (trim value))
  | _ => none

def needed (tag : List Char) (value : Option (List Char)) :
    Except DirectiveError (List Char) :=
  match value with
  | some (c :: rest) => .ok (c :: rest)
  | _ => .error (.missingValue (String.ofList tag))

/-- Reads a subject: a type, or a type and a relation with a number sign between them. -/
def subject? (value : List Char) : Option (String × SubjectRelation) :=
  let type := value.takeWhile fun c => c ≠ '#'
  if isTypePath type || type = anyType.toList then
    match value.dropWhile fun c => c ≠ '#' with
    | [] => some (String.ofList type, .itself)
    | _ :: relation =>
      if isIdentifier relation || relation = selfMark.toList then
        some (String.ofList type, .ofName (some (String.ofList relation)))
      else none
  else none

def ofBody (body : List Char) : Except DirectiveError Directive :=
  match cut? body with
  | none => .error (.invalidTag (String.ofList body))
  | some ([], _) => .error (.missingTag (String.ofList body))
  | some (tag, value) =>
    if !isIdentifier tag then .error (.invalidTag (String.ofList tag))
    else if tag = "subject_type".toList then do
      let value ← needed tag value
      match subject? value with
      | some (type, allowed) => return .subject type allowed
      | none => throw (.invalidSubject (String.ofList value))
    else if tag = "rename".toList then do
      let value ← needed tag value
      if isIdentifier value then return .rename (String.ofList value)
      else throw (.invalidRename (String.ofList value))
    else return .unrecognized (String.ofList tag) (value.map String.ofList)

/-- Reads a comment line; a line that is no directive gives nothing. -/
def ofLine (line : List Char) : Except DirectiveError (Option Directive) :=
  match body? line with
  | none => .ok none
  | some body => (ofBody body).map some

end AuthSchema.Directive
