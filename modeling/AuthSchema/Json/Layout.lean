import AuthSchema.Json.Reader

/-!
Layouts of documents. A text is checked against a layout from left to right, token by token, and
the first problem decides: it ends too early, it is not JSON, or it does not fit. The values of
unknown keys are only skimmed.
-/
namespace AuthSchema.Json

/-- What a document, or a part of it, has to look like. -/
inductive Layout where
  | text
  | flag
  /-- Null stands for an absent value. -/
  | optional (inner : Layout)
  | list (item : Layout)
  /-- An object with any keys. -/
  | dict (value : Layout)
  /-- Named fields, each required or not: an object, or an array of the values in this order. -/
  | record (fields : List (String × Bool × Layout))
  /-- One of the bare names, or an object with one key: a bare name over null, or a wrapping name
  over a text. -/
  | choice (bare wrapping : List String)
  /-- A value whose kind is named under the key `type`, or stands first in an array. Its other
  content is read in full and judged at the end. -/
  | tagged (knows : String → Bool) (accepts : Json → Bool)

inductive Want where
  | layout (l : Layout)
  /-- Any value, read in full. -/
  | any
  /-- Any value, skimmed. -/
  | skimmed
  /-- The kind of a tagged value. -/
  | tag (knows : String → Bool)
  | null

/-- What an open array holds from here on. -/
inductive Series where
  | every (item : Want)
  | fields (rest : List (String × Bool × Layout))
  /-- A tagged value, with the tokens after its opening bracket. -/
  | tagged (knows : String → Bool) (accepts : Json → Bool) (tagRead : Bool) (inside : List Token)

inductive Members where
  | every (value : Want)
  | record (fields : List (String × Bool × Layout)) (seen : List String)
  /-- A tagged value, with the tokens after its opening brace. -/
  | tagged (knows : String → Bool) (accepts : Json → Bool) (tagRead : Bool) (inside : List Token)

inductive Place where
  /-- Just after the opening. -/
  | first
  /-- After a comma. -/
  | more
  /-- After an item or member. -/
  | next

/-- A part of the text that has begun, or has to begin. -/
inductive Frame where
  | value (want : Want)
  | array (series : Series) (place : Place)
  | object (members : Members) (place : Place)
  /-- After a key: a colon and a value have to come. -/
  | entry (members : Members) (want : Want)
  /-- A choice in its object form, before its key. -/
  | choice (bare wrapping : List String)
  /-- After the key of a choice. -/
  | chosen (want : Want)
  /-- After the value of a choice. -/
  | choiceEnd

/-- How deeply arrays and objects may stand inside one another. -/
def depthLimit : Nat := 127

private def enter (outer : List Frame) (inner : Frame) : Except Problem (List Frame) :=
  if outer.length < depthLimit then .ok (inner :: outer) else .error .malformed

/-- A token where a value of another kind is wanted: its own problem comes first. -/
private def refuse : Token → Problem
  | .text (.error p) _ => p
  | .atom (.error p) _ => p
  | .text _ _ => .mismatched
  | .atom _ _ => .mismatched
  | .openArray => .mismatched
  | .openObject => .mismatched
  | _ => .malformed

/-- The name of a kind or choice; it has to be a text that passes a test. -/
private def acceptName (test : String → Bool) (outer : List Frame) (t : Token) :
    Except Problem (List Frame) :=
  match t with
  | .text (.ok s) _ => if test s then .ok outer else .error .mismatched
  | t => .error (refuse t)

/-- Begins a value of a layout with a token; `later` are the tokens after it. -/
private def beginLayout (outer : List Frame) (t : Token) (later : List Token) :
    Layout → Except Problem (List Frame)
  | .text => acceptName (fun _ => true) outer t
  | .flag =>
    match t with
    | .atom (.ok (.bool _)) _ => .ok outer
    | t => .error (refuse t)
  | .optional inner =>
    match t with
    | .atom (.ok .null) _ => .ok outer
    | t => beginLayout outer t later inner
  | .list item =>
    match t with
    | .openArray => enter outer (.array (.every (.layout item)) .first)
    | t => .error (refuse t)
  | .dict value =>
    match t with
    | .openObject => enter outer (.object (.every (.layout value)) .first)
    | t => .error (refuse t)
  | .record fields =>
    match t with
    | .openArray => enter outer (.array (.fields fields) .first)
    | .openObject => enter outer (.object (.record fields []) .first)
    | t => .error (refuse t)
  | .choice bare wrapping =>
    match t with
    | .openObject => enter outer (.choice bare wrapping)
    | .text _ _ => acceptName bare.contains outer t
    | _ => .error .malformed
  | .tagged knows accepts =>
    match t with
    | .openArray => enter outer (.array (.tagged knows accepts false later) .first)
    | .openObject => enter outer (.object (.tagged knows accepts false later) .first)
    | t => .error (refuse t)

def beginValue (want : Want) (outer : List Frame) (t : Token) (later : List Token) :
    Except Problem (List Frame) :=
  match want with
  | .layout l => beginLayout outer t later l
  | .tag knows => acceptName knows outer t
  | .null =>
    match t with
    | .atom (.ok .null) _ => .ok outer
    | t => .error (refuse t)
  | .any =>
    match t with
    | .text (.ok _) _ => .ok outer
    | .atom (.ok _) _ => .ok outer
    | .openArray => enter outer (.array (.every .any) .first)
    | .openObject => enter outer (.object (.every .any) .first)
    | t => .error (refuse t)
  | .skimmed =>
    match t with
    | .text _ none => .ok outer
    | .text _ (some p) => .error p
    | .atom _ none => .ok outer
    | .atom _ (some p) => .error p
    | .openArray => .ok (.array (.every .skimmed) .first :: outer)
    | .openObject => .ok (.object (.every .skimmed) .first :: outer)
    | _ => .error .malformed

def Series.item? : Series → Option (Want × Series)
  | .every w => some (w, .every w)
  | .fields [] => none
  | .fields ((_, _, l) :: rest) => some (.layout l, .fields rest)
  | .tagged knows accepts false inside => some (.tag knows, .tagged knows accepts true inside)
  | .tagged knows accepts true inside => some (.any, .tagged knows accepts true inside)

private def judged (accepts : Json → Bool) (value : Option Json) : Bool := value.any accepts

def Series.complete : Series → Bool
  | .every _ => true
  | .fields rest => rest.all fun f => !f.2.1
  | .tagged _ accepts tagRead inside => tagRead && judged accepts (build [.array []] inside)

def Members.complete : Members → Bool
  | .every _ => true
  | .record fields seen => fields.all fun f => !f.2.1 || seen.contains f.1
  | .tagged _ accepts tagRead inside => tagRead && judged accepts (build [.object []] inside)

private def Members.wantAt (key : String) : Members → Except Problem (Want × Members)
  | .every w => .ok (w, .every w)
  | .record fields seen =>
    match fields.find? fun f => f.1 = key with
    | none => .ok (.skimmed, .record fields seen)
    | some (_, _, l) =>
      if seen.contains key then .error .mismatched
      else .ok (.layout l, .record fields (key :: seen))
  | .tagged knows accepts tagRead inside =>
    if key = "type" then
      if tagRead then .error .mismatched
      else .ok (.tag knows, .tagged knows accepts true inside)
    else .ok (.any, .tagged knows accepts tagRead inside)

def beginKey (members : Members) (outer : List Frame) : Token → Except Problem (List Frame)
  | .text full skimmed =>
    match members, full, skimmed with
    | .every .skimmed, _, none => .ok (.entry (.every .skimmed) .skimmed :: outer)
    | .every .skimmed, _, some p => .error p
    | members, .ok key, _ => do
      let (want, members) ← members.wantAt key
      return .entry members want :: outer
    | _, .error p, _ => .error p
  | _ => .error .malformed

def beginItem (series : Series) (outer : List Frame) (t : Token) (later : List Token) :
    Except Problem (List Frame) :=
  match series.item? with
  | some (want, series) => beginValue want (.array series .next :: outer) t later
  | none => .error .malformed

def finish (complete : Bool) (outer : List Frame) : Except Problem (List Frame) :=
  if complete then .ok outer else .error .mismatched

def Frame.step (f : Frame) (outer : List Frame) (t : Token) (later : List Token) :
    Except Problem (List Frame) :=
  match f with
  | .value want => beginValue want outer t later
  | .array series place =>
    match place, t with
    | .first, .closeArray => finish series.complete outer
    | .first, t => beginItem series outer t later
    | .more, .closeArray => .error .malformed
    | .more, t => beginItem series outer t later
    | .next, .closeArray => finish series.complete outer
    | .next, .comma =>
      if series.item?.isSome then .ok (.array series .more :: outer) else .error .malformed
    | .next, _ => .error .malformed
  | .object members place =>
    match place, t with
    | .first, .closeObject => finish members.complete outer
    | .first, t => beginKey members outer t
    | .more, t => beginKey members outer t
    | .next, .closeObject => finish members.complete outer
    | .next, .comma => .ok (.object members .more :: outer)
    | .next, _ => .error .malformed
  | .entry members want =>
    match t with
    | .colon => .ok (.value want :: .object members .next :: outer)
    | _ => .error .malformed
  | .choice bare wrapping =>
    match t with
    | .text (.ok name) _ =>
      if bare.contains name then .ok (.chosen .null :: outer)
      else if wrapping.contains name then .ok (.chosen (.layout .text) :: outer)
      else .error .mismatched
    | .text (.error p) _ => .error p
    | _ => .error .malformed
  | .chosen want =>
    match t with
    | .colon => .ok (.value want :: .choiceEnd :: outer)
    | _ => .error .malformed
  | .choiceEnd =>
    match t with
    | .closeObject => .ok outer
    | _ => .error .malformed

/-- The first problem that tokens meet, given the parts of the text that have begun. -/
def problem? : List Frame → List Token → Option Problem
  | [], [] => none
  | [], _ :: _ => some .malformed
  | _ :: _, [] => some .truncated
  | f :: outer, t :: rest =>
    match f.step outer t rest with
    | .ok frames => problem? frames rest
    | .error p => some p

def read (layout : Layout) (s : List Text.Symbol) : Except Problem Json :=
  let ts := tokens s
  match problem? [.value (.layout layout)] ts with
  | some p => .error p
  | none =>
    match build [] ts with
    | some j => .ok j
    | none => .error .malformed

/-- Reads any JSON value, however deep. -/
def parse? (s : List Text.Symbol) : Option Json :=
  let ts := tokens s
  match problem? [.value .skimmed] ts with
  | some _ => none
  | none => build [] ts

end AuthSchema.Json
