import AuthSchema.Text.Split

/-!
Command-line arguments. They are read from left to right and the first problem decides; a request
for the version or for help ends the reading where it stands. A value follows its option as the
next argument, after an equals sign, or, after a short option, at once.
-/
namespace AuthSchema.CommandLine

structure Options where
  schemaFile : Option String := none
  outputPath : Option String := none
  config : Option String := none
  hidden : Option String := none
  depthLimit : Option Nat := none
  verbose : Bool := false
deriving DecidableEq, Repr, Inhabited

inductive Request where
  | run (options : Options)
  | version
  | help
deriving DecidableEq, Repr

inductive ArgumentError where
  | unexpected (argument : String)
  | repeated (option : String)
  | valueMissing (option : String)
  | valueUnwanted (option : String)
  | badValue (option value : String)
deriving DecidableEq, Repr

def ArgumentError.message : ArgumentError → String
  | .unexpected argument => "unexpected argument '" ++ argument ++ "' found"
  | .repeated option => "the argument '" ++ option ++ "' cannot be used multiple times"
  | .valueMissing option => "a value is required for '" ++ option ++ "' but none was supplied"
  | .valueUnwanted option => "unexpected value for '" ++ option ++ "' found"
  | .badValue option value => "invalid value '" ++ value ++ "' for '" ++ option ++ "'"

/-- The options that take a value. -/
inductive Setting where
  | schemaFile
  | outputPath
  | config
  | hidden
  | depthLimit
deriving DecidableEq, Repr

/-- The options that take none. -/
inductive Switch where
  | verbose
  | version
  | help
deriving DecidableEq, Repr

def Setting.name : Setting → String
  | .schemaFile => "--schema-file"
  | .outputPath => "--output-path"
  | .config => "--config"
  | .hidden => "--ignore-prefix"
  | .depthLimit => "--max-indirection-depth"

def Switch.name : Switch → String
  | .verbose => "--verbose"
  | .version => "--version"
  | .help => "--help"

/-- The option of a full name, without its hyphens. -/
def ofLongName : String → Option (Setting ⊕ Switch)
  | "schema-file" => some (.inl .schemaFile)
  | "output-path" => some (.inl .outputPath)
  | "config" => some (.inl .config)
  | "ignore-prefix" => some (.inl .hidden)
  | "max-indirection-depth" => some (.inl .depthLimit)
  | "verbose" => some (.inr .verbose)
  | "version" => some (.inr .version)
  | "help" => some (.inr .help)
  | _ => none

def ofLetter : Char → Option (Setting ⊕ Switch)
  | 'c' => some (.inl .config)
  | 'v' => some (.inr .verbose)
  | 'V' => some (.inr .version)
  | 'h' => some (.inr .help)
  | _ => none

/-- Reads a number of at most 64 bits; a plus sign may stand before it. -/
def number? (s : List Char) : Option Nat :=
  let ds := match s with
    | '+' :: rest => rest
    | _ => s
  if ds.isEmpty || !ds.all Char.isDigit then none
  else
    let n := ds.foldl (fun n c => n * 10 + (c.toNat - 48)) 0
    if n < Nat.pow 2 64 then some n else none

namespace Options

private def setOnce {α : Type} (s : Setting) (present : Option α) (o : Options) :
    Except ArgumentError Options :=
  if present.isSome then .error (.repeated s.name) else .ok o

private def path (s : Setting) (value : String) : Except ArgumentError (Option String) :=
  if value.isEmpty then .error (.badValue s.name value) else .ok (some value)

def set (o : Options) (s : Setting) (value : String) : Except ArgumentError Options := do
  match s with
  | .schemaFile => setOnce s o.schemaFile { o with schemaFile := ← path s value }
  | .outputPath => setOnce s o.outputPath { o with outputPath := ← path s value }
  | .config => setOnce s o.config { o with config := ← path s value }
  | .hidden => setOnce s o.hidden { o with hidden := some value }
  | .depthLimit =>
    match number? value.toList with
    | some n => setOnce s o.depthLimit { o with depthLimit := some n }
    | none => throw (.badValue s.name value)

end Options

private def turn (o : Options) : Switch → Except ArgumentError (Options ⊕ Request)
  | .verbose =>
    if o.verbose then .error (.repeated Switch.verbose.name)
    else .ok (.inl { o with verbose := true })
  | .version => .ok (.inr .version)
  | .help => .ok (.inr .help)

/-- What a row of short options does: it changes the options, ends the reading, or leaves an option
that still needs its value. -/
private inductive Cluster where
  | done (o : Options)
  | ended (r : Request)
  | open (o : Options) (s : Setting)

private def cluster (o : Options) : List Char → Except ArgumentError Cluster
  | [] => .ok (.done o)
  | c :: rest =>
    match ofLetter c with
    | none => .error (.unexpected (String.ofList ['-', c]))
    | some (.inr s) => do
      match ← turn o s with
      | .inl o => cluster o rest
      | .inr r => return .ended r
    | some (.inl s) =>
      match rest with
      | [] => .ok (.open o s)
      | '=' :: value => do return .done (← o.set s (String.ofList value))
      | value => do return .done (← o.set s (String.ofList value))

/-- Whether an argument can be the value of the option before it. -/
private def isValue (argument : String) : Bool :=
  match argument.toList with
  | '-' :: _ :: _ => false
  | _ => true

private inductive Piece where
  | endOfOptions
  | long (name : String) (value : Option String)
  | short (letters : List Char)
  | plain

private def Piece.of (argument : String) : Piece :=
  match argument.toList with
  | ['-', '-'] => .endOfOptions
  | '-' :: '-' :: rest =>
    match rest.dropWhile fun c => c ≠ '=' with
    | [] => .long (String.ofList rest) none
    | _ :: value =>
      .long (String.ofList (rest.takeWhile fun c => c ≠ '=')) (some (String.ofList value))
  | '-' :: c :: rest => .short (c :: rest)
  | _ => .plain

/-- Reads arguments in turn. The second argument is an option that waits for its value. -/
def read (o : Options) : Option Setting → List String → Except ArgumentError Request
  | none, [] => .ok (.run o)
  | some s, [] => .error (.valueMissing s.name)
  | some s, argument :: rest =>
    if isValue argument then do read (← o.set s argument) none rest
    else .error (.valueMissing s.name)
  | none, argument :: rest =>
    match Piece.of argument with
    | .endOfOptions =>
      match rest with
      | [] => .ok (.run o)
      | next :: _ => .error (.unexpected next)
    | .plain => .error (.unexpected argument)
    | .long name value =>
      match ofLongName name, value with
      | none, _ => .error (.unexpected argument)
      | some (.inl s), none => read o (some s) rest
      | some (.inl s), some v => do read (← o.set s v) none rest
      | some (.inr s), some _ => .error (.valueUnwanted s.name)
      | some (.inr s), none => do
        match ← turn o s with
        | .inl o => read o none rest
        | .inr r => return r
    | .short letters => do
      match ← cluster o letters with
      | .done o => read o none rest
      | .ended r => return r
      | .open o s => read o (some s) rest

/-- Completes options with the settings file that the environment names. -/
private def complete (environment : Option String) : Request → Except ArgumentError Request
  | .run o =>
    match o.config, environment with
    | none, some path => do return .run (← o.set .config path)
    | _, _ => .ok (.run o)
  | r => .ok r

def Request.ofArguments (environment : Option String) (arguments : List String) :
    Except ArgumentError Request := do
  complete environment (← read {} none arguments)

end AuthSchema.CommandLine
