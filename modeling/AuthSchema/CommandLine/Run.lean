import AuthSchema.CommandLine.Arguments
import AuthSchema.Json.Printer
import AuthSchema.Schema.Codec
import AuthSchema.Settings.File

/-!
A run of the program: settings, then the compiled schema, then the resolved one, which is written to
one place as the last step. The world around it is a parameter.
-/
namespace AuthSchema.CommandLine

/-- What a run needs of the world around it. -/
structure Host (m : Type → Type) where
  /-- The bytes of a file, if it can be read. -/
  read : String → m (Option (List UInt8))
  /-- Replaces the content of a file; whether that worked. -/
  write : String → String → m Bool
  /-- Prints a text, or tells what has kept it from being printed. -/
  print : String → m (Except String Unit)

/-- A world in which each file can be read or not, and in which writing and printing either lead to
a further state or have no effect. -/
structure World (σ : Type) where
  read : σ → String → Option (List UInt8)
  write : σ → String → String → Option σ
  print : σ → String → Except String σ

def World.host {σ : Type} (w : World σ) : Host (StateM σ) where
  read path := do return w.read (← get) path
  write path text := do
    match w.write (← get) path text with
    | some s => set s; return true
    | none => return false
  print text := do
    match w.print (← get) text with
    | .ok s => set s; return .ok ()
    | .error reason => return .error reason

inductive RunError where
  | settingsUnreadable (path : String)
  | settingsMalformed (path : String)
  | settingsRefused (fault : SettingsFault)
  | schemaUnreadable (path : String)
  | unresolved (e : SchemaError)
  | outputUnwritable (path : String)
  | outputUnprintable (reason : String)
deriving DecidableEq, Repr

def RunError.message : RunError → String
  | .settingsUnreadable path => "Failed to read configuration file " ++ path
  | .settingsMalformed path => "Failed to parse configuration file " ++ path
  | .settingsRefused fault => fault.message
  | .schemaUnreadable path => "Failed to read compiled schema " ++ path
  | .unresolved _ => "Failed to resolve schema"
  | .outputUnwritable path => "Failed to write output " ++ path
  | .outputUnprintable reason => reason

def textOf? (bytes : List UInt8) : Option String :=
  ((Text.decode bytes).mapM id).map String.ofList

def loadSettings (path : String) (content : Option (List UInt8)) : Except RunError Settings :=
  match content.bind textOf? with
  | none => .error (.settingsUnreadable path)
  | some text =>
    match Settings.ofToml text with
    | none => .error (.settingsMalformed path)
    | some settings => .ok settings

namespace Options

/-- The settings that hold for a run: each option that is given takes the place of a setting. -/
def applyTo (o : Options) (s : Settings) : Settings :=
  { policy := { s.policy with depthLimit := o.depthLimit.or s.policy.depthLimit }
    output := { s.output with hidden := o.hidden.getD s.output.hidden } }

def schemaPath (o : Options) : String := o.schemaFile.getD "schema.json"

end Options

def checkSettings (s : Settings) : Except RunError Settings :=
  match s.fault? with
  | some fault => .error (.settingsRefused fault)
  | none => .ok s

def loadSchema (path : String) (content : Option (List UInt8)) :
    Except RunError Compiled.Schema :=
  match content with
  | none => .error (.schemaUnreadable path)
  | some bytes => (Compiled.Schema.ofText (Text.decode bytes)).mapError fun _ =>
      .schemaUnreadable path

def render (s : Settings) (schema : Schema) : String :=
  (if s.output.pretty then schema.toJson.pretty else schema.toJson.compact) ++ "\n"

/-- Hands the text to its one destination. -/
def deliver {m : Type → Type} [Monad m] (host : Host m) (o : Options) (text : String) :
    ExceptT RunError m Unit := do
  match o.outputPath with
  | none =>
    match ← host.print text with
    | .ok () => return
    | .error reason => throw (.outputUnprintable reason)
  | some path => unless ← host.write path text do throw (.outputUnwritable path)

def run {m : Type → Type} [Monad m] (host : Host m) (o : Options) : ExceptT RunError m Unit := do
  let settings ← match o.config with
    | none => pure {}
    | some path => ofExcept (loadSettings path (← host.read path))
  let settings ← ofExcept (checkSettings (o.applyTo settings))
  let compiled ← ofExcept (loadSchema o.schemaPath (← host.read o.schemaPath))
  let schema ← ofExcept ((Schema.ofCompiled settings.plan compiled).mapError .unresolved)
  deliver host o (render settings schema)
where
  ofExcept {α : Type} (e : Except RunError α) : ExceptT RunError m α := ExceptT.mk (pure e)

/-- How the program ends: its exit code, and what it says about an error. -/
structure Outcome where
  code : Nat
  message : Option String := none
deriving DecidableEq, Repr

/-- The first line of what the program says about an error; a path in it may have further lines. -/
def Outcome.errorLine (o : Outcome) : Option String :=
  o.message.map fun text => String.ofList ((Text.lines (text ++ "\n").toList).headD [])

def versionText : String := "spicegen 0.1.0\n"

def helpText : String :=
  "Resolve allowed subject types for a compiled SpiceDB schema\n\n" ++
  "Usage: spicegen [OPTIONS]\n\nOptions:\n" ++
  "      --schema-file <SCHEMA_FILE>  Compiled schema graph (JSON) [default: schema.json]\n" ++
  "      --output-path <OUTPUT_PATH>  Output file (defaults to stdout)\n" ++
  "  -c, --config <CONFIG>            Path to configuration file [env: SPICEGEN_CONFIG=]\n" ++
  "      --ignore-prefix <IGNORE_PREFIX>\n" ++
  "          Skip members whose name starts with this prefix (overrides config)\n" ++
  "      --max-indirection-depth <MAX_INDIRECTION_DEPTH>\n" ++
  "          Maximum subject-relation hops followed from a permission (overrides config)\n" ++
  "  -v, --verbose                    Enable verbose logging\n" ++
  "  -h, --help                       Print help\n" ++
  "  -V, --version                    Print version\n"

def execute {m : Type → Type} [Monad m] (host : Host m) (environment : Option String)
    (arguments : List String) : m Outcome := do
  match Request.ofArguments environment arguments with
  | .error e => return ⟨2, some ("error: " ++ e.message)⟩
  | .ok .version => do let _ ← host.print versionText; return ⟨0, none⟩
  | .ok .help => do let _ ← host.print helpText; return ⟨0, none⟩
  | .ok (.run o) =>
    match ← (run host o).run with
    | .ok () => return ⟨0, none⟩
    | .error e => return ⟨1, some ("Error: " ++ e.message)⟩

end AuthSchema.CommandLine
