import PlanGraph.Text.Split

/-! The arguments of the command, and what they ask for. -/

set_option autoImplicit false
namespace PlanGraph.Command
open Text

inductive Setting
  | plan
  | vocabulary
  | query
  | root
  | format
  | output
deriving DecidableEq, Repr

namespace Setting

def ofWord? (word : List Char) : Option Setting :=
  match String.ofList word with
  | "plan" => some .plan
  | "vocabulary" => some .vocabulary
  | "query" => some .query
  | "root" => some .root
  | "format" => some .format
  | "output" => some .output
  | _ => none

def ofLetter? : Char → Option Setting
  | 'p' => some .plan
  | 'q' => some .query
  | 'r' => some .root
  | 'o' => some .output
  | _ => none

def isPath : Setting → Bool
  | .plan | .vocabulary | .query | .output => true
  | .root | .format => false

end Setting

inductive Subcommand
  | build
  | summary
deriving DecidableEq, Repr

def Subcommand.accepts : Subcommand → Setting → Bool
  | .summary, .format | .summary, .output => false
  | _, _ => true

inductive Given
  | verbose
  | setting (name : Setting) (value : String)
deriving DecidableEq, Repr

/-- What an argument leaves to the next ones: further options, the value of a setting, or nothing because
it asks for help, in full or in short. -/
inductive Sequel
  | options
  | value (setting : Setting)
  | help (full : Bool)
deriving DecidableEq, Repr

structure Reading where
  given : List Given
  sequel : Sequel
deriving DecidableEq, Repr

def readWord? (chars : List Char) : Option Reading :=
  match cutAt? '=' chars with
  | none =>
    if chars = "verbose".toList then some ⟨[.verbose], .options⟩
    else if chars = "help".toList then some ⟨[], .help true⟩
    else (Setting.ofWord? chars).map fun setting => ⟨[], .value setting⟩
  | some (word, value) =>
    (Setting.ofWord? word).map fun setting => ⟨[.setting setting (String.ofList value)], .options⟩

/-- A setting by its letter. The rest of the argument is its value, perhaps after an equals sign. -/
def readSetting (setting : Setting) : List Char → Reading
  | [] => ⟨[], .value setting⟩
  | '=' :: value => ⟨[.setting setting (String.ofList value)], .options⟩
  | value => ⟨[.setting setting (String.ofList value)], .options⟩

/-- Options by their letters. What stands behind a call for help is not read. -/
def readLetters? : List Char → Option Reading
  | [] => some ⟨[], .options⟩
  | 'v' :: rest =>
    (readLetters? rest).map fun reading => { reading with given := .verbose :: reading.given }
  | 'h' :: _ => some ⟨[], .help false⟩
  | letter :: rest => (Setting.ofLetter? letter).map fun setting => readSetting setting rest

def readOption? : List Char → Option Reading
  | '-' :: '-' :: word => readWord? word
  | '-' :: letter :: letters => readLetters? (letter :: letters)
  | _ => none

/-- Values of their own do not look like options. A lone dash is a value. -/
def looksLikeOption (argument : String) : Bool :=
  match argument.toList with
  | '-' :: _ :: _ => true
  | _ => false

structure Options where
  given : List Given
  help : Option Bool
deriving DecidableEq, Repr

/-- The options after the name of a subcommand. A double dash may end them. -/
def readOptions? : List String → Option Options
  | [] => some ⟨[], none⟩
  | "--" :: rest => if rest.isEmpty then some ⟨[], none⟩ else none
  | argument :: rest =>
    match readOption? argument.toList with
    | none => none
    | some ⟨given, .help full⟩ => some ⟨given, some full⟩
    | some ⟨given, .options⟩ =>
      (readOptions? rest).map fun options => { options with given := given ++ options.given }
    | some ⟨given, .value setting⟩ =>
      match rest with
      | [] => none
      | value :: rest =>
        if looksLikeOption value then none
        else (readOptions? rest).map fun options =>
          { options with given := given ++ .setting setting value :: options.given }

inductive RootSource
  | query (path : String)
  | texts (roots : List String)
deriving DecidableEq, Repr

structure Input where
  plan : String
  vocabulary : String
  roots : RootSource
deriving DecidableEq, Repr

inductive Topic
  | command
  | subcommand (name : Subcommand)
  | help
deriving DecidableEq, Repr

inductive Invocation
  | version
  | help (topic : Topic) (full : Bool)
  | build (input : Input) (format output : Option String)
  | summary (input : Input)
deriving DecidableEq, Repr

def Given.valueOf? (setting : Setting) : Given → Option String
  | .verbose => none
  | .setting other value => if other = setting then some value else none

def single? (given : List Given) (setting : Setting) : Option (Option String) :=
  match given.filterMap (·.valueOf? setting) with
  | [] => some none
  | [value] => some (some value)
  | _ => none

/-- A setting has to be known to the subcommand, and paths are not empty. -/
def Given.isAllowed (subcommand : Subcommand) : Given → Bool
  | .verbose => true
  | .setting name value => subcommand.accepts name && !(name.isPath && value.isEmpty)

def areCompatible (given : List Given) : Bool :=
  given.count .verbose ≤ 1
    && [Setting.plan, .vocabulary, .query, .format, .output].all fun setting =>
      (single? given setting).isSome

def rootSource? (query : Option String) (roots : List String) : Option RootSource :=
  match query with
  | none => some (.texts roots)
  | some path => if roots.isEmpty then some (.query path) else none

def Invocation.ofGiven? (subcommand : Subcommand) (given : List Given) : Option Invocation := do
  let plan ← ← single? given .plan
  let vocabulary ← ← single? given .vocabulary
  let query ← single? given .query
  let roots ← rootSource? query (given.filterMap (·.valueOf? .root))
  let format ← single? given .format
  let output ← single? given .output
  return match subcommand with
    | .build => .build ⟨plan, vocabulary, roots⟩ format output
    | .summary => .summary ⟨plan, vocabulary, roots⟩

/-- What the options of a subcommand ask for. Help needs none of the others, but the options before it have
to be sound. -/
def Invocation.ofOptions? (subcommand : Subcommand) (options : Options) : Option Invocation := do
  guard (areCompatible options.given ∧ options.given.all (·.isAllowed subcommand))
  match options.help with
  | some full => return .help (.subcommand subcommand) full
  | none => ofGiven? subcommand options.given

/-- The flags before the subcommand: what ends the command at once, or whether it is to be verbose. -/
def readFlags? (verbose : Bool) : List Char → Option (Invocation ⊕ Bool)
  | [] => some (.inr verbose)
  | 'v' :: rest => if verbose then none else readFlags? true rest
  | 'V' :: _ => some (.inl .version)
  | 'h' :: _ => some (.inl (.help .command false))
  | _ => none

def Topic.ofNames? : List String → Option Topic
  | [] => some .command
  | ["build"] => some (.subcommand .build)
  | ["summary"] => some (.subcommand .summary)
  | ["help"] => some .help
  | _ => none

/-- What the arguments ask for, unless they are misused. The version and help are given as soon as they
are asked for; no other argument counts after that. -/
def Invocation.ofArguments? (verbose : Bool) : List String → Option Invocation
  | [] => none
  | "build" :: rest => (readOptions? rest).bind (ofOptions? .build)
  | "summary" :: rest => (readOptions? rest).bind (ofOptions? .summary)
  | "help" :: names => (Topic.ofNames? names).map fun topic => .help topic true
  | "--version" :: _ => some .version
  | "--help" :: _ => some (.help .command true)
  | "--verbose" :: rest => if verbose then none else ofArguments? true rest
  | argument :: rest =>
    match argument.toList with
    | '-' :: letter :: letters =>
      match readFlags? verbose (letter :: letters) with
      | none => none
      | some (.inl invocation) => some invocation
      | some (.inr verbose) => ofArguments? verbose rest
    | _ => none

end PlanGraph.Command
