import PlanGraph.Command.Arguments
import PlanGraph.Command.Files
import PlanGraph.Graph.Compilation
import PlanGraph.Graph.Export
import PlanGraph.Graph.Outline
import PlanGraph.Hierarchy.Vocabulary
import PlanGraph.Plan.Decoding
import PlanGraph.Sparql.Query

/-! Running the command: reading its input, compiling the graph, and writing it. -/

set_option autoImplicit false
namespace PlanGraph.Command
open Rdf (Format)

/-- Why a command fails, in the order of its stages. -/
inductive Failure
  | unknownFormat (name : String)
  | unknownExtension (extension : String)
  | noExtension (path : String)
  | noNamedGraphs (format : Format)
  | missingPlan (path : String)
  | invalidPlan (path : String)
  | missingVocabulary (path : String)
  | invalidVocabulary (path : String)
  | unreadableQuery (path : String)
  | invalidQuery
  | invalidRoot (text : String)
  | unknownType (error : UnknownType)
  | notCreated (path : String)
  | notExported (error : ExportError)
deriving DecidableEq, Repr

def Failure.message : Failure → String
  | .unknownFormat name => "The file format '" ++ name ++ "' is unknown"
  | .unknownExtension extension =>
    "Not able to guess the file format from file name extension '" ++ extension ++ "'"
  | .noExtension path => "The path " ++ path ++ " has no extension to guess a file format from"
  | .noNamedGraphs format => "The format " ++ format.name ++ " does not support named graphs"
  | .missingPlan path => "Cannot open the plan " ++ path
  | .invalidPlan path => "Invalid plan " ++ path
  | .missingVocabulary path => "Cannot open the vocabulary " ++ path
  | .invalidVocabulary path => "Invalid vocabulary " ++ path
  | .unreadableQuery path => "Cannot read the query " ++ path
  | .invalidQuery => "The query is not valid SPARQL"
  | .invalidRoot text => "Invalid root " ++ text
  | .unknownType error => error.message
  | .notCreated path => "Cannot create " ++ path
  | .notExported error => error.message

def namedFormat (name : String) : Except Failure Format :=
  match (Format.ofExtension? name.toList).or (Format.ofMediaType? name.toList) with
  | some format => .ok format
  | none => .error (.unknownFormat name)

def guessedFormat (path : String) : Except Failure Format :=
  match pathExtension? path with
  | none => .error (.noExtension path)
  | some extension =>
    match Format.ofExtension? extension with
    | some format => .ok format
    | none => .error (.unknownExtension (String.ofList extension))

/-- The format asked for, else that of the output file, else N-Quads; it has to have named graphs. -/
def outputFormat (name output : Option String) : Except Failure Format := do
  let format ←
    match name, output with
    | some name, _ => namedFormat name
    | none, some path => guessedFormat path
    | none, none => .ok .nQuads
  if format.supportsDatasets then .ok format else .error (.noNamedGraphs format)

def decodePlan (path : String) : FileContent → Except Failure Plan
  | .missing => .error (.missingPlan path)
  | .unreadable => .error (.invalidPlan path)
  | .bytes content => (Plan.ofBytes content).mapError fun _ => .invalidPlan path

def decodeVocabulary (path : String) : FileContent → Except Failure Hierarchy
  | .missing => .error (.missingVocabulary path)
  | .unreadable => .error (.invalidVocabulary path)
  | .bytes content =>
    match Hierarchy.ofGlyphs? (Text.glyphsOfBytes content) with
    | some hierarchy => .ok hierarchy
    | none => .error (.invalidVocabulary path)

def decodeQuery (path : String) : FileContent → Except Failure Roots
  | .missing | .unreadable => .error (.unreadableQuery path)
  | .bytes content =>
    match String.fromUTF8? content with
    | none => .error (.unreadableQuery path)
    | some text =>
      match Sparql.Query.ofText? text with
      | some query => .ok (.ofQuery query)
      | none => .error .invalidQuery

def decodeRoots (prefixes : Prefixes) (texts : List String) : Except Failure Roots := do
  let terms ← texts.mapM fun text =>
    (PatternTerm.ofText prefixes .subject text).mapError fun _ => Failure.invalidRoot text
  return .ofTerms terms

def compile (plan : Plan) (hierarchy : Hierarchy) (roots : Roots) : Except Failure Graph :=
  (plan.compile hierarchy roots).mapError .unknownType

def exportGraph (graph : Graph) (format : Format) : Except Failure String :=
  (graph.export format).mapError .notExported

variable {m : Type → Type} [Monad m]

def Input.graph (access : FileAccess m) (input : Input) : ExceptT Failure m Graph := do
  let plan ← decodePlan input.plan (← access.read input.plan)
  let hierarchy ← decodeVocabulary input.vocabulary (← access.read input.vocabulary)
  let roots ←
    match input.roots with
    | .query path => do decodeQuery path (← access.read path)
    | .texts texts => decodeRoots plan.prefixes texts
  compile plan hierarchy roots

/-- Writes a graph to a file. The file is emptied before the graph is exported. -/
def writeGraph (access : FileAccess m) (graph : Graph) (format : Format) (path : String) :
    ExceptT Failure m Unit := do
  if !(← access.create path) then throw (.notCreated path)
  let text ← exportGraph graph format
  access.write path text

/-- The texts of the help, in full and in short. -/
abbrev Manual := Topic → Bool → String

def Invocation.execute (manual : Manual) (access : FileAccess m) :
    Invocation → ExceptT Failure m String
  | .version => return "rdf-fragments 0.1.0\n"
  | .help topic full => return manual topic full
  | .summary input => do return (← input.graph access).outline
  | .build input name output => do
    let format ← outputFormat name output
    let graph ← input.graph access
    match output with
    | none => exportGraph graph format
    | some path =>
      writeGraph access graph format path
      return ""

inductive Outcome
  | misused
  | failed (failure : Failure)
  | finished (output : String)
deriving DecidableEq, Repr

namespace Outcome

def exitCode : Outcome → Nat
  | .misused => 2
  | .failed _ => 1
  | .finished _ => 0

def output : Outcome → String
  | .finished output => output
  | _ => ""

def ofExcept : Except Failure String → Outcome
  | .ok output => .finished output
  | .error failure => .failed failure

end Outcome

def run (manual : Manual) (access : FileAccess m) (arguments : List String) : m Outcome :=
  match Invocation.ofArguments? false arguments with
  | none => return .misused
  | some invocation => do return .ofExcept (← (invocation.execute manual access).run)

end PlanGraph.Command
