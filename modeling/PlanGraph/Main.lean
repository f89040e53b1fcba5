import PlanGraph.Command.Run

/-! The command on the files of the system. -/

set_option autoImplicit false
namespace PlanGraph.Command

/-- Reads an open file. A folder can be opened but not read. -/
def readOpened (handle : IO.FS.Handle) : IO FileContent :=
  tryCatch (FileContent.bytes <$> handle.readBinToEnd) fun _ => pure .unreadable

def readFile (path : String) : IO FileContent :=
  tryCatch (do readOpened (← IO.FS.Handle.mk path .read)) fun _ => pure .missing

def createFile (path : String) : IO Bool :=
  tryCatch (do let _ ← IO.FS.Handle.mk path .write; pure true) fun _ => pure false

def systemFiles : FileAccess IO := ⟨readFile, createFile, fun path text => IO.FS.writeFile path text⟩

def usage : Topic → String
  | .command => "Usage: rdf-fragments [OPTIONS] <COMMAND>"
  | .subcommand .build =>
    "Usage: rdf-fragments build [OPTIONS] --plan <PLAN> --vocabulary <VOCABULARY>"
  | .subcommand .summary =>
    "Usage: rdf-fragments summary [OPTIONS] --plan <PLAN> --vocabulary <VOCABULARY>"
  | .help => "Usage: rdf-fragments help [COMMAND]"

def about : Topic → String
  | .command => "Compiles the evaluation plans of a federated query planner into plan graphs"
  | .subcommand .build => "Build the plan graph of an evaluation plan and serialize it as RDF"
  | .subcommand .summary =>
    "Print a human-readable outline of the plan graph of an evaluation plan"
  | .help => "Print this message or the help of the given subcommand(s)"

def manual : Manual := fun topic _ => about topic ++ "\n\n" ++ usage topic ++ "\n"

end PlanGraph.Command

open PlanGraph.Command in
def main (arguments : List String) : IO UInt32 := do
  let outcome ← run manual systemFiles arguments
  match outcome with
  | .misused => IO.eprintln (usage .command)
  | .failed failure => IO.eprintln ("Error: " ++ failure.message)
  | .finished output => IO.print output
  return UInt32.ofNat outcome.exitCode
