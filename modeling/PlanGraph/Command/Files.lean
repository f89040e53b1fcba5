import PlanGraph.OrderedMap
import PlanGraph.Text.Split

/-! The files that the command reads and writes, and a directory of files in memory. -/

set_option autoImplicit false
namespace PlanGraph.Command
open Text

inductive FileContent
  | missing
  | unreadable
  | bytes (content : ByteArray)

/-- Access to files by their paths. Creating a file empties it and tells whether that was possible. -/
structure FileAccess (m : Type → Type) where
  read : String → m FileContent
  create : String → m Bool
  write : String → String → m Unit

def pathNames (path : String) : List (List Char) :=
  (splitOn '/' path.toList).filter fun name => name ≠ [] ∧ name ≠ ['.']

/-- The part of a file name after its last dot. A name may start with a dot that does not count. -/
def extensionOf? (name : List Char) : Option (List Char) :=
  (cutAt? '.' name.reverse).bind fun (tail, lead) =>
    if lead.isEmpty then none else some tail.reverse

def pathExtension? (path : String) : Option (List Char) :=
  (pathNames path).getLast?.bind fun name => if name = ['.', '.'] then none else extensionOf? name

/-- What a path means in a directory: a folder, a name in the directory, or nothing that is there. -/
inductive Place
  | folder
  | entry (name : String)
  | nowhere
deriving DecidableEq, Repr

def isWithinLimits (path : String) : Bool :=
  path.utf8ByteSize < 4096
    && (splitOn '/' path.toList).all fun name => (String.ofList name).utf8ByteSize ≤ 255

def Place.ofPath (path : String) : Place :=
  let names := pathNames path
  if !isWithinLimits path then .nowhere
  else if names.all (· == ['.', '.']) then .folder
  else
    match names with
    | [name] =>
      let pieces := splitOn '/' path.toList
      if pieces.head? ≠ some [] ∧ pieces.getLast? = some name then .entry (String.ofList name)
      else .nowhere
    | _ => .nowhere

abbrev Directory := OrderedMap String ByteArray

namespace Directory

def read (directory : Directory) (path : String) : FileContent :=
  match Place.ofPath path with
  | .folder => .unreadable
  | .entry name =>
    match directory.find? name with
    | some content => .bytes content
    | none => .missing
  | .nowhere => .missing

def store (directory : Directory) (path : String) (content : ByteArray) : Option Directory :=
  match Place.ofPath path with
  | .entry name => some (directory.insert name content)
  | _ => none

def access : FileAccess (StateM Directory) where
  read path := do return (← get).read path
  create path := do
    match (← get).store path ByteArray.empty with
    | some directory =>
      set directory
      return true
    | none => return false
  write path content := modify fun directory => (directory.store path content.toUTF8).getD directory

end Directory
end PlanGraph.Command
