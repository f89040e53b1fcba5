import PlanGraph.Command.Run
import PlanGraph.Proofs.Collections

/-! The command on a directory in memory. A run is a function of the arguments and of the files. What it
reads leaves the files alone; the one stage that changes them is the writing of the graph. -/

set_option autoImplicit false
namespace PlanGraph.Command
open Rdf (Format)

/-- A run on a directory: how it ends, and the directory that it leaves. -/
def runIn (manual : Manual) (directory : Directory) (arguments : List String) : Outcome × Directory :=
  (run manual Directory.access arguments).run directory

def Input.graphFrom (read : String → FileContent) (input : Input) : Except Failure Graph := do
  let plan ← decodePlan input.plan (read input.plan)
  let hierarchy ← decodeVocabulary input.vocabulary (read input.vocabulary)
  let roots ←
    match input.roots with
    | .query path => decodeQuery path (read path)
    | .texts texts => decodeRoots plan.prefixes texts
  compile plan hierarchy roots

abbrev Stage (α : Type) := ExceptT Failure (StateM Directory) α

def Yields {α : Type} (stage : Stage α) (directory : Directory) (result : Except Failure α) : Prop :=
  stage.run.run directory = (result, directory)

section
variable {manual : Manual} {directory : Directory} {α β : Type}

theorem yields_of_except (result : Except Failure α) :
    Yields (liftM result) directory result := by
  cases result <;> rfl

theorem Yields.run_bind {stage : Stage α} {result : Except Failure α} {next : α → Stage β} :
    Yields stage directory result → (stage >>= next).run.run directory =
      match result with
      | .error failure => (.error failure, directory)
      | .ok value => (next value).run.run directory := by
  intro first
  unfold Yields at first
  rw [ExceptT.run_bind, StateT.run_bind, first]
  cases result with
  | error failure => rfl
  | ok value => rfl

theorem Yields.bind {stage : Stage α} {result : Except Failure α} {next : α → Stage β}
    {last : α → Except Failure β} (first : Yields stage directory result)
    (rest : ∀ value, Yields (next value) directory (last value)) :
    Yields (stage >>= next) directory (result >>= last) := by
  unfold Yields
  rw [first.run_bind]
  cases result with
  | error failure => rfl
  | ok value => exact rest value

theorem yields_bind_read {path : String} {next : FileContent → Stage β} {result : Except Failure β}
    (rest : Yields (next (directory.read path)) directory result) :
    Yields (liftM (Directory.access.read path) >>= next) directory result := rest

theorem yields_bind_except {result : Except Failure α} {next : α → Stage β} {last : α → Except Failure β}
    (rest : ∀ value, Yields (next value) directory (last value)) :
    Yields (liftM result >>= next) directory (result >>= last) := (yields_of_except result).bind rest

theorem yields_graph (input : Input) :
    Yields (input.graph Directory.access) directory (input.graphFrom directory.read) := by
  unfold Input.graph Input.graphFrom
  refine yields_bind_read (yields_bind_except fun plan => ?_)
  refine yields_bind_read (yields_bind_except fun hierarchy => ?_)
  cases input.roots with
  | query path => exact yields_bind_read (yields_bind_except fun roots => yields_of_except _)
  | texts texts => exact yields_bind_except fun roots => yields_of_except _

/-- What writing a graph to a file can come to. The file is there as soon as it could be created, empty
until the graph is exported. -/
inductive Written (directory : Directory) (graph : Graph) (format : Format) (path : String) :
    Except Failure Unit × Directory → Prop
  | refused (elsewhere : ∀ name, Place.ofPath path ≠ .entry name) :
      Written directory graph format path (.error (.notCreated path), directory)
  | emptied {name : String} {failure : Failure} (here : Place.ofPath path = .entry name)
      (unexported : exportGraph graph format = .error failure) :
      Written directory graph format path (.error failure, directory.insert name ByteArray.empty)
  | done {name text : String} (here : Place.ofPath path = .entry name)
      (exported : exportGraph graph format = .ok text) :
      Written directory graph format path (.ok (), directory.insert name text.toUTF8)

theorem store_of_entry {path name : String} (here : Place.ofPath path = .entry name)
    (content : ByteArray) : directory.store path content = some (directory.insert name content) := by
  simp [Directory.store, here]

theorem store_of_elsewhere {path : String} (elsewhere : ∀ name, Place.ofPath path ≠ .entry name)
    (content : ByteArray) : directory.store path content = none := by
  unfold Directory.store
  cases place : Place.ofPath path with
  | folder => rfl
  | nowhere => rfl
  | entry name => exact absurd place (elsewhere name)

theorem insert_insert (name : String) (first second : ByteArray) :
    OrderedMap.insert (OrderedMap.insert directory name first) name second =
      OrderedMap.insert directory name second :=
  OrderedMap.ext fun key => by
    simp only [OrderedMap.find?_insert]
    split <;> rfl

theorem create_of_entry {path name : String} (here : Place.ofPath path = .entry name) :
    (Directory.access.create path).run directory = (true, directory.insert name ByteArray.empty) := by
  have stored : directory.store path ByteArray.empty = _ := store_of_entry here _
  unfold Directory.access
  rw [StateT.run_bind, StateT.run_get, pure_bind, stored]
  rfl

theorem create_of_elsewhere {path : String} (elsewhere : ∀ name, Place.ofPath path ≠ .entry name) :
    (Directory.access.create path).run directory = (false, directory) := by
  have stored : directory.store path ByteArray.empty = none := store_of_elsewhere elsewhere _
  unfold Directory.access
  rw [StateT.run_bind, StateT.run_get, pure_bind, stored]
  rfl

theorem run_bind_lift {effect : StateM Directory α} {next : α → Stage β} :
    ((liftM effect : Stage α) >>= next).run.run directory =
      (next (effect.run directory).1).run.run (effect.run directory).2 := rfl

theorem writeGraph_written (graph : Graph) (format : Format) (path : String) :
    Written directory graph format path
      ((writeGraph Directory.access graph format path).run.run directory) := by
  unfold writeGraph
  rw [run_bind_lift]
  by_cases inside : ∃ name, Place.ofPath path = .entry name
  · obtain ⟨name, here⟩ := inside
    rw [create_of_entry here]
    cases exported : exportGraph graph format with
    | error failure => exact .emptied here exported
    | ok text =>
      have stored : Directory.store (directory.insert name ByteArray.empty) path text.toUTF8 =
          some (directory.insert name text.toUTF8) := by
        rw [store_of_entry here, insert_insert]
      have result : Written directory graph format path
        (.ok (), (Directory.store (directory.insert name ByteArray.empty) path text.toUTF8).getD
          (directory.insert name ByteArray.empty)) := by
        rw [stored]
        exact .done here exported
      exact result
  · have elsewhere : ∀ name, Place.ofPath path ≠ .entry name := fun name here => inside ⟨name, here⟩
    rw [create_of_elsewhere elsewhere]
    exact .refused elsewhere

theorem runIn_of_misuse {arguments : List String}
    (misused : Invocation.ofArguments? false arguments = none) :
    runIn manual directory arguments = (.misused, directory) := by
  unfold runIn run
  rw [misused]
  rfl

theorem runIn_of_invocation {arguments : List String} {invocation : Invocation}
    (asked : Invocation.ofArguments? false arguments = some invocation) :
    runIn manual directory arguments =
      ((invocation.execute manual Directory.access).run.run directory).map Outcome.ofExcept id := by
  unfold runIn run
  rw [asked]
  rfl

theorem runIn_of_yields {arguments : List String} {invocation : Invocation} {result : Except Failure String}
    (asked : Invocation.ofArguments? false arguments = some invocation)
    (yields : Yields (invocation.execute manual Directory.access) directory result) :
    runIn manual directory arguments = (.ofExcept result, directory) := by
  rw [runIn_of_invocation asked, yields]
  rfl

theorem yields_summary (input : Input) :
    Yields (Invocation.execute manual Directory.access (.summary input)) directory
      (do return (← input.graphFrom directory.read).outline) :=
  (yields_graph input).bind fun graph => yields_of_except (.ok graph.outline)

theorem yields_build (input : Input) (name : Option String) :
    Yields (Invocation.execute manual Directory.access (.build input name none)) directory (do
      let format ← outputFormat name none
      let graph ← input.graphFrom directory.read
      exportGraph graph format) :=
  yields_bind_except fun _ => (yields_graph input).bind fun _ => yields_of_except _

/-- With an output file, nothing is written before the graph is there. -/
theorem build_run (input : Input) (name : Option String) (path : String) :
    (Invocation.execute manual Directory.access (.build input name (some path))).run.run directory =
      match outputFormat name (some path), input.graphFrom directory.read with
      | .error failure, _ => (.error failure, directory)
      | .ok _, .error failure => (.error failure, directory)
      | .ok format, .ok graph =>
        ((writeGraph Directory.access graph format path).run.run directory).map
          (Except.map fun _ => "") id := by
  refine (yields_of_except (outputFormat name (some path))).run_bind.trans ?_
  cases outputFormat name (some path) with
  | error failure => rfl
  | ok format =>
    refine (yields_graph input).run_bind.trans ?_
    cases input.graphFrom directory.read with
    | error failure => rfl
    | ok graph =>
      dsimp only
      rw [ExceptT.run_bind, StateT.run_bind]
      rcases (writeGraph Directory.access graph format path).run.run directory with ⟨failure | done, after⟩
      · rfl
      · rfl

end
end PlanGraph.Command
