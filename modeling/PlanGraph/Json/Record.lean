import PlanGraph.Json.Value

/-! Records: values with named fields, written as an object or as the array of the fields in their
order. -/

set_option autoImplicit false
namespace PlanGraph.Json

/-- How far a field may be left out: never, only by name, or also at the end of an array. -/
inductive Presence
  | required
  | optional
  | defaulted
deriving DecidableEq, Repr

structure Field where
  names : List String
  presence : Presence

def namedMembers? : List (Option String × Value) → Option (List (String × Value))
  | [] => some []
  | (none, _) :: _ => none
  | (some key, value) :: rest => (namedMembers? rest).map ((key, value) :: ·)

/-- The value that an object gives to a field. Naming a field twice is an error. -/
def Field.fromMembers? (field : Field) (members : List (String × Value)) : Option (Option Value) :=
  match members.filter fun member => field.names.contains member.1 with
  | [] => if field.presence = .required then none else some none
  | [member] => some (some member.2)
  | _ => none

def fromItems? : List Field → List Value → Option (List (Option Value))
  | [], [] => some []
  | [], _ :: _ => none
  | field :: fields, [] =>
    if field.presence = .defaulted then (fromItems? fields []).map (none :: ·) else none
  | _ :: fields, item :: items => (fromItems? fields items).map (some item :: ·)

/-- The value of each field, or `none` where it is left out. -/
def Value.record? (fields : List Field) : Value → Option (List (Option Value))
  | .object members => (namedMembers? members).bind fun named =>
      fields.mapM (·.fromMembers? named)
  | .array items => fromItems? fields items
  | _ => none

def Value.text? : Value → Option String
  | .string content => content
  | _ => none

def Value.items? : Value → Option (List Value)
  | .array items => some items
  | _ => none

def Value.bool? : Value → Option Bool
  | .bool value => some value
  | _ => none

def Value.nullable? {α : Type} (read : Value → Option α) : Value → Option (Option α)
  | .null => some none
  | value => (read value).map some

def Value.listOf? {α : Type} (read : Value → Option α) (value : Value) : Option (List α) :=
  value.items?.bind (·.mapM read)

def Value.bindings? {α : Type} (read : Value → Option α) : Value → Option (List (String × α))
  | .object members => (namedMembers? members).bind (·.mapM fun (key, value) =>
      (read value).map (key, ·))
  | _ => none

def orDefault {α : Type} (default : α) (read : Value → Option α) : Option Value → Option α
  | none => some default
  | some value => read value

end PlanGraph.Json
