/-! Values of the JSON data format. -/

set_option autoImplicit false
namespace PlanGraph.Json

/-- A JSON value. A string that holds half of a surrogate pair or a stray byte is no text and has no
content; it does no harm where a value is skipped. Numbers keep their digits. -/
inductive Value
  | null
  | bool (value : Bool)
  | number (digits : String)
  | string (content : Option String)
  | array (items : List Value)
  | object (members : List (Option String × Value))
deriving Inhabited

end PlanGraph.Json
