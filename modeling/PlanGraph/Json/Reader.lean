import PlanGraph.Json.Token
import PlanGraph.Json.Value

/-! Reading a JSON value from its tokens. The arrays and objects that are still open stand on a
stack of frames, so any nesting is read by one pass over the tokens. -/

set_option autoImplicit false
namespace PlanGraph.Json
open Text

/-- An open array or object with its finished parts, the last one first. -/
inductive Frame
  | array (items : List Value)
  | object (members : List (Option String × Value)) (key : Option String)

inductive Expecting
  | value (frames : List Frame)
  | itemOrClose (frames : List Frame)
  | keyOrClose (frames : List Frame)
  | key (members : List (Option String × Value)) (frames : List Frame)
  | colon (members : List (Option String × Value)) (key : Option String) (frames : List Frame)
  | separator (finished : Value) (frames : List Frame)

def startValue (frames : List Frame) : Token → Option Expecting
  | .openArray => some (.itemOrClose frames)
  | .openObject => some (.keyOrClose frames)
  | .null => some (.separator .null frames)
  | .bool value => some (.separator (.bool value) frames)
  | .number digits => some (.separator (.number digits) frames)
  | .string content => some (.separator (.string content) frames)
  | _ => none

def Expecting.next : Expecting → Token → Option Expecting
  | .value frames, token => startValue frames token
  | .itemOrClose frames, .closeArray => some (.separator (.array []) frames)
  | .itemOrClose frames, token => startValue (.array [] :: frames) token
  | .keyOrClose frames, .closeObject => some (.separator (.object []) frames)
  | .keyOrClose frames, .string name => some (.colon [] name frames)
  | .key members frames, .string name => some (.colon members name frames)
  | .colon members name frames, .colon => some (.value (.object members name :: frames))
  | .separator finished (.array items :: frames), .comma =>
    some (.value (.array (finished :: items) :: frames))
  | .separator finished (.array items :: frames), .closeArray =>
    some (.separator (.array (finished :: items).reverse) frames)
  | .separator finished (.object members name :: frames), .comma =>
    some (.key ((name, finished) :: members) frames)
  | .separator finished (.object members name :: frames), .closeObject =>
    some (.separator (.object ((name, finished) :: members).reverse) frames)
  | _, _ => none

def Value.ofTokens? (tokens : List Token) : Option Value :=
  match tokens.foldlM Expecting.next (.value []) with
  | some (.separator value []) => some value
  | _ => none

def Value.ofGlyphs? (glyphs : List Glyph) : Option Value := (tokens? glyphs).bind Value.ofTokens?

end PlanGraph.Json
