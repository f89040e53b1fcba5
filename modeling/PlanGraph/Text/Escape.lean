import PlanGraph.Text.CharClass
import PlanGraph.Text.Split

/-! Escape sequences of the RDF formats: what follows a backslash, and the text after it. -/

set_option autoImplicit false
namespace PlanGraph.Text

structure EscapeRules where
  /-- Whether letters and quotes may follow a backslash as well. -/
  named : Bool
  /-- Whether a plus sign may precede the digits of a number. -/
  signed : Bool
deriving DecidableEq, Repr

/-- A `u` with a number of four characters or a `U` with one of eight. -/
def numericEscape? (signed : Bool) : List Char → Option (Char × List Char)
  | 'u' :: rest => (codePoint? signed 4 rest).map fun char => (char, rest.drop 4)
  | 'U' :: rest => (codePoint? signed 8 rest).map fun char => (char, rest.drop 8)
  | _ => none

def namedEscape? : Char → Option Char
  | 't' => some '\t'
  | 'b' => some '\x08'
  | 'n' => some '\n'
  | 'r' => some '\r'
  | 'f' => some '\x0c'
  | '"' => some '"'
  | '\x27' => some '\x27'
  | '\\' => some '\\'
  | _ => none

def escapeSequence? (rules : EscapeRules) (chars : List Char) : Option (Char × List Char) :=
  match if rules.named then chars.head?.bind namedEscape? else none with
  | some char => some (char, chars.tail)
  | none => numericEscape? rules.signed chars

theorem length_of_numericEscape? {signed : Bool} {chars rest : List Char} {char : Char}
    (read : numericEscape? signed chars = some (char, rest)) : rest.length < chars.length := by
  unfold numericEscape? at read
  split at read
  · obtain ⟨_, _, same⟩ := Option.map_eq_some_iff.mp read
    simp only [Prod.mk.injEq] at same
    simp only [← same.2, List.length_drop, List.length_cons]
    omega
  · obtain ⟨_, _, same⟩ := Option.map_eq_some_iff.mp read
    simp only [Prod.mk.injEq] at same
    simp only [← same.2, List.length_drop, List.length_cons]
    omega
  · exact absurd read (by simp)

theorem length_of_escapeSequence? {rules : EscapeRules} {chars rest : List Char} {char : Char}
    (read : escapeSequence? rules chars = some (char, rest)) : rest.length < chars.length := by
  unfold escapeSequence? at read
  split at read
  · rename_i found
    cases chars with
    | nil => simp at found
    | cons first tail => simp at read; simp [read.2]
  · exact length_of_numericEscape? read

def unescape? (rules : EscapeRules) (chars : List Char) : Option (List Char) :=
  match chars with
  | [] => some []
  | '\\' :: rest =>
    match read : escapeSequence? rules rest with
    | some (char, following) =>
      have : following.length < rest.length := length_of_escapeSequence? read
      (unescape? rules following).map (char :: ·)
    | none => none
  | char :: rest => (unescape? rules rest).map (char :: ·)
termination_by chars.length
decreasing_by all_goals simp_wf; try omega

def readQuoted? (rules : EscapeRules) (quote : Char) (chars : List Char) :
    Option (List Char × List Char) :=
  (cutAtClosing? '\\' [quote] chars).bind fun (written, rest) =>
    (unescape? rules written).map fun content => (content, rest)

end PlanGraph.Text
