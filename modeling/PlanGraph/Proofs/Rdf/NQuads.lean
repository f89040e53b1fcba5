import Mathlib.Data.List.Basic
import PlanGraph.Proofs.Rdf.BlankLabel
import PlanGraph.Rdf.LiteralText

/-! The grammar of N-Quads. A text is cut into terminals, each as long as it can be, with blanks and
comments between them, and the terminals make statements on lines. A text has at most one reading. -/

set_option autoImplicit false
namespace PlanGraph.Rdf.NQuads
open Text

/-! ## Characters -/

def isSpace (char : Char) : Bool := char == ' ' || char == '\t'

def isLineEnd (char : Char) : Bool := char == '\n' || char == '\r'

/-- The printable characters that IRIs do not hold. -/
def iriRefMarks : List Char := ['<', '>', '"', '\x7b', '\x7d', '|', '^', '\x60', '\\']

def isIriRefChar (char : Char) : Bool := 0x20 < char.toNat && !(iriRefMarks.contains char)

def isQuotedChar (char : Char) : Bool := !(['"', '\\', '\n', '\r'].contains char)

/-- A character by its number: `UCHAR`. -/
inductive IsNumbered (char : Char) : List Char → Prop
  | short {digits : List Char} (four : digits.length = 4) (number : hexNumber? digits = some char.toNat) :
      IsNumbered char ('\\' :: 'u' :: digits)
  | long {digits : List Char} (eight : digits.length = 8) (number : hexNumber? digits = some char.toNat) :
      IsNumbered char ('\\' :: 'U' :: digits)

/-- A text up to a closing mark. Neither the mark nor a backslash stands for itself in it. -/
structure Quoting where
  isPlain : Char → Bool
  hasNames : Bool
  close : Char
  backslash : isPlain '\\' = false
  closing : isPlain close = false
  differs : close ≠ '\\'

def iriQuoting : Quoting := ⟨isIriRefChar, false, '>', by decide, by decide, by decide⟩

def stringQuoting : Quoting := ⟨isQuotedChar, true, '"', by decide, by decide, by decide⟩

namespace Quoting

/-- A character as it stands, or escaped. The named escapes are `ECHAR`. -/
inductive Unit (quoting : Quoting) (char : Char) : List Char → Prop
  | plain (allowed : quoting.isPlain char = true) : Unit quoting char [char]
  | named {letter : Char} (has : quoting.hasNames = true) (names : namedEscape? letter = some char) :
      Unit quoting char ['\\', letter]
  | numbered {written : List Char} (numbered : IsNumbered char written) : Unit quoting char written

inductive Writes (quoting : Quoting) : List Char → List Char → Prop
  | nil : Writes quoting [] []
  | cons {char : Char} {chars written text : List Char} (first : quoting.Unit char written)
      (rest : Writes quoting chars text) : Writes quoting (char :: chars) (written ++ text)

end Quoting

/-! ## Terminals -/

inductive Terminal
  | iri (name : Iri)
  | blank (label : String)
  | string (value : String)
  | language (tag : String)
  | datatypeMark
  | stop
  | lineEnd
deriving DecidableEq, Repr

def IsWord (isPart : Char → Bool) (word : List Char) : Prop := word ≠ [] ∧ word.all isPart = true

instance (isPart : Char → Bool) (word : List Char) : Decidable (IsWord isPart word) :=
  inferInstanceAs (Decidable (_ ∧ _))

/-- `LANGTAG` behind its mark: letters, then subtags of letters and digits. -/
def IsTag (tag : List Char) : Prop :=
  ∃ (primary : List Char) (subtags : List (List Char)), tag = primary ++ subtags.flatMap ('-' :: ·) ∧
    IsWord Char.isAlpha primary ∧ ∀ subtag ∈ subtags, IsWord Char.isAlphanum subtag

inductive Spells : Terminal → List Char → Prop
  | iri {name : Iri} {text : List Char} (writes : iriQuoting.Writes name.toList text) :
      Spells (.iri name) ('<' :: (text ++ ['>']))
  | blank {label : String} (valid : IsBlankLabel isNQuadsLetter label.toList) :
      Spells (.blank label) ('_' :: ':' :: label.toList)
  | string {value : String} {text : List Char} (writes : stringQuoting.Writes value.toList text) :
      Spells (.string value) ('"' :: (text ++ ['"']))
  | language {tag : String} (valid : IsTag tag.toList) : Spells (.language tag) ('@' :: tag.toList)
  | datatypeMark : Spells .datatypeMark ['^', '^']
  | stop : Spells .stop ['.']
  | lineEnd {first : Char} {rest : List Char} (ends : ∀ char ∈ first :: rest, isLineEnd char = true) :
      Spells .lineEnd (first :: rest)

/-- No terminal takes more of the text than the lexeme does. -/
def Longest (lexeme text : List Char) : Prop :=
  ∀ terminal longer, Spells terminal longer → longer <+: lexeme ++ text → longer.length ≤ lexeme.length

/-- The terminals of a text. A comment goes up to the end of its line. -/
inductive Lexes : List Char → List Terminal → Prop
  | nil : Lexes [] []
  | space {char : Char} {text : List Char} {terminals : List Terminal} (blank : isSpace char = true)
      (rest : Lexes text terminals) : Lexes (char :: text) terminals
  | comment {inside text : List Char} {terminals : List Terminal}
      (line : ∀ char ∈ inside, isLineEnd char = false) (ends : ∀ first ∈ text.head?, isLineEnd first = true)
      (rest : Lexes text terminals) : Lexes ('#' :: (inside ++ text)) terminals
  | terminal {terminal : Terminal} {lexeme text : List Char} {terminals : List Terminal}
      (spells : Spells terminal lexeme) (longest : Longest lexeme text) (rest : Lexes text terminals) :
      Lexes (lexeme ++ text) (terminal :: terminals)

/-! ## Documents -/

/-- What may be a subject or the name of a graph. The IRIs of a document are absolute. -/
inductive IsNode : Terminal → Term → Prop
  | iri {name : Iri} (absolute : isAbsoluteIri name.toList = true) : IsNode (.iri name) (.iri name)
  | blank (label : String) : IsNode (.blank label) (.blank label)

inductive IsObject : List Terminal → Term → Prop
  | node {terminal : Terminal} {term : Term} (node : IsNode terminal term) : IsObject [terminal] term
  | simple (value : String) : IsObject [.string value] (.literal (.simple value))
  | tagged (value tag : String) : IsObject [.string value, .language tag] (.literal (.tagged value tag))
  | typed (value : String) {datatype : Iri} (absolute : isAbsoluteIri datatype.toList = true) :
      IsObject [.string value, .datatypeMark, .iri datatype] (.literal (.ofTyped value datatype))

inductive IsGraphLabel : List Terminal → Option Term → Prop
  | default : IsGraphLabel [] none
  | named {terminal : Terminal} {term : Term} (node : IsNode terminal term) :
      IsGraphLabel [terminal] (some term)

inductive IsStatement : List Terminal → Quad → Prop
  | mk {first : Terminal} {value place : List Terminal} {subject object : Term} {predicate : Iri}
      {graph : Option Term} (about : IsNode first subject)
      (absolute : isAbsoluteIri predicate.toList = true) (tells : IsObject value object)
      (belongs : IsGraphLabel place graph) :
      IsStatement (first :: .iri predicate :: (value ++ place)) ⟨subject, predicate, object, graph⟩

/-- Further lines after what stands before them. The last line need not be ended. -/
inductive AreLines : List Terminal → List Quad → Prop
  | nothing : AreLines [] []
  | lineEnd : AreLines [.lineEnd] []
  | cons {statement terminals : List Terminal} {quad : Quad} {quads : List Quad}
      (first : IsStatement statement quad) (rest : AreLines terminals quads) :
      AreLines (.lineEnd :: (statement ++ .stop :: terminals)) (quad :: quads)

inductive IsDocument : List Terminal → List Quad → Prop
  | lines {terminals : List Terminal} {quads : List Quad} (lines : AreLines terminals quads) :
      IsDocument terminals quads
  | cons {statement terminals : List Terminal} {quad : Quad} {quads : List Quad}
      (first : IsStatement statement quad) (rest : AreLines terminals quads) :
      IsDocument (statement ++ .stop :: terminals) (quad :: quads)

def Reads (text : String) (quads : List Quad) : Prop :=
  ∃ terminals, Lexes text.toList terminals ∧ IsDocument terminals quads

/-! ## Terminals are read in one way -/

theorem IsNumbered.unique {char other : Char} {written again rest more : List Char}
    (first : IsNumbered char written) (second : IsNumbered other again)
    (same : written ++ rest = again ++ more) : char = other ∧ rest = more := by
  have equal {digits others : List Char} (number : hexNumber? digits = some char.toNat)
      (also : hexNumber? others = some other.toNat) (lengths : digits.length = others.length)
      (texts : digits ++ rest = others ++ more) : char = other ∧ rest = more := by
    obtain ⟨rfl, rfl⟩ := List.append_inj texts lengths
    exact ⟨Char.toNat_inj.mp (Option.some.inj (number.symm.trans also)), rfl⟩
  cases first with
  | short four number =>
    cases second with
    | short again also => exact equal number also (four.trans again.symm) (by simpa using same)
    | long => simp at same
  | long eight number =>
    cases second with
    | short => simp at same
    | long again also => exact equal number also (eight.trans again.symm) (by simpa using same)

theorem IsNumbered.starts {char : Char} {written : List Char} (numbered : IsNumbered char written) :
    ∃ letter digits, written = '\\' :: letter :: digits ∧ namedEscape? letter = none := by
  cases numbered with
  | short => exact ⟨_, _, rfl, rfl⟩
  | long => exact ⟨_, _, rfl, rfl⟩

namespace Quoting
variable {quoting : Quoting} {char other : Char} {written again rest more : List Char}

theorem Unit.plain_or_escaped (unit : quoting.Unit char written) :
    quoting.isPlain char = true ∧ written = [char] ∨ ∃ letter digits, written = '\\' :: letter :: digits := by
  cases unit with
  | plain allowed => exact Or.inl ⟨allowed, rfl⟩
  | named => exact Or.inr ⟨_, _, rfl⟩
  | numbered numbered =>
    obtain ⟨letter, digits, rfl, _⟩ := numbered.starts
    exact Or.inr ⟨letter, digits, rfl⟩

/-- What starts with a plain character is not what starts with an escape. -/
theorem Unit.plain_of_plain (unit : quoting.Unit other again) (allowed : quoting.isPlain char = true)
    (same : [char] ++ rest = again ++ more) : char = other ∧ rest = more := by
  rcases unit.plain_or_escaped with ⟨_, rfl⟩ | ⟨letter, digits, rfl⟩
  · simpa using same
  · obtain ⟨rfl, _⟩ := List.cons.inj same
    exact absurd allowed (by rw [quoting.backslash]; decide)

theorem Unit.unique (first : quoting.Unit char written) (second : quoting.Unit other again)
    (same : written ++ rest = again ++ more) : char = other ∧ rest = more := by
  cases first with
  | plain allowed => exact second.plain_of_plain allowed same
  | named has names =>
    cases second with
    | plain allowed => exact (Unit.named has names).plain_of_plain allowed same.symm |>.imp Eq.symm Eq.symm
    | named _ alsoNames =>
      obtain ⟨rfl, later⟩ := List.cons.inj (List.cons.inj same).2
      exact ⟨Option.some.inj (names.symm.trans alsoNames), later⟩
    | numbered numbered =>
      obtain ⟨letter, digits, rfl, nameless⟩ := numbered.starts
      obtain ⟨rfl, _⟩ := List.cons.inj (List.cons.inj same).2
      cases nameless.symm.trans names
  | numbered numbered =>
    cases second with
    | plain allowed => exact (Unit.numbered numbered).plain_of_plain allowed same.symm |>.imp Eq.symm Eq.symm
    | named _ names =>
      obtain ⟨letter, digits, rfl, nameless⟩ := numbered.starts
      obtain ⟨rfl, _⟩ := List.cons.inj (List.cons.inj same).2
      cases nameless.symm.trans names
    | numbered also => exact numbered.unique also same

theorem Unit.not_closed (unit : quoting.Unit char written) : written ++ rest ≠ quoting.close :: more := by
  intro same
  rcases unit.plain_or_escaped with ⟨allowed, rfl⟩ | ⟨letter, digits, rfl⟩
  · obtain ⟨rfl, _⟩ := List.cons.inj same
    rw [quoting.closing] at allowed
    cases allowed
  · exact quoting.differs (List.cons.inj same).1.symm

theorem Writes.unique {chars others text also : List Char} (first : quoting.Writes chars text)
    (second : quoting.Writes others also)
    (same : text ++ quoting.close :: rest = also ++ quoting.close :: more) : chars = others ∧ text = also := by
  induction first generalizing others also with
  | nil =>
    cases second with
    | nil => exact ⟨rfl, rfl⟩
    | cons unit _ =>
      rw [List.append_assoc] at same
      exact absurd same.symm unit.not_closed
  | cons unit _ ih =>
    cases second with
    | nil =>
      rw [List.append_assoc] at same
      exact absurd same unit.not_closed
    | cons otherUnit otherRest =>
      rw [List.append_assoc, List.append_assoc] at same
      obtain ⟨rfl, later⟩ := unit.unique otherUnit same
      rw [later] at same
      obtain ⟨rfl, rfl⟩ := ih otherRest later
      exact ⟨rfl, congrArg (· ++ _) (List.append_cancel_right same)⟩

end Quoting

/-! Every lexeme tells its terminal. -/

inductive Kind
  | iri
  | blank
  | string
  | language
  | datatypeMark
  | stop
  | lineEnd

def Terminal.kind : Terminal → Kind
  | .iri _ => .iri
  | .blank _ => .blank
  | .string _ => .string
  | .language _ => .language
  | .datatypeMark => .datatypeMark
  | .stop => .stop
  | .lineEnd => .lineEnd

def kindAt (char : Char) : Option Kind :=
  if isLineEnd char then some .lineEnd
  else
    match char with
    | '<' => some .iri
    | '_' => some .blank
    | '"' => some .string
    | '@' => some .language
    | '^' => some .datatypeMark
    | '.' => some .stop
    | _ => none

section
variable {terminal other : Terminal} {lexeme longer text : List Char}

theorem Spells.starts (spells : Spells terminal lexeme) :
    ∃ first rest, lexeme = first :: rest ∧ kindAt first = some terminal.kind := by
  cases spells with
  | @lineEnd first rest ends =>
    refine ⟨first, rest, rfl, ?_⟩
    unfold kindAt
    exact if_pos (ends first List.mem_cons_self)
  | _ => exact ⟨_, _, rfl, rfl⟩

theorem Spells.kind_eq {rest more : List Char} (spells : Spells terminal lexeme) (also : Spells other longer)
    (same : lexeme ++ rest = longer ++ more) : terminal.kind = other.kind := by
  obtain ⟨first, behind, rfl, kind⟩ := spells.starts
  obtain ⟨start, follows, rfl, otherKind⟩ := also.starts
  obtain ⟨rfl, _⟩ := List.cons.inj same
  exact Option.some.inj (kind.symm.trans otherKind)

theorem Spells.unique (spells : Spells terminal lexeme) (also : Spells other lexeme) : terminal = other := by
  -- The kind of a terminal is known by its first character.
  have kinds := spells.kind_eq also (Eq.refl (lexeme ++ []))
  generalize same : lexeme = again at also
  cases spells with
  | iri writes =>
    cases also with
    | iri again =>
      have names := (writes.unique again (List.cons.inj same).2).1
      rw [String.toList_inj.mp names]
    | _ => cases kinds
  | blank =>
    cases also with
    | blank => rw [String.toList_inj.mp (List.cons.inj (List.cons.inj same).2).2]
    | _ => cases kinds
  | string writes =>
    cases also with
    | string again =>
      have values := (writes.unique again (List.cons.inj same).2).1
      rw [String.toList_inj.mp values]
    | _ => cases kinds
  | language =>
    cases also with
    | language => rw [String.toList_inj.mp (List.cons.inj same).2]
    | _ => cases kinds
  | datatypeMark =>
    cases also with
    | datatypeMark => rfl
    | _ => cases kinds
  | stop =>
    cases also with
    | stop => rfl
    | _ => cases kinds
  | lineEnd =>
    cases also with
    | lineEnd => rfl
    | _ => cases kinds

end

/-! ## A text has one reading -/

section
variable {terminal : Terminal} {terminals others : List Terminal} {char : Char} {inside text : List Char}

theorem kindAt_of_isSpace (blank : isSpace char = true) : kindAt char = none ∧ char ≠ '#' := by
  simp only [isSpace, Bool.or_eq_true, beq_iff_eq] at blank
  rcases blank with rfl | rfl <;> exact ⟨rfl, by decide⟩

theorem takeWhile_comment (line : ∀ char ∈ inside, isLineEnd char = false)
    (ends : ∀ first ∈ text.head?, isLineEnd first = true) :
    (inside ++ text).takeWhile (!isLineEnd ·) = inside := by
  rw [List.takeWhile_append_of_pos fun char member => by rw [line char member]; rfl]
  cases text with
  | nil => simp
  | cons first rest => simp [ends first rfl]

theorem Lexes.eq_nil (lexes : Lexes [] terminals) : terminals = [] := by
  generalize same : ([] : List Char) = text at lexes
  cases lexes with
  | nil => rfl
  | terminal spells =>
    obtain ⟨first, rest, rfl, _⟩ := spells.starts
    cases same
  | _ => cases same

theorem Lexes.after_space (lexes : Lexes (char :: text) terminals) (blank : isSpace char = true) :
    Lexes text terminals := by
  obtain ⟨kindless, differs⟩ := kindAt_of_isSpace blank
  generalize same : char :: text = whole at lexes
  cases lexes with
  | nil => cases same
  | space _ rest =>
    cases same
    exact rest
  | comment => exact absurd (List.cons.inj same).1 differs
  | terminal spells =>
    obtain ⟨first, rest, rfl, kind⟩ := spells.starts
    rw [← (List.cons.inj same).1, kindless] at kind
    cases kind

theorem Lexes.after_comment (lexes : Lexes ('#' :: (inside ++ text)) terminals)
    (line : ∀ char ∈ inside, isLineEnd char = false)
    (ends : ∀ first ∈ text.head?, isLineEnd first = true) : Lexes text terminals := by
  generalize same : '#' :: (inside ++ text) = whole at lexes
  cases lexes with
  | nil => cases same
  | space blank =>
    rw [← (List.cons.inj same).1] at blank
    cases blank
  | @comment chars later _ otherLine otherEnds rest =>
    -- A comment goes up to the end of its line, so the two are the same.
    have texts := (List.cons.inj same).2
    have spans := congrArg (List.takeWhile (!isLineEnd ·)) texts
    rw [takeWhile_comment line ends, takeWhile_comment otherLine otherEnds] at spans
    rw [spans] at texts
    exact List.append_cancel_left texts ▸ rest
  | terminal spells =>
    obtain ⟨first, rest, rfl, kind⟩ := spells.starts
    rw [← (List.cons.inj same).1] at kind
    cases kind

theorem Lexes.after_terminal {lexeme : List Char} (lexes : Lexes (lexeme ++ text) terminals)
    (spells : Spells terminal lexeme) (longest : Longest lexeme text) :
    ∃ rest, terminals = terminal :: rest ∧ Lexes text rest := by
  obtain ⟨first, behind, whole, kind⟩ := spells.starts
  generalize same : lexeme ++ text = given at lexes
  cases lexes with
  | nil =>
    rw [whole] at same
    cases same
  | space blank =>
    rw [whole] at same
    rw [← (List.cons.inj same).1] at blank
    rw [(kindAt_of_isSpace blank).1] at kind
    cases kind
  | comment =>
    rw [whole] at same
    rw [(List.cons.inj same).1] at kind
    cases kind
  | @terminal other again later rest otherSpells otherLongest lexes =>
    -- Neither lexeme can be the longer one.
    have lengths : lexeme.length = again.length :=
      Nat.le_antisymm (otherLongest _ _ spells (same ▸ List.prefix_append _ _))
        (longest _ _ otherSpells (same ▸ List.prefix_append _ _))
    obtain ⟨rfl, rfl⟩ := List.append_inj same lengths
    cases spells.unique otherSpells
    exact ⟨rest, rfl, lexes⟩

theorem Lexes.unique (first : Lexes text terminals) (second : Lexes text others) : terminals = others := by
  induction first generalizing others with
  | nil => exact second.eq_nil.symm
  | space blank _ ih => exact ih (second.after_space blank)
  | comment line ends _ ih => exact ih (second.after_comment line ends)
  | terminal spells longest _ ih =>
    obtain ⟨rest, rfl, lexes⟩ := second.after_terminal spells longest
    rw [ih lexes]

end

section
variable {terminals others : List Terminal}

theorem IsNode.unique {terminal : Terminal} {first second : Term} (node : IsNode terminal first)
    (also : IsNode terminal second) : first = second := by
  cases node with
  | iri => cases also; rfl
  | blank => cases also; rfl

theorem IsGraphLabel.unique {place : List Terminal} {first second : Option Term}
    (belongs : IsGraphLabel place first) (also : IsGraphLabel place second) : first = second := by
  cases belongs with
  | default =>
    cases also
    rfl
  | named node =>
    cases also with
    | named again => rw [node.unique again]

theorem IsGraphLabel.node {first : Terminal} {rest : List Terminal} {graph : Option Term}
    (belongs : IsGraphLabel (first :: rest) graph) : ∃ term, IsNode first term := by
  cases belongs with
  | named node => exact ⟨_, node⟩

theorem IsObject.unique {value place otherValue otherPlace : List Terminal} {object other : Term}
    {graph otherGraph : Option Term} (tells : IsObject value object) (belongs : IsGraphLabel place graph)
    (alsoTells : IsObject otherValue other) (alsoBelongs : IsGraphLabel otherPlace otherGraph)
    (same : value ++ place = otherValue ++ otherPlace) : object = other ∧ graph = otherGraph := by
  cases tells with
  | node node =>
    cases alsoTells with
    | node again =>
      cases same
      exact ⟨node.unique again, belongs.unique alsoBelongs⟩
    | _ =>
      cases same
      cases node
  | simple =>
    cases alsoTells with
    | node node =>
      cases same
      cases node
    | simple =>
      cases same
      exact ⟨rfl, belongs.unique alsoBelongs⟩
    -- A tag or a datatype would have to name the graph.
    | _ =>
      cases same
      obtain ⟨_, node⟩ := belongs.node
      cases node
  | tagged =>
    cases alsoTells with
    | node node =>
      cases same
      cases node
    | simple =>
      cases same
      obtain ⟨_, node⟩ := alsoBelongs.node
      cases node
    | tagged =>
      cases same
      exact ⟨rfl, belongs.unique alsoBelongs⟩
    | typed => cases same
  | typed =>
    cases alsoTells with
    | node node =>
      cases same
      cases node
    | simple =>
      cases same
      obtain ⟨_, node⟩ := alsoBelongs.node
      cases node
    | tagged => cases same
    | typed =>
      cases same
      exact ⟨rfl, belongs.unique alsoBelongs⟩

theorem IsStatement.unique {statement : List Terminal} {first second : Quad}
    (tells : IsStatement statement first) (also : IsStatement statement second) : first = second := by
  cases tells with
  | mk about absolute tells belongs =>
    generalize same : _ :: _ = whole at also
    cases also with
    | mk alsoAbout alsoAbsolute alsoTells alsoBelongs =>
      simp only [List.cons.injEq, Terminal.iri.injEq] at same
      obtain ⟨rfl, rfl, later⟩ := same
      obtain ⟨rfl, rfl⟩ := tells.unique belongs alsoTells alsoBelongs later
      rw [about.unique alsoAbout]

theorem IsNode.ne_mark {terminal : Terminal} {term : Term} (node : IsNode terminal term) :
    terminal ≠ .stop ∧ terminal ≠ .lineEnd := by
  cases node <;> exact ⟨Terminal.noConfusion, Terminal.noConfusion⟩

theorem IsStatement.not_stop {statement : List Terminal} {quad : Quad} (tells : IsStatement statement quad) :
    .stop ∉ statement := by
  cases tells with
  | @mk first value place _ _ _ _ about _ tells belongs =>
    have noValue : .stop ∉ value := by
      cases tells with
      | node node => simpa using node.ne_mark.1.symm
      | _ => simp
    have noPlace : .stop ∉ place := by
      cases belongs with
      | default => simp
      | named node => simpa using node.ne_mark.1.symm
    simp [about.ne_mark.1.symm, noValue, noPlace]

theorem append_stop_inj {first second rest more : List Terminal} (clear : .stop ∉ first)
    (alsoClear : .stop ∉ second) (same : first ++ .stop :: rest = second ++ .stop :: more) :
    first = second ∧ rest = more := by
  -- What the longer of the two has more would start with the stop.
  rcases List.append_eq_append_iff.mp same with ⟨middle, rfl, later⟩ | ⟨middle, rfl, later⟩
  · cases middle with
    | nil => simpa using later
    | cons mark behind =>
      cases later
      simp at alsoClear
  · cases middle with
    | nil => simpa [eq_comm] using later
    | cons mark behind =>
      cases later
      simp at clear

theorem IsStatement.split {statement again rest more : List Terminal} {first second : Quad}
    (tells : IsStatement statement first) (also : IsStatement again second)
    (same : statement ++ .stop :: rest = again ++ .stop :: more) : first = second ∧ rest = more := by
  obtain ⟨rfl, later⟩ := append_stop_inj tells.not_stop also.not_stop same
  exact ⟨tells.unique also, later⟩

theorem AreLines.unique {first second : List Quad} (lines : AreLines terminals first)
    (also : AreLines terminals second) : first = second := by
  induction lines generalizing second with
  | nothing =>
    cases also
    rfl
  | lineEnd =>
    generalize same : [Terminal.lineEnd] = whole at also
    cases also with
    | nothing => cases same
    | lineEnd => rfl
    | cons => simp at same
  | cons tells _ ih =>
    generalize same : Terminal.lineEnd :: _ = whole at also
    cases also with
    | nothing => cases same
    | lineEnd => simp at same
    | cons alsoTells rest =>
      obtain ⟨rfl, rfl⟩ := tells.split alsoTells (List.cons.inj same).2
      rw [ih rest]

theorem AreLines.not_statement {statement rest : List Terminal} {quad : Quad} {quads : List Quad}
    (lines : AreLines (statement ++ .stop :: rest) quads) : ¬IsStatement statement quad := by
  intro tells
  cases tells with
  | mk about =>
    generalize same : _ ++ Terminal.stop :: rest = whole at lines
    -- Further lines are none, or they start with the end of a line; no statement does.
    cases lines with
    | nothing => cases same
    | lineEnd => exact about.ne_mark.2 (List.cons.inj same).1
    | cons => exact about.ne_mark.2 (List.cons.inj same).1

theorem IsDocument.unique {first second : List Quad} (document : IsDocument terminals first)
    (also : IsDocument terminals second) : first = second := by
  generalize same : terminals = whole at also
  cases document with
  | lines lines =>
    -- A document without a first statement starts with the end of a line, or is empty.
    cases also with
    | lines again =>
      subst same
      exact lines.unique again
    | cons tells => exact absurd tells (same ▸ lines).not_statement
  | cons tells rest =>
    cases also with
    | lines lines => exact absurd tells (same ▸ lines).not_statement
    | cons alsoTells later =>
      obtain ⟨rfl, rfl⟩ := tells.split alsoTells same
      rw [rest.unique later]

end

/-- A text is a document of one list of quads at most. -/
theorem Reads.unique {text : String} {first second : List Quad} (reads : Reads text first)
    (also : Reads text second) : first = second := by
  obtain ⟨terminals, lexes, document⟩ := reads
  obtain ⟨others, alsoLexes, alsoDocument⟩ := also
  cases lexes.unique alsoLexes
  exact document.unique alsoDocument

end PlanGraph.Rdf.NQuads
