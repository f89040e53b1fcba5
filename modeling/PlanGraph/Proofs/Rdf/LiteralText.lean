import PlanGraph.Rdf.LiteralText
import PlanGraph.Proofs.Rdf.IriCharacters
import PlanGraph.Proofs.Text.ReadBack

/-! The text of a literal reads as the literal. It holds for the literals that the reader gives:
their language tags are in lower case and their datatypes are absolute IRIs. -/

set_option autoImplicit false
namespace PlanGraph.Rdf
open Text

/-! ## Quoted texts -/

theorem escapeSequence?_hexDigits {char : Char} (small : char.toNat < 16 ^ 4) (rest : List Char) :
    escapeSequence? literalEscapes ('u' :: (hexDigits 4 char.toNat ++ rest)) = some (char, rest) := by
  have length : (hexDigits 4 char.toNat).length = 4 := length_hexDigits (by decide) small
  have written : (hexDigits 4 char.toNat ++ rest).take 4 = hexDigits 4 char.toNat :=
    List.take_left' length
  have following : (hexDigits 4 char.toNat ++ rest).drop 4 = rest := List.drop_left' length
  have read : codePoint? false 4 (hexDigits 4 char.toNat ++ rest) = some char := by
    simp [codePoint?, written, length, hexNumber?_hexDigits, scalar?_toNat]
  simp only [escapeSequence?, literalEscapes, numericEscape?]
  change (codePoint? false 4 (hexDigits 4 char.toNat ++ rest)).map _ = _
  rw [read, following, Option.map_some]

/-- A character stands for itself, or is read back from the escape sequence that it is written as. -/
inductive Escapes (char : Char) : List Char → Prop
  | plain : char ≠ '"' → char ≠ '\\' → Escapes char [char]
  | sequence {letter : Char} {digits : List Char} : '"' ∉ digits → '\\' ∉ digits →
      (∀ rest, escapeSequence? literalEscapes (letter :: (digits ++ rest)) = some (char, rest)) →
      Escapes char ('\\' :: letter :: digits)

theorem escapes_escapedChar (char : Char) : Escapes char (escapedChar char) := by
  unfold escapedChar
  split
  case h_8 _ _ _ _ _ quote backslash =>
    split
    · rename_i control
      have small : char.toNat < 128 := by omega
      have clear : ∀ code < 128, '"' ∉ hexDigits 4 code ∧ '\\' ∉ hexDigits 4 code := by decide
      obtain ⟨noQuote, noBackslash⟩ := clear _ small
      refine .sequence noQuote noBackslash fun rest => ?_
      exact escapeSequence?_hexDigits (Nat.lt_trans small (by decide)) rest
    · exact .plain quote backslash
  all_goals exact .sequence (by simp) (by simp) fun rest => rfl

theorem cutAtClosing?_quote (rest : List Char) :
    cutAtClosing? '\\' ['"'] ('"' :: rest) = some ([], rest) := by
  rw [cutAtClosing?.eq_def]
  simp [after?]

theorem cutAtClosing?_backslash (second : Char) (rest : List Char) :
    cutAtClosing? '\\' ['"'] ('\\' :: second :: rest) =
      (cutAtClosing? '\\' ['"'] rest).map fun halves =>
        ('\\' :: second :: halves.1, halves.2) := by
  rw [cutAtClosing?.eq_def]
  simp [after?]

theorem cutAtClosing?_cons {first : Char} (notQuote : first ≠ '"') (notBackslash : first ≠ '\\')
    (rest : List Char) :
    cutAtClosing? '\\' ['"'] (first :: rest) =
      (cutAtClosing? '\\' ['"'] rest).map fun halves => (first :: halves.1, halves.2) := by
  rw [cutAtClosing?.eq_def]
  simp [after?, notQuote.symm, notBackslash]

theorem cutAtClosing?_append {chars : List Char} (noQuote : '"' ∉ chars) (noBackslash : '\\' ∉ chars)
    (rest : List Char) :
    cutAtClosing? '\\' ['"'] (chars ++ rest) =
      (cutAtClosing? '\\' ['"'] rest).map fun halves => (chars ++ halves.1, halves.2) := by
  induction chars with
  | nil => simp
  | cons first further ih =>
    have notQuote : first ≠ '"' := fun same => noQuote (same ▸ List.mem_cons_self)
    have notBackslash : first ≠ '\\' := fun same => noBackslash (same ▸ List.mem_cons_self)
    rw [List.cons_append, cutAtClosing?_cons notQuote notBackslash,
      ih (fun inside => noQuote (List.mem_cons_of_mem first inside))
        fun inside => noBackslash (List.mem_cons_of_mem first inside), Option.map_map]
    rfl

theorem cutAtClosing?_escapes {char : Char} {written : List Char} (escapes : Escapes char written)
    (rest : List Char) :
    cutAtClosing? '\\' ['"'] (written ++ rest) =
      (cutAtClosing? '\\' ['"'] rest).map fun halves => (written ++ halves.1, halves.2) := by
  cases escapes with
  | plain notQuote notBackslash => exact cutAtClosing?_cons notQuote notBackslash rest
  | sequence noQuote noBackslash _ =>
    rw [List.cons_append, List.cons_append, cutAtClosing?_backslash,
      cutAtClosing?_append noQuote noBackslash, Option.map_map]
    rfl

theorem cutAtClosing?_quoted (value suffix : List Char) :
    cutAtClosing? '\\' ['"'] (value.flatMap escapedChar ++ '"' :: suffix) =
      some (value.flatMap escapedChar, suffix) := by
  induction value with
  | nil => exact cutAtClosing?_quote suffix
  | cons char rest ih =>
    rw [List.flatMap_cons, List.append_assoc, cutAtClosing?_escapes (escapes_escapedChar char), ih]
    rfl

theorem unescape?_escapes {char : Char} {written : List Char} (escapes : Escapes char written)
    (rest : List Char) :
    unescape? literalEscapes (written ++ rest) =
      (unescape? literalEscapes rest).map (char :: ·) := by
  cases escapes with
  | plain _ notBackslash => exact unescape?_cons notBackslash
  | sequence _ _ read => exact unescape?_escape (read rest)

theorem unescape?_quoted (value : List Char) :
    unescape? literalEscapes (value.flatMap escapedChar) = some value := by
  induction value with
  | nil => simp [unescape?]
  | cons char rest ih =>
    rw [List.flatMap_cons, unescape?_escapes (escapes_escapedChar char), ih]
    rfl

theorem readQuoted?_quoted (value suffix : List Char) :
    readQuoted? literalEscapes '"' (value.flatMap escapedChar ++ '"' :: suffix) =
      some (value, suffix) := by
  simp [readQuoted?, cutAtClosing?_quoted, unescape?_quoted]

/-! ## Language tags and datatypes -/

def isTagChar (char : Char) : Bool := char.isAlpha || char == '-'

theorem isTagChar_lt {char : Char} (allowed : isTagChar char = true) : char.toNat < 128 := by
  unfold isTagChar Char.isAlpha Char.isUpper Char.isLower at allowed
  simp only [Bool.or_eq_true, Bool.and_eq_true, decide_eq_true_eq, beq_iff_eq] at allowed
  rcases allowed with (⟨_, most⟩ | ⟨_, most⟩) | rfl
  · exact Nat.lt_of_le_of_lt most (by decide)
  · exact Nat.lt_of_le_of_lt most (by decide)
  · decide

theorem isTagChar_toLower {char : Char} (allowed : isTagChar char = true) :
    isTagChar char.toLower = true ∧ char.toLower.toLower = char.toLower := by
  refine @forall_ascii (fun char => isTagChar char = true →
    isTagChar char.toLower = true ∧ char.toLower.toLower = char.toLower) ?_ char
    (isTagChar_lt allowed) allowed
  decide

theorem isBlank_of_isTagChar {char : Char} (allowed : isTagChar char = true) :
    isBlank char = false := by
  refine @forall_ascii (fun char => isTagChar char = true → isBlank char = false) ?_ char
    (isTagChar_lt allowed) allowed
  decide

/-- The literals that are read from texts. -/
inductive Literal.IsReadable : Literal → Prop
  | simple (value : String) : IsReadable (.simple value)
  | tagged {value language : String} (letters : ∀ char ∈ language.toList, isTagChar char = true)
      (lower : language.toList.map Char.toLower = language.toList)
      (tag : isLanguageTag language.toList = true) : IsReadable (.tagged value language)
  | typed {value : String} {datatype : Iri} (absolute : isAbsoluteIri datatype.toList = true)
      (other : datatype ≠ xsdNamespace ++ "string") : IsReadable (.typed value datatype)

theorem isReadable_ofTyped {value : String} {datatype : Iri}
    (absolute : isAbsoluteIri datatype.toList = true) :
    (Literal.ofTyped value datatype).IsReadable := by
  unfold Literal.ofTyped
  split
  · exact .simple value
  · rename_i other
    exact .typed absolute other

theorem isAbsoluteIri_of_bracketedIri? {chars : List Char} {iri : Iri}
    (read : bracketedIri? chars = some iri) : isAbsoluteIri iri.toList = true := by
  unfold bracketedIri? at read
  split at read
  · split at read
    · obtain ⟨written, _, resolved⟩ := Option.bind_eq_some_iff.mp read
      obtain ⟨absolute, rfl⟩ := resolveIri?_none_eq_some_iff.mp resolved
      rwa [String.toList_ofList]
    · cases read
  · cases read

theorem isReadable_of_taggedLiteral? {value language : List Char} {literal : Literal}
    (letters : ∀ char ∈ language, isTagChar char = true)
    (read : taggedLiteral? value language = some literal) : literal.IsReadable := by
  simp only [taggedLiteral?] at read
  split at read
  · rename_i tag
    cases read
    refine .tagged ?_ ?_ (by rwa [String.toList_ofList])
    · rw [String.toList_ofList]
      exact List.forall_mem_map.mpr fun char inside => (isTagChar_toLower (letters char inside)).1
    · rw [String.toList_ofList, List.map_map]
      exact List.map_congr_left fun char inside => (isTagChar_toLower (letters char inside)).2
  · cases read

theorem isReadable_of_literalWithSuffix? {value suffix : List Char} {literal : Literal}
    (read : literalWithSuffix? value suffix = some literal) : literal.IsReadable := by
  unfold literalWithSuffix? at read
  split at read
  · cases read
    exact .simple _
  · split at read
    · rename_i letters
      exact isReadable_of_taggedLiteral? (List.all_eq_true.mp letters) read
    · cases read
  · obtain ⟨datatype, bracketed, rfl⟩ := Option.map_eq_some_iff.mp read
    exact isReadable_ofTyped (isAbsoluteIri_of_bracketedIri? bracketed)
  · cases read

theorem isReadable_of_numberLiteral? {chars : List Char} {literal : Literal}
    (read : numberLiteral? chars = some literal) : literal.IsReadable := by
  obtain ⟨datatype, found, rfl⟩ := Option.map_eq_some_iff.mp read
  obtain ⟨parts, _, named⟩ := Option.bind_eq_some_iff.mp found
  have numeric : datatype ∈ [Vocabulary.xsdDouble, Vocabulary.xsdDecimal, Vocabulary.xsdInteger] := by
    unfold NumberParts.datatype? at named
    split at named
    · simp [← Option.some.inj named]
    · obtain ⟨_, same⟩ := Option.ite_none_left_eq_some.mp named
      simp [← Option.some.inj same]
    · obtain ⟨_, same⟩ := Option.ite_none_left_eq_some.mp named
      simp [← Option.some.inj same]
  have listed : ∀ iri ∈ [Vocabulary.xsdDouble, Vocabulary.xsdDecimal, Vocabulary.xsdInteger],
      isAbsoluteIri iri.toList = true ∧ iri ≠ xsdNamespace ++ "string" := by decide
  exact .typed (listed datatype numeric).1 (listed datatype numeric).2

theorem isReadable_of_ofChars? {chars : List Char} {literal : Literal}
    (read : Literal.ofChars? chars = some literal) : literal.IsReadable := by
  unfold Literal.ofChars? at read
  split at read
  · obtain ⟨parts, _, found⟩ := Option.bind_eq_some_iff.mp read
    exact isReadable_of_literalWithSuffix? found
  · exact isReadable_of_numberLiteral? read

/-! ## Reading the text of a literal -/

theorem toList_quotedText (value : String) :
    (quotedText value).toList = '"' :: (value.toList.flatMap escapedChar ++ ['"']) := by
  simp [quotedText]

theorem toList_iriText (iri : Iri) : (iriText iri).toList = '<' :: (iri.toList ++ ['>']) := by
  simp [iriText]

def Literal.suffix : Literal → List Char
  | .simple _ => []
  | .tagged _ language => '@' :: language.toList
  | .typed _ datatype => '^' :: '^' :: (iriText datatype).toList

def Literal.value : Literal → String
  | .simple value => value
  | .tagged value _ => value
  | .typed value _ => value

theorem Literal.toList_text (literal : Literal) :
    literal.text.toList =
      '"' :: (literal.value.toList.flatMap escapedChar ++ '"' :: literal.suffix) := by
  cases literal <;> simp [Literal.text, Literal.value, Literal.suffix, toList_quotedText]

theorem bracketedIri?_iriText {iri : Iri} (absolute : isAbsoluteIri iri.toList = true) :
    bracketedIri? (iriText iri).toList = some iri := by
  have noBracket : '>' ∉ iri.toList := not_mem_of_isAbsoluteIri (by decide) absolute
  have noBackslash : '\\' ∉ iri.toList := not_mem_of_isAbsoluteIri (by decide) absolute
  have resolved : resolveIri? none iri.toList = some iri :=
    resolveIri?_none_eq_some_iff.mpr ⟨absolute, String.ofList_toList.symm⟩
  rw [toList_iriText]
  simp [bracketedIri?, cutAt?_append noBracket, unescape?_of_clear noBackslash, resolved]

theorem literalWithSuffix?_suffix {literal : Literal} (readable : literal.IsReadable) :
    literalWithSuffix? literal.value.toList literal.suffix = some literal := by
  cases readable with
  | simple value => simp [literalWithSuffix?, Literal.suffix, Literal.value, trimStart]
  | @tagged value language letters lower tag =>
    have start : trimStart ('@' :: language.toList) = '@' :: language.toList :=
      List.dropWhile_cons_of_neg (by decide)
    have all : (language.toList.all fun char => char.isAlpha || char == '-') = true :=
      List.all_eq_true.mpr letters
    simp only [literalWithSuffix?, Literal.suffix, Literal.value]
    rw [start]
    simp [all, taggedLiteral?, lower, tag]
  | @typed value datatype absolute other =>
    have start : trimStart ('^' :: '^' :: (iriText datatype).toList) =
        '^' :: '^' :: (iriText datatype).toList := List.dropWhile_cons_of_neg (by decide)
    have bracket : trimStart (iriText datatype).toList = (iriText datatype).toList := by
      rw [toList_iriText]
      exact List.dropWhile_cons_of_neg (by decide)
    simp only [literalWithSuffix?, Literal.suffix, Literal.value]
    rw [start]
    simp [bracket, bracketedIri?_iriText absolute, Literal.ofTyped, other]

theorem Literal.ofChars?_text {literal : Literal} (readable : literal.IsReadable) :
    Literal.ofChars? literal.text.toList = some literal := by
  rw [Literal.toList_text]
  simp only [Literal.ofChars?]
  rw [readQuoted?_quoted]
  exact literalWithSuffix?_suffix readable

end PlanGraph.Rdf
