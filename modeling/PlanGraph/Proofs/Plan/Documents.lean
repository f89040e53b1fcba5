import Mathlib.Algebra.Group.Int.Defs
import Mathlib.Algebra.Group.Nat.Defs
import PlanGraph.Plan.Document
import PlanGraph.Proofs.Json.Records

/-! How the documents of plans are spelled as JSON values. Every spelling reads as the document. -/

set_option autoImplicit false
namespace PlanGraph.Document
open Json Text

/-! ## Identifiers -/

/-- An identifier is a text, or an integer of 64 bits if it is the decimal form of one. -/
inductive IdSpelling (id : String) : Value → Prop
  | text : IdSpelling id (.string (some id))
  | integer {number : Int} (least : -2 ^ 63 ≤ number) (most : number < 2 ^ 63)
      (decimal : id = toString number) : IdSpelling id (.number id)

theorem decimalValue_eq (digits : List Char) : decimalValue digits = Nat.ofDigitChars 10 digits 0 := by
  simp only [decimalValue, Nat.ofDigitChars_eq_foldl, Nat.mul_comm]

theorem decimalValue_toDigits (number : Nat) : decimalValue (Nat.toDigits 10 number) = number := by
  rw [decimalValue_eq, Nat.ofDigitChars_ten_toDigits]

theorem all_isDigit_toDigits (number : Nat) : (Nat.toDigits 10 number).all Char.isDigit = true :=
  List.all_eq_true.mpr fun _ inside => Nat.isDigit_of_mem_toDigits (by decide) (by decide) inside

theorem toList_toString (number : Nat) : (toString number).toList = Nat.toDigits 10 number := by
  rw [Nat.toString_eq_repr, Nat.toList_repr]

theorem integerText?_natural {number : Nat} (most : number < 2 ^ 63) :
    integerText? (toString number) = some (toString number) := by
  have digits := all_isDigit_toDigits number
  have bound : decimalValue (Nat.toDigits 10 number) < Nat.pow 2 63 := by
    rw [decimalValue_toDigits]
    exact most
  simp only [integerText?, toList_toString]
  split
  · rename_i signed
    -- Digits do not start with a minus.
    rw [signed] at digits
    cases digits
  · rw [digits, decide_eq_true bound]
    rfl

theorem integerText?_negative {number : Nat} (positive : 0 < number) (most : number ≤ 2 ^ 63) :
    integerText? ("-" ++ toString number) = some ("-" ++ toString number) := by
  have written : ("-" ++ toString number).toList = '-' :: Nat.toDigits 10 number := by
    rw [String.toList_append, toList_toString]
    rfl
  have bound : number ≤ Nat.pow 2 63 := most
  simp only [integerText?, written, all_isDigit_toDigits, decimalValue_toDigits, positive, bound,
    decide_true, Bool.and_self, if_true]

theorem integerText?_toString {number : Int} (least : -2 ^ 63 ≤ number) (most : number < 2 ^ 63) :
    integerText? (toString number) = some (toString number) := by
  cases number with
  | ofNat number => exact integerText?_natural (Int.ofNat_lt.mp most)
  | negSucc number => exact integerText?_negative (Nat.succ_pos number) (by omega)

theorem undoes_id : Undoes id? IdSpelling := by
  intro id value spelled
  cases spelled with
  | text => rfl
  | integer least most decimal =>
    rw [decimal]
    exact integerText?_toString least most

/-! ## Structures -/

def stepFields : List Field := [⟨["property"], .required⟩, ⟨["type"], .required⟩]

def cycleFields : List Field := [⟨["cycle", "id"], .required⟩, ⟨["steps"], .required⟩]

def pathFields : List Field :=
  [⟨["steps"], .defaulted⟩, ⟨["seeds"], .defaulted⟩, ⟨["check"], .optional⟩]

def hintsFields : List Field := [⟨["check"], .optional⟩]

def entryFields : List Field :=
  [⟨["context"], .required⟩, ⟨["pattern"], .required⟩, ⟨["hints"], .defaulted⟩,
    ⟨["cycles"], .defaulted⟩, ⟨["paths"], .defaulted⟩]

def planFields : List Field := [⟨["prefixes"], .defaulted⟩, ⟨["entries", "plan"], .required⟩]

inductive Step.Spelling (step : Step) (value : Value) : Prop
  | mk {property type : Value} (propertyText : TextSpelling step.property property)
      (typeText : TextSpelling step.type type)
      (record : RecordSpelling stepFields [some property, some type] value)

inductive Cycle.Spelling (cycle : Cycle) (value : Value) : Prop
  | mk {id steps : Value} (idSpelled : IdSpelling cycle.id id)
      (stepsSpelled : ListSpelling Step.Spelling cycle.steps steps)
      (record : RecordSpelling cycleFields [some id, some steps] value)

/-- Whether to check is left out, `null`, or a truth value. -/
def CheckSpelling : Option Bool → Option Value → Prop :=
  DefaultSpelling none (NullableSpelling BoolSpelling)

inductive Path.Spelling (path : Path) (value : Value) : Prop
  | mk {steps seeds check : Option Value}
      (stepsSpelled : DefaultSpelling [] (ListSpelling Step.Spelling) path.steps steps)
      (seedsSpelled : DefaultSpelling [] (ListSpelling TextSpelling) path.seeds seeds)
      (checkSpelled : CheckSpelling path.check check)
      (record : RecordSpelling pathFields [steps, seeds, check] value)

inductive HintsSpelling (check : Option Bool) (value : Value) : Prop
  | mk {field : Option Value} (spelled : CheckSpelling check field)
      (record : RecordSpelling hintsFields [field] value)

inductive Entry.Spelling (entry : Entry) (value : Value) : Prop
  | mk {context pattern : Value} {hints cycles paths : Option Value}
      (contextSpelled : IdSpelling entry.context context)
      (patternSpelled :
        ListSpelling TextSpelling [entry.subject, entry.predicate, entry.object] pattern)
      (hintsSpelled : DefaultSpelling none HintsSpelling entry.check hints)
      (cyclesSpelled : DefaultSpelling [] (ListSpelling Cycle.Spelling) entry.cycles cycles)
      (pathsSpelled : DefaultSpelling [] (ListSpelling Path.Spelling) entry.paths paths)
      (record : RecordSpelling entryFields [some context, some pattern, hints, cycles, paths] value)

inductive Spelling (document : Document) (value : Value) : Prop
  | mk {prefixes : Option Value} {entries : Value}
      (prefixesSpelled : DefaultSpelling [] (BindingsSpelling TextSpelling) document.prefixes prefixes)
      (entriesSpelled : ListSpelling Entry.Spelling document.entries entries)
      (record : RecordSpelling planFields [prefixes, some entries] value)

theorem undoes_step : Undoes Step.ofValue? Step.Spelling := by
  rintro step value ⟨property, type, record⟩
  have found := record?_of_spelling (by decide) record
  simp only [stepFields] at found
  simp [Step.ofValue?, found, undoes_text _ _ property, undoes_text _ _ type]

theorem undoes_cycle : Undoes Cycle.ofValue? Cycle.Spelling := by
  rintro cycle value ⟨id, steps, record⟩
  have found := record?_of_spelling (by decide) record
  simp only [cycleFields] at found
  simp [Cycle.ofValue?, found, undoes_id _ _ id, undoes_step.listOf _ _ steps]

theorem check?_of_spelling {check : Option Bool} {field : Option Value}
    (spelled : CheckSpelling check field) : check? field = some check :=
  (undoes_bool.nullable rfl).orDefault spelled

theorem undoes_path : Undoes Path.ofValue? Path.Spelling := by
  rintro path value ⟨steps, seeds, check, record⟩
  have found := record?_of_spelling (by decide) record
  simp only [pathFields] at found
  simp [Path.ofValue?, found, undoes_step.listOf.orDefault steps, undoes_text.listOf.orDefault seeds,
    check?_of_spelling check]

theorem undoes_hints : Undoes hints? HintsSpelling := by
  rintro check value ⟨spelled, record⟩
  have found := record?_of_spelling (by decide) record
  simp only [hintsFields] at found
  simp [hints?, found, check?_of_spelling spelled]

theorem undoes_entry : Undoes Entry.ofValue? Entry.Spelling := by
  rintro entry value ⟨context, pattern, hints, cycles, paths, record⟩
  have found := record?_of_spelling (by decide) record
  have texts := undoes_text.listOf _ _ pattern
  simp only [entryFields] at found
  simp [Entry.ofValue?, found, pattern?, texts, undoes_id _ _ context, undoes_hints.orDefault hints,
    undoes_cycle.listOf.orDefault cycles, undoes_path.listOf.orDefault paths]

theorem undoes_document : Undoes Document.ofValue? Document.Spelling := by
  rintro document value ⟨prefixes, entries, record⟩
  have found := record?_of_spelling (by decide) record
  simp only [planFields] at found
  simp [Document.ofValue?, found, undoes_text.bindings.orDefault prefixes,
    undoes_entry.listOf _ _ entries]

end PlanGraph.Document
