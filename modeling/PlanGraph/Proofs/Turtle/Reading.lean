import PlanGraph.Turtle.Document

/-! How far a document is read: to its end, or up to a fault. The triples of a faulty document are those that the tokens before its
fault state, and the fault is the first token that may not come where it stands. -/

set_option autoImplicit false
namespace PlanGraph.Turtle
open Rdf

namespace Reader

/-- The reader takes all the tokens, one after another, and states the triples on the way. -/
inductive Reads : Reader → List Token → Reader → List Triple → Prop
  | done (reader : Reader) : Reads reader [] reader []
  | take {reader next last : Reader} {token : Token} {rest : List Token} {stated others : List Triple}
      (taken : reader.next token = some (next, stated)) (reads : Reads next rest last others) :
      Reads reader (token :: rest) last (stated ++ others)

/-- The reader can go no further: the next token may not come here, or the end comes too early. -/
def StopsAt (reader : Reader) (tokens : List Token) : Prop :=
  match tokens with
  | [] => reader.expecting ≠ .statement
  | token :: _ => reader.next token = none

variable {reader last : Reader} {tokens accepted rest : List Token} {stated : List Triple}

theorem run_of_stopsAt (reads : reader.Reads accepted last stated) (stops : last.StopsAt rest) :
    reader.run (accepted ++ rest) = (stated, false) := by
  induction reads with
  | done reader =>
    cases rest with
    | nil => simpa [run, StopsAt] using stops
    | cons token others =>
      have refused : reader.next token = none := stops
      simp [run, refused]
  | take taken _ ih =>
    rw [List.cons_append, run, taken]
    simp [ih stops]

theorem exists_stopsAt (faulty : (reader.run tokens).2 = false) :
    ∃ accepted rest last, tokens = accepted ++ rest ∧
      reader.Reads accepted last (reader.run tokens).1 ∧ last.StopsAt rest := by
  induction tokens generalizing reader with
  | nil => exact ⟨[], [], reader, rfl, .done reader, by simpa [run, StopsAt] using faulty⟩
  | cons token others ih =>
    cases step : reader.next token with
    | none =>
      have stated : (reader.run (token :: others)).1 = [] := by rw [run, step]
      exact ⟨[], token :: others, reader, rfl, stated ▸ .done reader, step⟩
    | some outcome =>
      obtain ⟨next, triples⟩ := outcome
      rw [run, step] at faulty ⊢
      obtain ⟨accepted, rest, last, rfl, reads, stops⟩ := ih faulty
      exact ⟨token :: accepted, rest, last, rfl, .take step reads, stops⟩

theorem run_of_reads (reads : reader.Reads tokens last stated) (ends : last.expecting = .statement) :
    reader.run tokens = (stated, true) := by
  induction reads with
  | done reader => simpa [run] using ends
  | take taken _ ih =>
    rw [run, taken]
    simp [ih ends]

theorem exists_reads (complete : (reader.run tokens).2 = true) :
    ∃ last, reader.Reads tokens last (reader.run tokens).1 ∧ last.expecting = .statement := by
  induction tokens generalizing reader with
  | nil => exact ⟨reader, .done reader, by simpa [run] using complete⟩
  | cons token others ih =>
    cases step : reader.next token with
    | none =>
      rw [run, step] at complete
      cases complete
    | some outcome =>
      obtain ⟨next, triples⟩ := outcome
      rw [run, step] at complete ⊢
      obtain ⟨last, reads, ends⟩ := ih complete
      exact ⟨last, .take step reads, ends⟩

end Reader

def FaultyAfter (glyphs : List Text.Glyph) (stated : List Triple) : Prop :=
  ∃ accepted rest last, tokens glyphs = accepted ++ rest ∧ Reader.start.Reads accepted last stated ∧
    last.StopsAt rest

theorem faultyAfter_iff {glyphs : List Text.Glyph} {stated : List Triple} :
    FaultyAfter glyphs stated ↔ Document.ofGlyphs glyphs = ⟨stated, false⟩ := by
  constructor
  · rintro ⟨accepted, rest, last, split, reads, stops⟩
    rw [Document.ofGlyphs, split, Reader.run_of_stopsAt reads stops]
  · intro read
    have triples : (Reader.start.run (tokens glyphs)).1 = stated := congrArg Document.triples read
    obtain ⟨accepted, rest, last, split, reads, stops⟩ :=
      Reader.exists_stopsAt (congrArg Document.complete read)
    exact ⟨accepted, rest, last, split, triples ▸ reads, stops⟩

def States (glyphs : List Text.Glyph) (stated : List Triple) : Prop :=
  ∃ last, Reader.start.Reads (tokens glyphs) last stated ∧ last.expecting = .statement

theorem states_iff {glyphs : List Text.Glyph} {stated : List Triple} :
    States glyphs stated ↔ Document.ofGlyphs glyphs = ⟨stated, true⟩ := by
  constructor
  · rintro ⟨last, reads, ends⟩
    rw [Document.ofGlyphs, Reader.run_of_reads reads ends]
  · intro read
    have triples : (Reader.start.run (tokens glyphs)).1 = stated := congrArg Document.triples read
    obtain ⟨last, reads, ends⟩ := Reader.exists_reads (congrArg Document.complete read)
    exact ⟨last, triples ▸ reads, ends⟩

end PlanGraph.Turtle
