import PlanGraph.Proofs.Collections
import PlanGraph.Proofs.Json.Accepting
import PlanGraph.Proofs.Plan.Documents
import PlanGraph.Proofs.Plan.TermText

/-! How plans are spelled, down to the JSON text, and that decoding undoes every spelling. What the
prefixes of the plan are makes no difference, for every name of the plan is written in full. -/

set_option autoImplicit false
namespace PlanGraph
open Text

/-! ## Documents of a plan -/

def PathStep.written (step : PathStep) : Document.Step :=
  ⟨Rdf.iriText step.property, Rdf.iriText step.type⟩

def PlannedCycle.written (cycle : PlannedCycle) : Document.Cycle :=
  ⟨cycle.id, cycle.steps.map PathStep.written⟩

/-- A seed is written with angle brackets or without them. -/
def WritesSeed (iri : Iri) (seed : String) : Prop := seed = iri ∨ seed = Rdf.iriText iri

structure PlannedPath.Writes (path : PlannedPath) (written : Document.Path) : Prop where
  steps : written.steps = path.steps.map PathStep.written
  seeds : List.Forall₂ WritesSeed path.seeds written.seeds
  check : written.check = path.check

/-- The terms of a pattern are written in their N-Triples form, between white space or none. -/
structure PlanEntry.Writes (entry : PlanEntry) (written : Document.Entry) : Prop where
  context : written.context = entry.context
  subject : Surrounds written.subject.toList entry.pattern.subject.text.toList
  predicate : Surrounds written.predicate.toList entry.pattern.predicate.text.toList
  object : Surrounds written.object.toList entry.pattern.object.text.toList
  check : written.check = entry.check
  cycles : written.cycles = entry.cycles.map PlannedCycle.written
  paths : List.Forall₂ PlannedPath.Writes entry.paths written.paths

/-- The documents of a plan. Where they bind a prefix more than once, the last binding counts. -/
structure Plan.Writes (plan : Plan) (document : Document) : Prop where
  prefixes : ∀ key, plan.prefixes.find? key = document.prefixes.reverse.lookup key
  entries : List.Forall₂ PlanEntry.Writes plan.entries document.entries

/-- Every name of the plan can be written: the terms of its patterns have a text of their own, and its
seeds are absolute IRIs. -/
structure Plan.IsSpellable (plan : Plan) : Prop where
  patterns : ∀ entry ∈ plan.entries, entry.pattern.IsReadable
  seeds : ∀ entry ∈ plan.entries, ∀ path ∈ entry.paths, ∀ seed ∈ path.seeds,
    Rdf.isAbsoluteIri seed.toList = true

theorem PathStep.decode_written (step : PathStep) (prefixes : Prefixes) :
    step.written.decode prefixes = step := by
  rw [written, Document.Step.decode, prefixes.expand_iriText, prefixes.expand_iriText]

theorem PathStep.map_decode_written (steps : List PathStep) (prefixes : Prefixes) :
    (steps.map written).map (·.decode prefixes) = steps := by
  rw [List.map_map]
  exact List.map_id'' (fun step => step.decode_written prefixes) steps

theorem PlannedCycle.decode_written (cycle : PlannedCycle) (prefixes : Prefixes) :
    cycle.written.decode prefixes = cycle := by
  rw [written, Document.Cycle.decode, PathStep.map_decode_written]

theorem PlannedCycle.map_decode_written (cycles : List PlannedCycle) (prefixes : Prefixes) :
    (cycles.map written).map (·.decode prefixes) = cycles := by
  rw [List.map_map]
  exact List.map_id'' (fun cycle => cycle.decode_written prefixes) cycles

theorem WritesSeed.decode {iri : Iri} {seed : String} (writes : WritesSeed iri seed)
    (absolute : Rdf.isAbsoluteIri iri.toList = true) : Document.decodeSeed seed = .ok iri := by
  rcases writes with rfl | rfl
  · exact Document.decodeSeed_iri absolute
  · exact Document.decodeSeed_iriText absolute

theorem PlannedPath.Writes.decode {path : PlannedPath} {written : Document.Path}
    (writes : path.Writes written)
    (absolute : ∀ seed ∈ path.seeds, Rdf.isAbsoluteIri seed.toList = true) (prefixes : Prefixes) :
    written.decode prefixes = .ok path := by
  have seeds : written.seeds.mapM Document.decodeSeed = .ok path.seeds :=
    mapM_of_forall₂ writes.seeds fun seed inside text writesSeed =>
      writesSeed.decode (absolute seed inside)
  rw [Document.Path.decode, seeds, writes.steps, PathStep.map_decode_written, writes.check]
  rfl

theorem PlanEntry.Writes.decode {entry : PlanEntry} {written : Document.Entry}
    (writes : entry.Writes written) (readable : entry.pattern.IsReadable)
    (absolute : ∀ path ∈ entry.paths, ∀ seed ∈ path.seeds, Rdf.isAbsoluteIri seed.toList = true)
    (prefixes : Prefixes) : written.decode prefixes = .ok entry := by
  have pattern := TriplePattern.ofTexts_of_surrounds readable writes.subject writes.predicate
    writes.object prefixes
  have paths : written.paths.mapM (·.decode prefixes) = .ok entry.paths :=
    mapM_of_forall₂ writes.paths fun path inside text writesPath =>
      writesPath.decode (absolute path inside) prefixes
  rw [Document.Entry.decode, pattern, paths, writes.cycles, PlannedCycle.map_decode_written,
    writes.context, writes.check]
  rfl

theorem Plan.Writes.decode {plan : Plan} {document : Document} (writes : plan.Writes document)
    (spellable : plan.IsSpellable) : document.decode = .ok plan := by
  have prefixes : (OrderedMap.ofList document.prefixes : Prefixes) = plan.prefixes :=
    OrderedMap.ext fun key => by rw [OrderedMap.find?_ofList, writes.prefixes]
  have entries : document.entries.mapM (·.decode plan.prefixes) = .ok plan.entries :=
    mapM_of_forall₂ writes.entries fun entry inside text writesEntry =>
      writesEntry.decode (spellable.patterns entry inside) (spellable.seeds entry inside)
        plan.prefixes
  simp only [Document.decode, prefixes, entries]
  rfl

/-! ## Texts of a plan -/

/-- The JSON texts of a plan: a text of a value that is a form of one of the plan's documents. -/
inductive Plan.Spelling (plan : Plan) (text : String) : Prop
  | mk {document : Document} {value : Json.Value} (writes : plan.Writes document)
      (formed : document.Spelling value) (spelled : value.Spelling text.toList)

/-- Decoding undoes every spelling of a plan. -/
theorem Plan.ofText_of_spelling {plan : Plan} {text : String} (spellable : plan.IsSpellable)
    (spelled : plan.Spelling text) : Plan.ofText text = .ok plan := by
  obtain ⟨writes, formed, spelled⟩ := spelled
  rename_i document value
  have read := Json.Value.ofGlyphs?_of_spelling spelled
  rw [Plan.ofText, Plan.ofGlyphs, glyphsOfText, read, Option.bind_some,
    Document.undoes_document document value formed]
  exact writes.decode spellable

/-! A plan whose spelling takes every liberty: fields in reverse order and under their other names,
arrays for a cycle, a path and an entry, integers for identifiers, escape sequences, white space, a
field without meaning, and a prefix that is the scheme of its names. -/

def screeningLines : List String :=
  ["\x7b\"note\": [-1.50e+3, \"\\ud800\"],\n\"plan\": [",
    "\x7b\"paths\": [[[], [\"<urn:r>\", \"urn:s\"], null]], ",
    "\"cycles\": [[-3, [\x7b\"type\": \"<urn:b>\", \"property\": \"<urn:a>\"\x7d]]], ",
    "\"hints\": \x7b\"check\": true\x7d, ",
    "\"pattern\": [\" ?film\\t\", \"<urn:p>\", \"\\u0022caf\\u00e9\\\"@en\"], ",
    "\"context\": 7\x7d, [\"main\", [\"<urn:s>\", \"<urn:p>\", \"?x\"]]], ",
    "\"prefixes\": \x7b\"urn\": \"x:\"\x7d\x7d"]

def screeningText : String := String.join screeningLines

def screeningPlan : Plan where
  prefixes := .ofList [("urn", "x:")]
  entries :=
    [⟨"7", ⟨.variable "film", .iri "urn:p", .fixed (.literal (.tagged "café" "en"))⟩, some true,
      [⟨"-3", [⟨"urn:a", "urn:b"⟩]⟩], [⟨[], ["urn:r", "urn:s"], none⟩]⟩,
     ⟨"main", ⟨.iri "urn:s", .iri "urn:p", .variable "x"⟩, none, [], []⟩]

def filmEntry : Document.Entry :=
  ⟨"7", " ?film\t", "<urn:p>", "\"café\"@en", some true, [⟨"-3", [⟨"<urn:a>", "<urn:b>"⟩]⟩],
    [⟨[], ["<urn:r>", "urn:s"], none⟩]⟩

def mainEntry : Document.Entry := ⟨"main", "<urn:s>", "<urn:p>", "?x", none, [], []⟩

def screeningDocument : Document where
  prefixes := [("urn", "x:")]
  entries := [filmEntry, mainEntry]

open Json in
def filmValue : Json.Value :=
  .object
    [(some "paths", .array [.array [.array [], .array [.text "<urn:r>", .text "urn:s"], .null]]),
     (some "cycles", .array [.array [.number "-3", .array
      [.object [(some "type", .text "<urn:b>"), (some "property", .text "<urn:a>")]]]]),
     (some "hints", .object [(some "check", .bool true)]),
     (some "pattern", .array [.text " ?film\t", .text "<urn:p>", .text "\"café\"@en"]),
     (some "context", .number "7")]

open Json in
def mainValue : Json.Value :=
  .array [.text "main", .array [.text "<urn:s>", .text "<urn:p>", .text "?x"]]

open Json in
def screeningValue : Json.Value :=
  .object
    [(some "note", .array [.number "-1.50e+3", .string none]),
     (some "plan", .array [filmValue, mainValue]),
     (some "prefixes", .object [(some "urn", .text "x:")])]

theorem screeningText_spells : screeningValue.Spelling screeningText.toList :=
  Json.tokensSpelling_join (by decide +kernel)

theorem screeningPlan_writes : screeningPlan.Writes screeningDocument where
  prefixes := OrderedMap.find?_ofList _
  entries := by
    have film : Surrounds " ?film\t".toList "?film".toList :=
      ⟨[' '], ['\t'], by simp [isBlank], by simp [isBlank], by simp⟩
    refine .cons ⟨rfl, film, .refl _, .refl _, rfl, rfl, ?_⟩ (.cons ?_ .nil)
    · exact .cons ⟨rfl, .cons (Or.inr (by decide)) (.cons (Or.inl rfl) .nil), rfl⟩ .nil
    · exact ⟨rfl, .refl _, .refl _, .refl _, rfl, rfl, .nil⟩

open Json in
theorem screeningValue_formed : screeningDocument.Spelling screeningValue := by
  have step : Document.Step.Spelling ⟨"<urn:a>", "<urn:b>"⟩
      (.object [(some "type", .text "<urn:b>"), (some "property", .text "<urn:a>")]) :=
    .mk .mk .mk (@RecordSpelling.reversed _ _ [("property", _), ("type", _)] []
      (.given (by decide) (.given (by decide) .nil)) (by simp))
  have cycle : Document.Cycle.Spelling ⟨"-3", [⟨"<urn:a>", "<urn:b>"⟩]⟩ (.array [.number "-3", .array
      [.object [(some "type", .text "<urn:b>"), (some "property", .text "<urn:a>")]]]) :=
    .mk (@Document.IdSpelling.integer "-3" (-3) (by decide) (by decide) (by decide))
      (.mk (.cons step .nil)) (.array (.given (.given .nil)))
  have path : Document.Path.Spelling ⟨[], ["<urn:r>", "urn:s"], none⟩
      (.array [.array [], .array [.text "<urn:r>", .text "urn:s"], .null]) :=
    .mk (.given (.mk .nil)) (.given (.mk (.cons .mk (.cons .mk .nil)))) (.given .none)
      (.array (.given (.given (.given .nil))))
  have hints : Document.HintsSpelling (some true) (.object [(some "check", .bool true)]) :=
    .mk (.given (.some .mk)) (@RecordSpelling.reversed _ _ [("check", _)] []
      (.given (by decide) .nil) (by simp))
  have film : Document.Entry.Spelling filmEntry filmValue :=
    .mk (@Document.IdSpelling.integer "7" 7 (by decide) (by decide) (by decide))
      (.mk (.cons .mk (.cons .mk (.cons .mk .nil)))) (.given hints) (.given (.mk (.cons cycle .nil)))
      (.given (.mk (.cons path .nil)))
      (@RecordSpelling.reversed _ _
        [("context", _), ("pattern", _), ("hints", _), ("cycles", _), ("paths", _)] []
        (.given (by decide) (.given (by decide) (.given (by decide) (.given (by decide)
          (.given (by decide) .nil))))) (by simp))
  have main : Document.Entry.Spelling mainEntry mainValue :=
    .mk .text (.mk (.cons .mk (.cons .mk (.cons .mk .nil)))) .absent .absent .absent
      (.array (.given (.given (.absent rfl (.absent rfl (.absent rfl .nil))))))
  have bindings : BindingsSpelling TextSpelling [("urn", "x:")]
      (.object [(some "urn", .text "x:")]) :=
    @BindingsSpelling.mk _ _ _ [("urn", .text "x:")] (.cons ⟨rfl, .mk⟩ .nil)
  exact .mk (.given bindings) (.mk (.cons film (.cons main .nil)))
    (@RecordSpelling.reversed _ _ [("prefixes", _), ("plan", _)] [("note", _)]
      (.given (by decide) (.given (by decide) .nil)) (by decide))

theorem screeningPlan_isSpellable : screeningPlan.IsSpellable where
  patterns := by
    have literal : Rdf.Literal.ofChars? "\"café\"@EN".toList = some (.tagged "café" "en") := by
      decide +kernel
    refine List.forall_mem_cons.mpr ⟨?_, List.forall_mem_singleton.mpr ?_⟩
    · exact ⟨.named (by decide) (by simp [isBlank]), rfl, ⟨_, rfl, by decide⟩, .literal literal⟩
    · exact ⟨.iri (by decide), rfl, ⟨_, rfl, by decide⟩, .named (by decide) (by simp [isBlank])⟩
  seeds := by decide +kernel

theorem Plan.ofText_of_spelling_screening : screeningPlan.IsSpellable ∧
    screeningPlan.Spelling screeningText ∧ Plan.ofText screeningText = .ok screeningPlan := by
  have spelled : screeningPlan.Spelling screeningText :=
    .mk screeningPlan_writes screeningValue_formed screeningText_spells
  exact ⟨screeningPlan_isSpellable, spelled,
    Plan.ofText_of_spelling screeningPlan_isSpellable spelled⟩

end PlanGraph
