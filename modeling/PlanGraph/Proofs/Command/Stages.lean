import Mathlib.Data.List.Forall2
import PlanGraph.Proofs.Command.Run
import PlanGraph.Proofs.Hierarchy.Histories
import PlanGraph.Proofs.Json.StrayBytes
import PlanGraph.Proofs.Plan.DecodingOutcome
import PlanGraph.Proofs.Rdf.FormatNames
import PlanGraph.Proofs.Sparql.Roots

/-! What the stages of the command come to. A stage is told from the texts of its file or argument: how a
plan is spelled, which triples a vocabulary states, which patterns a query has, how a format is named. -/

set_option autoImplicit false
namespace PlanGraph
open Text

/-- The document of a plan file. Bytes that belong to no character do no harm in what is skipped. -/
def Document.IsIn (document : Document) (content : ByteArray) : Prop :=
  document.IsSpelledBy (String.ofList (Json.mended (glyphsOfBytes content)))

theorem Document.isIn_toUTF8 {document : Document} {text : String} :
    document.IsIn text.toUTF8 ↔ document.IsSpelledBy text := by
  rw [Document.IsIn, glyphsOfBytes_toUTF8, glyphsOfText, Json.mended_map_some, String.ofList_toList]

theorem Document.isIn_iff {document : Document} {content : ByteArray} : document.IsIn content ↔
    (Json.Value.ofGlyphs? (glyphsOfBytes content)).bind Document.ofValue? = some document := by
  have same : glyphsOfText (String.ofList (Json.mended (glyphsOfBytes content))) =
      Json.remade (glyphsOfBytes content) := by
    rw [glyphsOfText, String.toList_ofList, Json.remade]
  rw [Document.IsIn, Document.isSpelledBy_iff, same, Json.Value.ofGlyphs?_remade]

namespace Command
open Rdf (Format)

/-! ## Plans -/

inductive PlanComes (path : String) : FileContent → Except Failure Plan → Prop
  | missing : PlanComes path .missing (.error (.missingPlan path))
  | unreadable : PlanComes path .unreadable (.error (.invalidPlan path))
  | misshapen {content : ByteArray} (shapeless : ¬∃ document : Document, document.IsIn content) :
      PlanComes path (.bytes content) (.error (.invalidPlan path))
  | faulty {content : ByteArray} {document : Document} {error : PlanError} (shaped : document.IsIn content)
      (fault : FirstFault (Document.Item.Fault (.ofList document.prefixes)) document.items error) :
      PlanComes path (.bytes content) (.error (.invalidPlan path))
  | decoded {content : ByteArray} {document : Document} {plan : Plan} (shaped : document.IsIn content)
      (yields : document.Yields plan) : PlanComes path (.bytes content) (.ok plan)

theorem ofBytes_of_isIn {document : Document} {content : ByteArray} (shaped : document.IsIn content) :
    Plan.ofBytes content = document.decode := by
  rw [Plan.ofBytes, Plan.ofGlyphs, Document.isIn_iff.mp shaped]

theorem ofBytes_of_shapeless {content : ByteArray}
    (shapeless : ¬∃ document : Document, document.IsIn content) :
    Plan.ofBytes content = .error .invalidDocument := by
  rw [Plan.ofBytes, Plan.ofGlyphs]
  split
  · next document read => exact absurd ⟨document, Document.isIn_iff.mpr read⟩ shapeless
  · rfl

theorem planComes_iff {path : String} {content : FileContent} {result : Except Failure Plan} :
    PlanComes path content result ↔ decodePlan path content = result := by
  constructor
  · intro comes
    cases comes with
    | missing => rfl
    | unreadable => rfl
    | misshapen shapeless => rw [decodePlan, ofBytes_of_shapeless shapeless]; rfl
    | faulty shaped fault =>
      rw [decodePlan, ofBytes_of_isIn shaped, Document.decode_eq_error_iff.mpr fault]
      rfl
    | decoded shaped yields =>
      rw [decodePlan, ofBytes_of_isIn shaped, Document.yields_iff.mp yields]
      rfl
  · rintro rfl
    cases content with
    | missing => exact .missing
    | unreadable => exact .unreadable
    | bytes content =>
      by_cases shaped : ∃ document : Document, document.IsIn content
      · obtain ⟨document, shaped⟩ := shaped
        rw [decodePlan, ofBytes_of_isIn shaped]
        cases decoded : document.decode with
        | error error => exact .faulty shaped (Document.decode_eq_error_iff.mp decoded)
        | ok plan => exact .decoded shaped (Document.yields_iff.mpr decoded)
      · rw [decodePlan, ofBytes_of_shapeless shaped]
        exact .misshapen shaped

theorem PlanComes.unique {path : String} {content : FileContent} {first second : Except Failure Plan}
    (comes : PlanComes path content first) (also : PlanComes path content second) : first = second :=
  (planComes_iff.mp comes).symm.trans (planComes_iff.mp also)

/-! ## Vocabularies -/

def DeclaredBy (hierarchy : Hierarchy) (stated : List Rdf.Triple) : Prop :=
  Hierarchy.empty.Gains hierarchy (fun type => ∃ triple ∈ stated, triple.Names type)
    fun lower upper => ∃ triple ∈ stated, triple.Links lower upper

theorem declaredBy_iff {hierarchy : Hierarchy} {stated : List Rdf.Triple} {complete : Bool} :
    DeclaredBy hierarchy stated ↔ Hierarchy.empty.load ⟨stated, complete⟩ = hierarchy := by
  have loaded : DeclaredBy (Hierarchy.empty.load ⟨stated, complete⟩) stated := Hierarchy.gains_load _
  constructor
  · intro declared
    apply Hierarchy.eq_of_leads
    · exact fun type => (loaded.known type).trans (declared.known type).symm
    · exact fun upper lower => (loaded.lower upper lower).trans (declared.lower upper lower).symm
    · exact fun lower upper => (loaded.upper lower upper).trans (declared.upper lower upper).symm
  · rintro rfl
    exact loaded

inductive VocabularyComes (path : String) : FileContent → Except Failure Hierarchy → Prop
  | missing : VocabularyComes path .missing (.error (.missingVocabulary path))
  | unreadable : VocabularyComes path .unreadable (.error (.invalidVocabulary path))
  | faulty {content : ByteArray} {stated : List Rdf.Triple}
      (fault : Turtle.FaultyAfter (glyphsOfBytes content) stated) :
      VocabularyComes path (.bytes content) (.error (.invalidVocabulary path))
  | declared {content : ByteArray} {stated : List Rdf.Triple} {hierarchy : Hierarchy}
      (states : Turtle.States (glyphsOfBytes content) stated) (declares : DeclaredBy hierarchy stated) :
      VocabularyComes path (.bytes content) (.ok hierarchy)

theorem vocabularyComes_iff {path : String} {content : FileContent} {result : Except Failure Hierarchy} :
    VocabularyComes path content result ↔ decodeVocabulary path content = result := by
  constructor
  · intro comes
    cases comes with
    | missing => rfl
    | unreadable => rfl
    | faulty fault =>
      rw [decodeVocabulary, Hierarchy.ofGlyphs?, Turtle.faultyAfter_iff.mp fault]
      rfl
    | declared states declares =>
      rw [decodeVocabulary, Hierarchy.ofGlyphs?, Turtle.states_iff.mp states, ← declaredBy_iff.mp declares]
      rfl
  · rintro rfl
    cases content with
    | missing => exact .missing
    | unreadable => exact .unreadable
    | bytes content =>
      rw [decodeVocabulary, Hierarchy.ofGlyphs?]
      cases read : Turtle.Document.ofGlyphs (glyphsOfBytes content) with
      | mk stated complete =>
        cases complete with
        | false => exact .faulty (Turtle.faultyAfter_iff.mpr read)
        | true => exact .declared (Turtle.states_iff.mpr read) (declaredBy_iff.mpr rfl)

theorem VocabularyComes.unique {path : String} {content : FileContent}
    {first second : Except Failure Hierarchy} (comes : VocabularyComes path content first)
    (also : VocabularyComes path content second) : first = second :=
  (vocabularyComes_iff.mp comes).symm.trans (vocabularyComes_iff.mp also)

/-! ## Roots -/

inductive QueryComes (path : String) : FileContent → Except Failure Roots → Prop
  | missing : QueryComes path .missing (.error (.unreadableQuery path))
  | unreadable : QueryComes path .unreadable (.error (.unreadableQuery path))
  | foreign {content : ByteArray} (foreign : ∀ text : String, content ≠ text.toUTF8) :
      QueryComes path (.bytes content) (.error (.unreadableQuery path))
  | invalid {text : String} (unparsed : Sparql.Query.ofText? text = none) :
      QueryComes path (.bytes text.toUTF8) (.error .invalidQuery)
  | parsed {text : String} {query : Sparql.Query} {roots : Roots}
      (parsed : Sparql.Query.ofText? text = some query) (represents : roots.Represents query.pattern.Holds) :
      QueryComes path (.bytes text.toUTF8) (.ok roots)

theorem decodeQuery_of_foreign {path : String} {content : ByteArray}
    (foreign : ∀ text : String, content ≠ text.toUTF8) :
    decodeQuery path (.bytes content) = .error (.unreadableQuery path) := by
  have unread : String.fromUTF8? content = none :=
    Option.eq_none_iff_forall_ne_some.mpr fun text read => foreign text (fromUTF8?_eq_some_iff.mp read)
  simp only [decodeQuery, unread]

theorem decodeQuery_of_text (path text : String) : decodeQuery path (.bytes text.toUTF8) =
    match Sparql.Query.ofText? text with
    | some query => .ok (.ofQuery query)
    | none => .error .invalidQuery := by
  cases parsed : Sparql.Query.ofText? text with
  | none => simp only [decodeQuery, fromUTF8?_eq_some_iff.mpr rfl, parsed]
  | some query => simp only [decodeQuery, fromUTF8?_eq_some_iff.mpr rfl, parsed]

theorem queryComes_iff {path : String} {content : FileContent} {result : Except Failure Roots} :
    QueryComes path content result ↔ decodeQuery path content = result := by
  constructor
  · intro comes
    cases comes with
    | missing => rfl
    | unreadable => rfl
    | foreign foreign => exact decodeQuery_of_foreign foreign
    | invalid unparsed => rw [decodeQuery_of_text, unparsed]
    | parsed parsed represents =>
      rw [decodeQuery_of_text, parsed, represents.unique (Roots.represents_ofQuery _)]
  · rintro rfl
    cases content with
    | missing => exact .missing
    | unreadable => exact .unreadable
    | bytes content =>
      by_cases written : ∃ text : String, content = text.toUTF8
      · obtain ⟨text, rfl⟩ := written
        rw [decodeQuery_of_text]
        cases parsed : Sparql.Query.ofText? text with
        | none => exact .invalid parsed
        | some query => exact .parsed parsed (Roots.represents_ofQuery query)
      · have foreign := not_exists.mp written
        exact decodeQuery_of_foreign foreign ▸ .foreign foreign

/-- What the roots come to. Texts are terms, and the first of them that is not is the failure. -/
inductive RootSource.Comes (read : String → FileContent) (prefixes : Prefixes) :
    RootSource → Except Failure Roots → Prop
  | query {path : String} {result : Except Failure Roots} (comes : QueryComes path (read path) result) :
      Comes read prefixes (.query path) result
  | terms {texts : List String} {terms : List PatternTerm} {roots : Roots}
      (parsed : List.Forall₂ (fun text term => PatternTerm.ofText prefixes .subject text = .ok term)
        texts terms)
      (lists : ∀ term, roots.contains term = true ↔ term.IsNamed ∧ term ∈ terms) :
      Comes read prefixes (.texts texts) (.ok roots)
  | refused {before after : List String} {text : String} {error : TermError}
      (parsed : ∀ earlier ∈ before, ∃ term, PatternTerm.ofText prefixes .subject earlier = .ok term)
      (fails : PatternTerm.ofText prefixes .subject text = .error error) :
      Comes read prefixes (.texts (before ++ text :: after)) (.error (.invalidRoot text))

theorem mapM_cases {α β ε : Type} {compute : α → Except ε β} (inputs : List α) :
    (∃ outputs, List.Forall₂ (fun input output => compute input = .ok output) inputs outputs) ∨
    ∃ before input after failure, inputs = before ++ input :: after ∧
      (∀ earlier ∈ before, ∃ output, compute earlier = .ok output) ∧ compute input = .error failure := by
  induction inputs with
  | nil => exact Or.inl ⟨[], .nil⟩
  | cons first rest ih =>
    cases computed : compute first with
    | error failure => exact Or.inr ⟨[], first, rest, failure, rfl, by simp, computed⟩
    | ok output =>
      rcases ih with ⟨outputs, all⟩ | ⟨before, input, after, failure, rfl, succeeds, fails⟩
      · exact Or.inl ⟨output :: outputs, .cons computed all⟩
      · exact Or.inr ⟨first :: before, input, after, failure, rfl,
          List.forall_mem_cons.mpr ⟨⟨output, computed⟩, succeeds⟩, fails⟩

section
variable {read : String → FileContent} {prefixes : Prefixes} {source : RootSource}
  {result : Except Failure Roots}

def RootSource.roots (read : String → FileContent) (prefixes : Prefixes) :
    RootSource → Except Failure Roots
  | .query path => decodeQuery path (read path)
  | .texts written => decodeRoots prefixes written

theorem decodeRoots_of_forall₂ {texts : List String} {terms : List PatternTerm}
    (parsed : List.Forall₂ (fun text term => PatternTerm.ofText prefixes .subject text = .ok term)
      texts terms) : decodeRoots prefixes texts = .ok (.ofTerms terms) := by
  have read : texts.mapM (fun text =>
      (PatternTerm.ofText prefixes .subject text).mapError fun _ => Failure.invalidRoot text) = .ok terms := by
    refine (forall₂_iff_mapM fun text term => ?_).mp parsed
    exact mapError_eq_ok.symm
  rw [decodeRoots, read]
  rfl

theorem decodeRoots_append_error {before after : List String} {text : String} {error : TermError}
    (parsed : ∀ earlier ∈ before, ∃ term, PatternTerm.ofText prefixes .subject earlier = .ok term)
    (fails : PatternTerm.ofText prefixes .subject text = .error error) :
    decodeRoots prefixes (before ++ text :: after) = .error (.invalidRoot text) := by
  have read : (before ++ text :: after).mapM (fun text =>
      (PatternTerm.ofText prefixes .subject text).mapError fun _ => Failure.invalidRoot text) =
        .error (.invalidRoot text) := by
    refine mapM_append_error (fun earlier member => ?_) (by rw [fails]; rfl)
    obtain ⟨term, found⟩ := parsed earlier member
    exact ⟨term, by rw [found]; rfl⟩
  rw [decodeRoots, read]
  rfl

theorem RootSource.comes_iff : source.Comes read prefixes result ↔ source.roots read prefixes = result := by
  constructor
  · intro comes
    cases comes with
    | query comes => exact queryComes_iff.mp comes
    | terms parsed lists =>
      rw [RootSource.roots, decodeRoots_of_forall₂ parsed]
      exact congrArg _ (Roots.eq_of_contains fun term => Roots.contains_ofTerms.trans (lists term).symm)
    | refused parsed fails => exact decodeRoots_append_error parsed fails
  · rintro rfl
    cases source with
    | query path => exact .query (queryComes_iff.mpr rfl)
    | texts written =>
      -- All texts are terms, or one of them is the first that is not.
      rcases mapM_cases written with ⟨terms, parsed⟩ | ⟨before, text, after, error, rfl, parsed, fails⟩
      · rw [RootSource.roots, decodeRoots_of_forall₂ parsed]
        exact .terms parsed fun term => Roots.contains_ofTerms
      · rw [RootSource.roots, decodeRoots_append_error parsed fails]
        exact .refused parsed fails

theorem RootSource.Comes.unique {other : Except Failure Roots} (comes : source.Comes read prefixes result)
    (also : source.Comes read prefixes other) : result = other :=
  (RootSource.comes_iff.mp comes).symm.trans (RootSource.comes_iff.mp also)

end

/-! ## Formats -/

/-- The path leads to a file whose name goes on with the extension after its last dot. A dot at the start of
a name begins no extension. -/
def EndsIn (path : String) (extension : List Char) : Prop :=
  ∃ folders name, pathNames path = folders ++ [name ++ '.' :: extension] ∧ name ≠ [] ∧
    '.' ∉ extension ∧ name ++ '.' :: extension ≠ ['.', '.']

/-- Which format a build has: the one asked for, else that of the output file, else N-Quads. -/
inductive FormatComes : Option String → Option String → Except Failure Format → Prop
  | named {name : String} {output : Option String} {format : Format} (names : format.IsNamed name.toList) :
      FormatComes (some name) output (.ok format)
  | unknown {name : String} {output : Option String}
      (unknown : ∀ format : Format, ¬format.IsNamed name.toList) :
      FormatComes (some name) output (.error (.unknownFormat name))
  | guessed {path : String} {extension : List Char} {format : Format} (ends : EndsIn path extension)
      (names : format.HasExtension extension) : FormatComes none (some path) (.ok format)
  | unguessed {path : String} {extension : List Char} (ends : EndsIn path extension)
      (unknown : ∀ format : Format, ¬format.HasExtension extension) :
      FormatComes none (some path) (.error (.unknownExtension (String.ofList extension)))
  | bare {path : String} (bare : ∀ extension, ¬EndsIn path extension) :
      FormatComes none (some path) (.error (.noExtension path))
  | default : FormatComes none none (.ok .nQuads)

theorem extensionOf?_eq_some_iff {name extension : List Char} : extensionOf? name = some extension ↔
    ∃ front, name = front ++ '.' :: extension ∧ front ≠ [] ∧ '.' ∉ extension := by
  unfold extensionOf?
  constructor
  · intro found
    obtain ⟨⟨tail, lead⟩, cut, found⟩ := Option.bind_eq_some_iff.mp found
    obtain ⟨turned, clear⟩ := cutAt?_eq_some_iff.mp cut
    dsimp only at found
    split at found
    · cases found
    · next nonempty =>
      cases found
      have whole : name = lead.reverse ++ '.' :: tail.reverse := by
        rw [← List.reverse_reverse name, turned]
        simp
      exact ⟨lead.reverse, whole, by simpa using nonempty, by simpa using clear⟩
  · rintro ⟨front, rfl, nonempty, clear⟩
    have turned : (front ++ '.' :: extension).reverse = extension.reverse ++ '.' :: front.reverse := by
      simp
    rw [turned, cutAt?_append (by simpa using clear)]
    simp [nonempty]

theorem endsIn_iff {path : String} {extension : List Char} :
    EndsIn path extension ↔ pathExtension? path = some extension := by
  unfold EndsIn pathExtension?
  constructor
  · rintro ⟨folders, name, names, nonempty, clear, single⟩
    rw [names, List.getLast?_concat, Option.bind_some, if_neg single]
    exact extensionOf?_eq_some_iff.mpr ⟨name, rfl, nonempty, clear⟩
  · intro found
    -- The extension is that of the last name on the path.
    obtain ⟨name, last, found⟩ := Option.bind_eq_some_iff.mp found
    obtain ⟨folders, names⟩ := List.getLast?_eq_some_iff.mp last
    split at found
    · cases found
    · next single =>
      obtain ⟨front, rfl, nonempty, clear⟩ := extensionOf?_eq_some_iff.mp found
      exact ⟨folders, front, names, nonempty, clear, single⟩

def chosenFormat : Option String → Option String → Except Failure Format
  | some name, _ => namedFormat name
  | none, some path => guessedFormat path
  | none, none => .ok .nQuads

theorem namedFormat_of_isNamed {name : String} {format : Format} (names : format.IsNamed name.toList) :
    namedFormat name = .ok format := by
  rw [namedFormat, Format.isNamed_iff.mp names]

theorem namedFormat_of_unknown {name : String}
    (unknown : ∀ format : Format, ¬format.IsNamed name.toList) :
    namedFormat name = .error (.unknownFormat name) := by
  have missing : (Format.ofExtension? name.toList).or (Format.ofMediaType? name.toList) = none :=
    Option.eq_none_iff_forall_ne_some.mpr fun format found => unknown format (Format.isNamed_iff.mpr found)
  rw [namedFormat, missing]

theorem guessedFormat_of_hasExtension {path : String} {extension : List Char} {format : Format}
    (ends : EndsIn path extension) (names : format.HasExtension extension) :
    guessedFormat path = .ok format := by
  simp only [guessedFormat, endsIn_iff.mp ends, Format.ofExtension?_eq_some_iff.mpr names]

theorem guessedFormat_of_unknown {path : String} {extension : List Char} (ends : EndsIn path extension)
    (unknown : ∀ format : Format, ¬format.HasExtension extension) :
    guessedFormat path = .error (.unknownExtension (String.ofList extension)) := by
  have missing : Format.ofExtension? extension = none :=
    Option.eq_none_iff_forall_ne_some.mpr fun format found =>
      unknown format (Format.ofExtension?_eq_some_iff.mp found)
  simp only [guessedFormat, endsIn_iff.mp ends, missing]

theorem guessedFormat_of_bare {path : String} (bare : ∀ extension, ¬EndsIn path extension) :
    guessedFormat path = .error (.noExtension path) := by
  have missing : pathExtension? path = none :=
    Option.eq_none_iff_forall_ne_some.mpr fun extension found => bare extension (endsIn_iff.mpr found)
  rw [guessedFormat, missing]

theorem formatComes_iff {name output : Option String} {result : Except Failure Format} :
    FormatComes name output result ↔ chosenFormat name output = result := by
  constructor
  · intro comes
    cases comes with
    | named names => exact namedFormat_of_isNamed names
    | unknown unknown => exact namedFormat_of_unknown unknown
    | guessed ends names => exact guessedFormat_of_hasExtension ends names
    | unguessed ends unknown => exact guessedFormat_of_unknown ends unknown
    | bare bare => exact guessedFormat_of_bare bare
    | default => rfl
  · rintro rfl
    cases name with
    | some name =>
      rw [chosenFormat]
      by_cases known : ∃ format : Format, format.IsNamed name.toList
      · obtain ⟨format, names⟩ := known
        exact namedFormat_of_isNamed names ▸ .named names
      · have unknown := not_exists.mp known
        exact namedFormat_of_unknown unknown ▸ .unknown unknown
    | none =>
      cases output with
      | none => exact .default
      | some path =>
        rw [chosenFormat]
        by_cases extended : ∃ extension, EndsIn path extension
        · obtain ⟨extension, ends⟩ := extended
          by_cases known : ∃ format : Format, format.HasExtension extension
          · obtain ⟨format, names⟩ := known
            exact guessedFormat_of_hasExtension ends names ▸ .guessed ends names
          · have unknown := not_exists.mp known
            exact guessedFormat_of_unknown ends unknown ▸ .unguessed ends unknown
        · have bare := not_exists.mp extended
          exact guessedFormat_of_bare bare ▸ .bare bare

theorem FormatComes.unique {name output : Option String} {first second : Except Failure Format}
    (comes : FormatComes name output first) (also : FormatComes name output second) : first = second :=
  (formatComes_iff.mp comes).symm.trans (formatComes_iff.mp also)

theorem outputFormat_eq (name output : Option String) : outputFormat name output = (do
    let format ← chosenFormat name output
    if format.supportsDatasets then .ok format else .error (.noNamedGraphs format)) := by
  unfold outputFormat chosenFormat
  cases name with
  | some name => rfl
  | none =>
    cases output with
    | some path => rfl
    | none => rfl

theorem outputFormat_eq_ok_iff {name output : Option String} {format : Format} :
    outputFormat name output = .ok format ↔
      FormatComes name output (.ok format) ∧ format.supportsDatasets = true := by
  rw [outputFormat_eq, bind_eq_ok, formatComes_iff]
  constructor
  · rintro ⟨other, chosen, checked⟩
    split at checked
    · next supports =>
      cases checked
      exact ⟨chosen, supports⟩
    · cases checked
  · rintro ⟨chosen, supports⟩
    exact ⟨format, chosen, if_pos supports⟩

/-! ## Graphs -/

structure Input.Reads (read : String → FileContent) (input : Input) (plan : Plan) (hierarchy : Hierarchy)
    (roots : Roots) : Prop where
  decoded : PlanComes input.plan (read input.plan) (.ok plan)
  declared : VocabularyComes input.vocabulary (read input.vocabulary) (.ok hierarchy)
  named : input.roots.Comes read plan.prefixes (.ok roots)

/-- The input is read without a failure, and compiling the plan then has the result. -/
def Input.Compiles (read : String → FileContent) (input : Input) (result : Except UnknownType Graph) : Prop :=
  ∃ plan hierarchy roots, input.Reads read plan hierarchy roots ∧ plan.compile hierarchy roots = result

section
variable {read : String → FileContent} {input : Input}

theorem Input.Reads.unique {plan other : Plan} {hierarchy otherHierarchy : Hierarchy}
    {roots otherRoots : Roots} (first : input.Reads read plan hierarchy roots)
    (second : input.Reads read other otherHierarchy otherRoots) :
    plan = other ∧ hierarchy = otherHierarchy ∧ roots = otherRoots := by
  cases first.decoded.unique second.decoded
  cases first.declared.unique second.declared
  cases first.named.unique second.named
  exact ⟨rfl, rfl, rfl⟩

theorem Input.Compiles.unique {result other : Except UnknownType Graph}
    (compiles : input.Compiles read result) (also : input.Compiles read other) : result = other := by
  obtain ⟨plan, hierarchy, roots, reads, rfl⟩ := compiles
  obtain ⟨_, _, _, readsAgain, rfl⟩ := also
  obtain ⟨rfl, rfl, rfl⟩ := reads.unique readsAgain
  rfl

theorem Input.graphFrom_eq (input : Input) : input.graphFrom read = (do
    let plan ← decodePlan input.plan (read input.plan)
    let hierarchy ← decodeVocabulary input.vocabulary (read input.vocabulary)
    let roots ← input.roots.roots read plan.prefixes
    compile plan hierarchy roots) := by
  unfold Input.graphFrom
  cases input.roots with
  | query path => rfl
  | texts written => rfl

theorem Input.graphFrom_of_compiles {result : Except UnknownType Graph}
    (compiles : input.Compiles read result) : input.graphFrom read = result.mapError .unknownType := by
  obtain ⟨plan, hierarchy, roots, reads, rfl⟩ := compiles
  rw [Input.graphFrom_eq, planComes_iff.mp reads.decoded, vocabularyComes_iff.mp reads.declared]
  exact congrArg (· >>= compile plan hierarchy) (RootSource.comes_iff.mp reads.named)

theorem Input.graphFrom_eq_ok_iff {graph : Graph} :
    input.graphFrom read = .ok graph ↔ input.Compiles read (.ok graph) := by
  constructor
  · intro computed
    rw [Input.graphFrom_eq] at computed
    obtain ⟨plan, decoded, computed⟩ := bind_eq_ok.mp computed
    obtain ⟨hierarchy, declared, computed⟩ := bind_eq_ok.mp computed
    obtain ⟨roots, named, compiled⟩ := bind_eq_ok.mp computed
    exact ⟨plan, hierarchy, roots, ⟨planComes_iff.mpr decoded, vocabularyComes_iff.mpr declared,
      RootSource.comes_iff.mpr named⟩, mapError_eq_ok.mp compiled⟩
  · exact Input.graphFrom_of_compiles

end

end Command
end PlanGraph
