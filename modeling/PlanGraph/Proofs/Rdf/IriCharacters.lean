import Mathlib.Data.List.Basic
import Mathlib.Data.Option.Basic
import PlanGraph.Proofs.Text.ReadBack
import PlanGraph.Rdf.Iri

/-! The characters of well-formed IRIs. No delimiter of the formats around them is among these, so an
IRI is read back as it was written. -/

set_option autoImplicit false
namespace PlanGraph.Rdf
open Text

def isIriChar (char : Char) : Bool := isQueryChar char || ['%', '#', '[', ']'].contains char

def AreIriChars (chars : List Char) : Prop := ∀ char ∈ chars, isIriChar char = true

instance (chars : List Char) : Decidable (AreIriChars chars) :=
  List.decidableBAll (fun char => isIriChar char = true) chars

theorem areIriChars_nil : AreIriChars [] := fun _ inside => absurd inside (by simp)

theorem areIriChars_cons {first : Char} {rest : List Char} :
    AreIriChars (first :: rest) ↔ isIriChar first = true ∧ AreIriChars rest := List.forall_mem_cons

theorem areIriChars_append {before after : List Char} :
    AreIriChars (before ++ after) ↔ AreIriChars before ∧ AreIriChars after := List.forall_mem_append

/-! ## The kinds of characters -/

theorem isIriChar_of_isQueryChar {char : Char} (allowed : isQueryChar char = true) :
    isIriChar char = true := by
  rw [isIriChar, allowed, Bool.true_or]

theorem isIriChar_of_isFragmentChar {char : Char} (allowed : isFragmentChar char = true) :
    isIriChar char = true :=
  isIriChar_of_isQueryChar (by rw [isQueryChar, allowed, Bool.true_or])

theorem isIriChar_of_isPathChar {char : Char} (allowed : isPathChar char = true) :
    isIriChar char = true :=
  isIriChar_of_isFragmentChar (by rw [isFragmentChar, allowed, Bool.true_or])

theorem isIriChar_of_isNameSegmentChar {char : Char} (allowed : isNameSegmentChar char = true) :
    isIriChar char = true :=
  isIriChar_of_isPathChar (by simp [isPathChar, allowed])

theorem isIriChar_of_isUserChar {char : Char} (allowed : isUserChar char = true) :
    isIriChar char = true := by
  rcases Bool.or_eq_true_iff.mp allowed with segment | colon
  · exact isIriChar_of_isNameSegmentChar segment
  · exact isIriChar_of_isPathChar (by simp [isPathChar, colon])

theorem isUserChar_of_isAlphanum {char : Char} (letter : char.isAlphanum = true) :
    isUserChar char = true := by
  simp [isUserChar, isNameSegmentChar, isAsciiUnreserved, letter]

theorem isUserChar_of_isDigit {char : Char} (digit : char.isDigit = true) : isUserChar char = true :=
  isUserChar_of_isAlphanum (by simp [Char.isAlphanum, digit])

theorem isUserChar_of_isFutureAddressChar {char : Char} (allowed : isFutureAddressChar char = true) :
    isUserChar char = true := by
  simp only [isFutureAddressChar, isUserChar, isNameSegmentChar, Bool.or_eq_true] at allowed ⊢
  exact allowed.imp_left Or.inl

theorem isIriChar_of_isAlphanum {char : Char} (letter : char.isAlphanum = true) :
    isIriChar char = true := isIriChar_of_isUserChar (isUserChar_of_isAlphanum letter)

theorem isIriChar_of_isSchemeChar {char : Char} (allowed : isSchemeChar char = true) :
    isIriChar char = true := by
  simp only [isSchemeChar, Bool.or_eq_true, beq_iff_eq] at allowed
  rcases allowed with ((letter | rfl) | rfl) | rfl
  · exact isIriChar_of_isAlphanum letter
  all_goals decide

theorem isAlphanum_of_isHexDigit {char : Char} (digit : isHexDigit char = true) :
    char.isAlphanum = true := by
  unfold Char.isAlphanum Char.isAlpha Char.isUpper Char.isLower
  simp only [Bool.or_eq_true, Bool.and_eq_true, decide_eq_true_eq]
  unfold isHexDigit hexValue? at digit
  split at digit
  · rename_i decimal
    exact Or.inr decimal
  · split at digit
    · rename_i small
      exact Or.inl (Or.inr ⟨small.1, Nat.le_trans small.2 (by decide)⟩)
    · split at digit
      · rename_i large
        exact Or.inl (Or.inl ⟨large.1, Nat.le_trans large.2 (by decide)⟩)
      · cases digit

theorem isUserChar_of_isHexDigit {char : Char} (digit : isHexDigit char = true) :
    isUserChar char = true := isUserChar_of_isAlphanum (isAlphanum_of_isHexDigit digit)

theorem isIriChar_of_isHexDigit {char : Char} (digit : isHexDigit char = true) :
    isIriChar char = true := isIriChar_of_isUserChar (isUserChar_of_isHexDigit digit)

/-! ## Components -/

theorem areIriChars_of_all {kind : Char → Bool} {chars : List Char}
    (allowed : ∀ char, kind char = true → isIriChar char = true) (all : chars.all kind = true) :
    AreIriChars chars := fun char inside => allowed char (List.all_eq_true.mp all char inside)

theorem areIriChars_of_consistsOf {kind : Char → Bool} {chars : List Char}
    (allowed : ∀ char, kind char = true → isIriChar char = true)
    (consists : consistsOf kind chars = true) : AreIriChars chars := by
  induction chars using consistsOf.induct with
  | case1 => exact areIriChars_nil
  | case2 high low rest ih =>
    simp only [consistsOf, Bool.and_eq_true] at consists
    obtain ⟨⟨highDigit, lowDigit⟩, further⟩ := consists
    refine areIriChars_cons.mpr ⟨by decide, areIriChars_cons.mpr ⟨?_, areIriChars_cons.mpr ⟨?_, ?_⟩⟩⟩
    · exact isIriChar_of_isHexDigit highDigit
    · exact isIriChar_of_isHexDigit lowDigit
    · exact ih further
  | case3 char rest plain ih =>
    rw [consistsOf] at consists
    · simp only [Bool.and_eq_true] at consists
      exact areIriChars_cons.mpr ⟨allowed char consists.1.2, ih consists.2⟩
    · exact plain

theorem mem_splitOn {separator char : Char} {chars : List Char} (inside : char ∈ chars) :
    char = separator ∨ ∃ piece ∈ splitOn separator chars, char ∈ piece := by
  induction chars with
  | nil => cases inside
  | cons first rest ih =>
    unfold splitOn
    split
    · rename_i same
      rcases List.mem_cons.mp inside with here | later
      · exact Or.inl (here.trans same)
      · rcases ih later with equal | ⟨piece, listed, found⟩
        · exact Or.inl equal
        · exact Or.inr ⟨piece, List.mem_cons_of_mem _ listed, found⟩
    · split
      · rename_i none
        rcases List.mem_cons.mp inside with here | later
        · exact Or.inr ⟨[first], by simp, by simp [here]⟩
        · rcases ih later with equal | ⟨piece, listed, found⟩
          · exact Or.inl equal
          · rw [none] at listed
            cases listed
      · rename_i start pieces parts
        rcases List.mem_cons.mp inside with here | later
        · exact Or.inr ⟨first :: start, by simp, by simp [here]⟩
        · rcases ih later with equal | ⟨piece, listed, found⟩
          · exact Or.inl equal
          · rw [parts] at listed
            rcases List.mem_cons.mp listed with same | behind
            · exact Or.inr ⟨first :: start, by simp, by simp [← same, found]⟩
            · exact Or.inr ⟨piece, List.mem_cons_of_mem _ behind, found⟩

/-- The pieces between separators decide on a text. -/
theorem all_of_splitOn {kind : Char → Bool} {separator : Char} {chars : List Char}
    (delimiter : kind separator = true)
    (pieces : ∀ piece ∈ splitOn separator chars, piece.all kind = true) : chars.all kind = true := by
  refine List.all_eq_true.mpr fun char inside => ?_
  rcases mem_splitOn inside with same | ⟨piece, listed, found⟩
  · rw [same]
    exact delimiter
  · exact List.all_eq_true.mp (pieces piece listed) char found

/-! ## Hosts -/

theorem all_of_kind {kind wider : Char → Bool} {chars : List Char}
    (allowed : ∀ char, kind char = true → wider char = true) (all : chars.all kind = true) :
    chars.all wider = true :=
  List.all_eq_true.mpr fun char inside => allowed char (List.all_eq_true.mp all char inside)

theorem isHexDigit_of_isDigit {char : Char} (digit : char.isDigit = true) : isHexDigit char = true := by
  simp [isHexDigit, hexValue?, digit]

theorem eq_append_of_cutAtGap? {chars before after : List Char}
    (cut : cutAtGap? chars = some (before, after)) : chars = before ++ ':' :: ':' :: after := by
  fun_induction cutAtGap? chars generalizing before with
  | case1 => cases cut
  | case2 => cases cut
  | case3 rest =>
    cases cut
    rfl
  | case4 first rest _ _ ih =>
    obtain ⟨⟨lead, behind⟩, found, whole⟩ := Option.map_eq_some_iff.mp cut
    cases whole
    rw [ih found, List.cons_append]

section
variable {kind : Char → Bool} (digits : ∀ char, isHexDigit char = true → kind char = true)
include digits

theorem all_of_isHexGroup {group : List Char} (hex : isHexGroup group = true) :
    group.all kind = true := by
  simp only [isHexGroup, Bool.and_eq_true] at hex
  exact all_of_kind digits hex.2

variable (dot : kind '.' = true)
include dot

theorem all_of_isIpv4 {chars : List Char} (address : isIpv4 chars = true) : chars.all kind = true := by
  simp only [isIpv4, Bool.and_eq_true, List.all_eq_true] at address
  apply all_of_splitOn dot
  intro octet listed
  have decimal := address.2 octet listed
  simp only [isOctet, Bool.and_eq_true] at decimal
  exact all_of_kind (fun char digit => digits char (isHexDigit_of_isDigit digit)) decimal.1.1

theorem all_of_groupCount? {ipv4Allowed : Bool} {groups : List (List Char)} {count : Nat}
    (counted : groupCount? ipv4Allowed groups = some count) :
    ∀ group ∈ groups, group.all kind = true := by
  fun_induction groupCount? ipv4Allowed groups generalizing count with
  | case1 => exact fun _ inside => absurd inside (by simp)
  | case2 last hex => exact List.forall_mem_singleton.mpr (all_of_isHexGroup digits hex)
  | case3 last _ dotted =>
    exact List.forall_mem_singleton.mpr (all_of_isIpv4 digits dot (Bool.and_eq_true_iff.mp dotted).2)
  | case4 => cases counted
  | case5 group rest _ hex ih =>
    obtain ⟨others, found, _⟩ := Option.map_eq_some_iff.mp counted
    exact List.forall_mem_cons.mpr ⟨all_of_isHexGroup digits hex, ih found⟩
  | case6 => cases counted

variable (colon : kind ':' = true)
include colon

theorem all_of_groupsBetweenColons {ipv4Allowed : Bool} {chars : List Char} {count : Nat}
    (counted : groupCount? ipv4Allowed (groupsBetweenColons chars) = some count) :
    chars.all kind = true := by
  unfold groupsBetweenColons at counted
  split at counted
  · rename_i empty
    rw [List.isEmpty_iff.mp empty]
    rfl
  · exact all_of_splitOn colon (all_of_groupCount? digits dot counted)

theorem all_of_isIpv6 {chars : List Char} (address : isIpv6 chars = true) : chars.all kind = true := by
  unfold isIpv6 at address
  split at address
  · exact all_of_groupsBetweenColons digits dot colon (beq_iff_eq.mp address)
  · rename_i head tail cut
    rw [eq_append_of_cutAtGap? cut]
    split at address
    · rename_i before after beforeGap afterGap
      simp only [List.all_append, List.all_cons, colon, Bool.true_and, Bool.and_eq_true]
      constructor
      · exact all_of_groupsBetweenColons digits dot colon beforeGap
      · exact all_of_groupsBetweenColons digits dot colon afterGap
    · cases address

end

theorem all_isUserChar_of_isIpv6 {chars : List Char} (address : isIpv6 chars = true) :
    chars.all isUserChar = true :=
  all_of_isIpv6 (fun _ => isUserChar_of_isHexDigit) (by decide) (by decide) address

theorem all_isUserChar_of_isFutureAddress {chars : List Char}
    (address : isFutureAddress chars = true) : chars.all isUserChar = true := by
  unfold isFutureAddress at address
  split at address
  · cases address
  · rename_i first rest
    simp only [Bool.and_eq_true, Bool.or_eq_true, beq_iff_eq] at address
    obtain ⟨letter, address⟩ := address
    split at address
    · rename_i version behind cut
      simp only [Bool.and_eq_true] at address
      have dot : isUserChar '.' = true := by decide
      rw [(cutAt?_eq_some_iff.mp cut).1]
      simp only [List.all_cons, List.all_append, dot, Bool.true_and, Bool.and_eq_true]
      refine ⟨?_, ?_, ?_⟩
      · rcases letter with rfl | rfl <;> decide
      · exact all_of_kind (fun _ => isUserChar_of_isHexDigit) address.1.1.2
      · exact all_of_kind (fun _ => isUserChar_of_isFutureAddressChar) address.2
    · cases address

theorem all_isUserChar_of_isServiceNumber {chars : List Char}
    (service : isServiceNumber chars = true) : chars.all isUserChar = true := by
  cases chars with
  | nil => rfl
  | cons first digits =>
    simp only [isServiceNumber, Bool.and_eq_true, beq_iff_eq] at service
    have colon : isUserChar ':' = true := by decide
    rw [service.1, List.all_cons, colon, Bool.true_and]
    exact all_of_kind (fun _ => isUserChar_of_isDigit) service.2

theorem areIriChars_of_isServiceNumber {chars : List Char} (service : isServiceNumber chars = true) :
    AreIriChars chars :=
  areIriChars_of_all (fun _ => isIriChar_of_isUserChar) (all_isUserChar_of_isServiceNumber service)

theorem areIriChars_of_isHost {chars : List Char} (host : isHost chars = true) :
    AreIriChars chars := by
  unfold isHost at host
  split at host
  · split at host
    · rename_i rest address after cut
      simp only [Bool.and_eq_true, Bool.or_eq_true] at host
      rw [(cutAt?_eq_some_iff.mp cut).1]
      refine areIriChars_cons.mpr ⟨by decide, areIriChars_append.mpr ⟨?_,
        areIriChars_cons.mpr ⟨by decide, ?_⟩⟩⟩
      · exact areIriChars_of_all (fun _ => isIriChar_of_isUserChar)
          (host.1.elim all_isUserChar_of_isFutureAddress all_isUserChar_of_isIpv6)
      · exact areIriChars_of_isServiceNumber host.2
    · cases host
  · simp only [Bool.and_eq_true] at host
    rw [← List.takeWhile_append_dropWhile (p := (· != ':')) (l := chars)]
    exact areIriChars_append.mpr
      ⟨areIriChars_of_consistsOf (fun _ => isIriChar_of_isNameSegmentChar) host.1,
        areIriChars_of_isServiceNumber host.2⟩

theorem areIriChars_of_isAuthority {chars : List Char} (authority : isAuthority chars = true) :
    AreIriChars chars := by
  unfold isAuthority at authority
  split at authority
  · rename_i user host cut
    simp only [Bool.and_eq_true] at authority
    rw [(cutAt?_eq_some_iff.mp cut).1]
    exact areIriChars_append.mpr
      ⟨areIriChars_of_consistsOf (fun _ => isIriChar_of_isUserChar) authority.1,
        areIriChars_cons.mpr ⟨by decide, areIriChars_of_isHost authority.2⟩⟩
  · exact areIriChars_of_isHost authority

/-! ## Whole IRIs -/

theorem eq_append_of_cutScheme? {chars scheme after : List Char}
    (cut : cutScheme? chars = some (scheme, after)) :
    chars = scheme ++ ':' :: after ∧ AreIriChars scheme ∧ ∃ first rest, scheme = first :: rest ∧
      first.isAlpha = true := by
  unfold cutScheme? at cut
  split at cut
  · rename_i first rest behind found
    split at cut
    · rename_i named
      cases cut
      simp only [Bool.and_eq_true] at named
      refine ⟨(cutAt?_eq_some_iff.mp found).1, areIriChars_cons.mpr ⟨?_, ?_⟩, first, rest, rfl, named.1⟩
      · exact isIriChar_of_isAlphanum (by simp [Char.isAlphanum, named.1])
      · exact areIriChars_of_all (fun _ => isIriChar_of_isSchemeChar) named.2
    · cases cut
  · cases cut

theorem cutBefore_eq {delimiters chars before after : List Char}
    (cut : cutBefore delimiters chars = (before, after)) :
    chars = before ++ after ∧ ∀ first ∈ after.head?, first ∈ delimiters := by
  cases cut
  refine ⟨List.takeWhile_append_dropWhile.symm, fun first leads => ?_⟩
  have stopped := List.head?_dropWhile_not (!delimiters.contains ·) chars
  rw [Option.mem_def.mp leads] at stopped
  simpa using stopped

/-- The components, written one after the other, give the text they come from. -/
theorem IriParts.toChars_ofChars (chars : List Char) : (IriParts.ofChars chars).toChars = chars := by
  unfold IriParts.ofChars
  split
  rename_i scheme hierarchy schemeCut
  split
  rename_i authority afterAuthority authorityCut
  split
  rename_i path afterPath pathCut
  split
  rename_i query afterQuery queryCut
  -- What each cut takes away stands in front of what it leaves, with the delimiter between them.
  have schemeBack : (scheme.map (· ++ [':'])).getD [] ++ hierarchy = chars := by
    split at schemeCut
    · rename_i found
      cases schemeCut
      simp [(eq_append_of_cutScheme? found).1]
    · cases schemeCut
      rfl
  have authorityBack : (authority.map (['/', '/'] ++ ·)).getD [] ++ afterAuthority = hierarchy := by
    split at authorityCut
    · rename_i rest found
      split at authorityCut
      rename_i cut
      cases authorityCut
      simp [after?_eq_some_iff.mp found, (cutBefore_eq cut).1]
    · cases authorityCut
      rfl
  have queryBack : (query.map ('?' :: ·)).getD [] ++ afterQuery = afterPath ∧
      ∀ first ∈ afterQuery.head?, first = '#' := by
    split at queryCut
    · rename_i rest
      split at queryCut
      rename_i cut
      cases queryCut
      simpa [← (cutBefore_eq cut).1] using (cutBefore_eq cut).2
    · rename_i other
      cases queryCut
      refine ⟨rfl, fun first leads => ?_⟩
      obtain ⟨rest, rfl⟩ := List.head?_eq_some_iff.mp leads
      have delimiter := (cutBefore_eq pathCut).2 first rfl
      rcases List.mem_cons.mp delimiter with rfl | hash
      · exact absurd rfl (other rest)
      · exact List.mem_singleton.mp hash
  rw [← schemeBack, ← authorityBack, (cutBefore_eq pathCut).1, ← queryBack.1]
  simp only [toChars]
  split
  · simp
  · rename_i other
    cases afterQuery with
    | nil => simp
    | cons first rest =>
      cases queryBack.2 first rfl
      exact absurd rfl (other rest)

theorem IriParts.scheme_ofChars (chars : List Char) :
    (IriParts.ofChars chars).scheme = (cutScheme? chars).map Prod.fst := by
  simp only [IriParts.ofChars]
  split
  · rename_i found
    rw [found]
    rfl
  · rename_i missing
    rw [missing]
    rfl

theorem cutScheme?_of_isAbsoluteIri {chars : List Char} (absolute : isAbsoluteIri chars = true) :
    ∃ scheme after, cutScheme? chars = some (scheme, after) := by
  simp only [isAbsoluteIri, Bool.and_eq_true, IriParts.scheme_ofChars, Option.isSome_map] at absolute
  obtain ⟨⟨scheme, after⟩, found⟩ := Option.isSome_iff_exists.mp absolute.1
  exact ⟨scheme, after, found⟩

theorem isAlpha_of_isAbsoluteIri {chars : List Char} (absolute : isAbsoluteIri chars = true) :
    ∃ first rest, chars = first :: rest ∧ first.isAlpha = true := by
  obtain ⟨scheme, after, cut⟩ := cutScheme?_of_isAbsoluteIri absolute
  obtain ⟨whole, _, first, rest, rfl, letter⟩ := eq_append_of_cutScheme? cut
  exact ⟨first, rest ++ ':' :: after, whole, letter⟩

theorem areIriChars_of_component {part : Option (List Char)} {mark : List Char}
    (marks : AreIriChars mark) (component : ∀ chars ∈ part, AreIriChars chars) :
    AreIriChars ((part.map (mark ++ ·)).getD []) := by
  cases part with
  | none => exact areIriChars_nil
  | some chars => exact areIriChars_append.mpr ⟨marks, component chars rfl⟩

theorem areIriChars_of_isAbsoluteIri {chars : List Char} (absolute : isAbsoluteIri chars = true) :
    AreIriChars chars := by
  obtain ⟨scheme, after, cut⟩ := cutScheme?_of_isAbsoluteIri absolute
  have named : AreIriChars scheme := (eq_append_of_cutScheme? cut).2.1
  have schemePart := IriParts.scheme_ofChars chars
  rw [cut] at schemePart
  simp only [isAbsoluteIri, IriParts.isWellFormed, Bool.and_eq_true, Option.all_eq_true] at absolute
  obtain ⟨_, ⟨⟨⟨authority, path⟩, _⟩, query⟩, fragment⟩ := absolute
  rw [← IriParts.toChars_ofChars chars, IriParts.toChars, schemePart]
  have slashes : AreIriChars ['/', '/'] := by decide
  have question : AreIriChars ['?'] := by decide
  have hash : AreIriChars ['#'] := by decide
  refine areIriChars_append.mpr ⟨areIriChars_append.mpr ⟨areIriChars_append.mpr
    ⟨areIriChars_append.mpr ⟨areIriChars_append.mpr ⟨named, ?_⟩, ?_⟩, ?_⟩, ?_⟩, ?_⟩
  · decide
  · exact areIriChars_of_component slashes fun chars here =>
      areIriChars_of_isAuthority (authority chars here)
  · exact areIriChars_of_consistsOf (fun _ => isIriChar_of_isPathChar) path
  · exact areIriChars_of_component question fun chars here =>
      areIriChars_of_consistsOf (fun _ => isIriChar_of_isQueryChar) (query chars here)
  · exact areIriChars_of_component hash fun chars here =>
      areIriChars_of_consistsOf (fun _ => isIriChar_of_isFragmentChar) (fragment chars here)

theorem not_mem_of_isAbsoluteIri {chars : List Char} {char : Char} (foreign : isIriChar char = false)
    (absolute : isAbsoluteIri chars = true) : char ∉ chars := fun inside =>
  absurd (areIriChars_of_isAbsoluteIri absolute char inside) (by simp [foreign])

/-- Without a base, exactly the absolute IRIs are read, and they stay as they are. -/
theorem resolveIri?_none_eq_some_iff {written : List Char} {iri : Iri} :
    resolveIri? none written = some iri ↔
      isAbsoluteIri written = true ∧ iri = String.ofList written := by
  simp only [resolveIri?, isAbsoluteIri]
  cases named : (IriParts.ofChars written).scheme.isSome with
  | true =>
    simp only [if_true, Bool.true_and, Option.ite_none_right_eq_some, Option.some.injEq]
    exact and_congr_right fun _ => eq_comm
  | false => simp

end PlanGraph.Rdf
