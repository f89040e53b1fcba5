import PlanGraph.Proofs.Rdf.IriCharacters
import PlanGraph.Rdf.IriFault

/-! A text has a fault exactly if it is no absolute IRI. Faults are looked for from left to right and
across the ends of components, where the grammar looks at one component at a time. -/

set_option autoImplicit false
namespace PlanGraph.Rdf
open Text

section
variable {allowed : Char → Bool} {behind chars rest : List Char}

/-! ## Components -/

theorem componentFault?_eq_none_iff :
    componentFault? allowed behind chars = none ↔ consistsOf allowed chars = true := by
  induction chars using consistsOf.induct with
  | case1 => simp [componentFault?, consistsOf]
  | case2 high low rest ih =>
    rw [componentFault?, consistsOf]
    split
    · next digits => rw [ih, digits, Bool.true_and]
    · next other => simp [Bool.eq_false_iff.mpr other]
  | case3 char rest plain ih =>
    rw [componentFault?, consistsOf]
    · by_cases percent : char = '%'
      · simp [percent]
      · by_cases fits : allowed char = true
        · simp [percent, fits, ih]
        · simp [percent, fits]
    · exact plain
    · exact plain

theorem consistsOf_mono {wider : Char → Bool}
    (wide : ∀ char, allowed char = true → wider char = true)
    (consists : consistsOf allowed chars = true) : consistsOf wider chars = true := by
  induction chars using consistsOf.induct with
  | case1 => rfl
  | case2 high low rest ih =>
    rw [consistsOf, Bool.and_eq_true] at consists ⊢
    exact ⟨consists.1, ih consists.2⟩
  | case3 char rest plain ih =>
    rw [consistsOf] at consists ⊢
    · simp only [Bool.and_eq_true] at consists ⊢
      exact ⟨⟨consists.1.1, wide char consists.1.2⟩, ih consists.2⟩
    all_goals exact plain

theorem not_mem_of_consistsOf {char : Char} (foreign : allowed char = false) (sign : char ≠ '%')
    (digit : isHexDigit char = false) (consists : consistsOf allowed chars = true) : char ∉ chars := by
  induction chars using consistsOf.induct with
  | case1 => simp
  | case2 high low rest ih =>
    simp only [consistsOf, Bool.and_eq_true] at consists
    have notHigh : char ≠ high := fun same => by simp [same, consists.1.1] at digit
    have notLow : char ≠ low := fun same => by simp [same, consists.1.2] at digit
    simp [sign, notHigh, notLow, ih consists.2]
  | case3 first rest plain ih =>
    rw [consistsOf] at consists
    · simp only [Bool.and_eq_true] at consists
      have notFirst : char ≠ first := fun same => by simp [same, consists.1.2] at foreign
      simp [notFirst, ih consists.2]
    · exact plain

theorem consistsOf_append {before after : List Char} (first : consistsOf allowed before = true)
    (second : consistsOf allowed after = true) : consistsOf allowed (before ++ after) = true := by
  induction before using consistsOf.induct with
  | case1 => exact second
  | case2 high low rest ih =>
    simp only [List.cons_append, consistsOf, Bool.and_eq_true] at first ⊢
    exact ⟨first.1, ih first.2⟩
  | case3 char rest plain ih =>
    rw [consistsOf] at first
    swap
    · exact plain
    simp only [Bool.and_eq_true, bne_iff_ne] at first
    rw [List.cons_append, consistsOf]
    · simp [first.1, ih first.2]
    · exact fun _ _ _ percent => absurd percent first.1.1

theorem consistsOf_of_all (plain : allowed '%' = false) (all : chars.all allowed = true) :
    consistsOf allowed chars = true := by
  induction chars with
  | nil => rfl
  | cons first rest ih =>
    simp only [List.all_cons, Bool.and_eq_true] at all
    have other : first ≠ '%' := fun same => by simp [same, plain] at all
    rw [consistsOf]
    · simp [other, all.1, ih all.2]
    · exact fun _ _ _ percent => absurd percent other

/-! ## Hosts -/

theorem futureAddressFault?_eq_none_iff {letter : Char} (version : letter = 'v' ∨ letter = 'V') :
    futureAddressFault? chars = none ↔ isFutureAddress (letter :: chars) = true := by
  have marked : (letter == 'v' || letter == 'V') = true := by simpa using version
  rw [futureAddressFault?, isFutureAddress, marked, Bool.true_and]
  cases cutAt? '.' chars with
  | none => simp
  | some halves =>
    obtain ⟨number, address⟩ := halves
    dsimp only
    cases found : number.find? (!isHexDigit ·) with
    | some char =>
      have foreign : number.all isHexDigit = false := by
        apply Bool.eq_false_iff.mpr
        intro all
        have digit := List.all_eq_true.mp all char (List.mem_of_find?_eq_some found)
        simpa [digit] using List.find?_some found
      simp [foreign]
    | none =>
      have all : number.all isHexDigit = true := by simpa using found
      cases number.isEmpty <;> cases address.isEmpty <;> simp [all]

theorem isIpv6_cons_eq_false {letter : Char} (version : letter = 'v' ∨ letter = 'V') :
    isIpv6 (letter :: rest) = false := by
  apply Bool.eq_false_iff.mpr
  intro address
  -- An address of the sixth version has no letters but hexadecimal digits.
  have other : (letter :: rest).all (fun char => char != 'v' && char != 'V') = true := by
    apply all_of_isIpv6 _ (by decide) (by decide) address
    intro char digit
    have small : char ≠ 'v' := fun same => by simp [same] at digit; cases digit
    have large : char ≠ 'V' := fun same => by simp [same] at digit; cases digit
    simp [small, large]
  rcases version with rfl | rfl <;> simp at other

theorem addressFault?_eq_none_iff :
    addressFault? chars = none ↔ (isFutureAddress chars || isIpv6 chars) = true := by
  unfold addressFault?
  split
  · rw [futureAddressFault?_eq_none_iff (Or.inl rfl), isIpv6_cons_eq_false (Or.inl rfl), Bool.or_false]
  · rw [futureAddressFault?_eq_none_iff (Or.inr rfl), isIpv6_cons_eq_false (Or.inr rfl), Bool.or_false]
  · next small large =>
    have present : isFutureAddress chars = false := by
      cases chars with
      | nil => rfl
      | cons letter rest =>
        have notSmall : letter ≠ 'v' := fun same => small rest (by rw [same])
        have notLarge : letter ≠ 'V' := fun same => large rest (by rw [same])
        simp [isFutureAddress, notSmall, notLarge]
    cases isIpv6 chars <;> simp [present]

theorem all_isUserChar_of_addressFault? (sound : addressFault? chars = none) :
    chars.all isUserChar = true := by
  rcases Bool.or_eq_true_iff.mp (addressFault?_eq_none_iff.mp sound) with future | sixth
  · exact all_isUserChar_of_isFutureAddress future
  · exact all_isUserChar_of_isIpv6 sixth

theorem serviceNumberFault?_eq_none_iff :
    serviceNumberFault? chars = none ↔ isServiceNumber chars = true := by
  cases chars with
  | nil => simp [serviceNumberFault?, isServiceNumber]
  | cons first digits =>
    by_cases colon : first = ':'
    · simp [serviceNumberFault?, isServiceNumber, colon]
    · simp [serviceNumberFault?, isServiceNumber, colon]

def EndsAuthority (behind : List Char) : Prop := ∀ first ∈ behind.head?, first ∈ ['/', '?', '#']

theorem addressFault?_ne_none_of_open (ends : EndsAuthority behind) {more after : List Char}
    (closed : behind = more ++ ']' :: after) : addressFault? (rest ++ more) ≠ none := by
  intro sound
  -- The address would go on behind the authority, with a character that none has.
  have users := all_isUserChar_of_addressFault? sound
  cases more with
  | nil =>
    have bracket := ends ']' (by simp [closed])
    simp at bracket
  | cons first more =>
    have delimiter := ends first (by simp [closed])
    simp only [List.all_append, List.all_cons, Bool.and_eq_true] at users
    have user := users.2.1
    simp only [List.mem_cons, List.not_mem_nil, or_false] at delimiter
    rcases delimiter with rfl | rfl | rfl <;> exact absurd user (by decide)

theorem hostFault?_eq_none_iff (ends : EndsAuthority behind) :
    hostFault? behind chars = none ↔ isHost chars = true := by
  unfold hostFault?
  split
  · next rest =>
    rw [isHost]
    cases cutAt? ']' rest with
    | some halves =>
      obtain ⟨address, after⟩ := halves
      dsimp only
      rw [Option.orElse_eq_none, addressFault?_eq_none_iff, serviceNumberFault?_eq_none_iff,
        Bool.and_eq_true]
    | none =>
      cases closed : cutAt? ']' behind with
      | none => simp
      | some halves => simpa using addressFault?_ne_none_of_open ends (cutAt?_eq_some_iff.mp closed).1
  · next other =>
    rw [isHost]
    swap
    · exact other
    have same : (fun char => !List.contains [':'] char) = (· != ':') := by
      funext char
      by_cases colon : char = ':' <;> simp [colon]
    simp only [cutBefore, same]
    rw [Option.orElse_eq_none, componentFault?_eq_none_iff, serviceNumberFault?_eq_none_iff,
      Bool.and_eq_true]

theorem consistsOf_isUserChar_of_isHost (name : chars.head? ≠ some '[') (host : isHost chars = true) :
    consistsOf isUserChar chars = true := by
  unfold isHost at host
  split at host
  · simp at name
  · rw [Bool.and_eq_true] at host
    -- A user may have the colon in it that a service number starts with.
    rw [← List.takeWhile_append_dropWhile (p := (· != ':')) (l := chars)]
    apply consistsOf_append
    · exact consistsOf_mono (fun char allowed => by simp [isUserChar, allowed]) host.1
    · exact consistsOf_of_all (by decide) (all_isUserChar_of_isServiceNumber host.2)

theorem not_mem_of_isHost (host : isHost chars = true) : '@' ∉ chars := by
  by_cases bracket : chars.head? = some '['
  · obtain ⟨rest, rfl⟩ := List.head?_eq_some_iff.mp bracket
    rw [isHost] at host
    split at host
    · next address after cut =>
      rw [Bool.and_eq_true, ← addressFault?_eq_none_iff] at host
      have addressUsers := List.all_eq_true.mp (all_isUserChar_of_addressFault? host.1)
      have afterUsers := List.all_eq_true.mp (all_isUserChar_of_isServiceNumber host.2)
      have notBefore : '@' ∉ address := fun inside => absurd (addressUsers '@' inside) (by decide)
      have notAfter : '@' ∉ after := fun inside => absurd (afterUsers '@' inside) (by decide)
      rw [(cutAt?_eq_some_iff.mp cut).1]
      simp [notBefore, notAfter]
    · cases host
  · apply not_mem_of_consistsOf _ _ _ (consistsOf_isUserChar_of_isHost bracket host)
    all_goals decide

/-! ## Authorities -/

theorem not_mem_of_cutBefore {delimiters before after : List Char} {char : Char}
    (cut : cutBefore delimiters chars = (before, after)) (delimiter : char ∈ delimiters) :
    char ∉ before := by
  intro inside
  cases cut
  have kept := List.all_eq_true.mp (List.all_takeWhile (p := (!delimiters.contains ·))) char inside
  simp [delimiter] at kept

section
variable {user after : List Char} (cut : cutBefore ['@', '['] chars = (user, after))
  (noUser : after.head? ≠ some '@')
include cut noUser

theorem eq_nil_or_bracket : after = [] ∨ ∃ rest, after = '[' :: rest := by
  cases after with
  | nil => exact Or.inl rfl
  | cons first rest =>
    have mark := (cutBefore_eq cut).2 first rfl
    simp only [List.mem_cons, List.not_mem_nil, or_false] at mark
    rcases mark with rfl | rfl
    · exact absurd rfl noUser
    · exact Or.inr ⟨rest, rfl⟩

/-- Where a bracket stands before the first `@`, that `@` does not end a user. -/
theorem not_consistsOf_of_cutAt? {before host : List Char}
    (found : cutAt? '@' chars = some (before, host)) : consistsOf isUserChar before ≠ true := by
  intro consists
  have noMark : '@' ∉ user := not_mem_of_cutBefore cut (by decide)
  have noBracket : '[' ∉ before := by
    apply not_mem_of_consistsOf _ _ _ consists
    all_goals decide
  have same : user ++ after = before ++ '@' :: host :=
    (cutBefore_eq cut).1.symm.trans (cutAt?_eq_some_iff.mp found).1
  rcases eq_nil_or_bracket cut noUser with rfl | ⟨rest, rfl⟩
  · rw [List.append_nil] at same
    exact noMark (by simp [same])
  · rcases List.append_eq_append_iff.mp same with ⟨more, rfl, bracketed⟩ | ⟨more, rfl, marked⟩
    · cases more with
      | nil => simp at bracketed
      | cons first more =>
        cases bracketed
        simp at noBracket
    · cases more with
      | nil => simp at marked
      | cons first more =>
        cases marked
        simp at noMark

theorem consistsOf_of_isHost (host : isHost chars = true) : consistsOf isUserChar user = true := by
  by_cases bracket : chars.head? = some '['
  · obtain ⟨rest, rfl⟩ := List.head?_eq_some_iff.mp bracket
    cases cut
    rfl
  · have consists := consistsOf_isUserChar_of_isHost bracket host
    have noBracket : '[' ∉ chars := by
      apply not_mem_of_consistsOf _ _ _ consists
      all_goals decide
    have whole := (cutBefore_eq cut).1
    rcases eq_nil_or_bracket cut noUser with rfl | ⟨rest, rfl⟩
    · rwa [whole, List.append_nil] at consists
    · simp [whole] at noBracket

end

/-- If no `@` is the first of the marks, the whole authority is a host. The characters before a bracket
were read as a user then, but no host has any. -/
theorem isAuthority_iff_isHost {user after : List Char} (cut : cutBefore ['@', '['] chars = (user, after))
    (noUser : after.head? ≠ some '@') :
    isAuthority chars = true ↔ consistsOf isUserChar user = true ∧ isHost chars = true := by
  constructor
  · intro authority
    unfold isAuthority at authority
    split at authority
    · next before host found =>
      rw [Bool.and_eq_true] at authority
      exact absurd authority.1 (not_consistsOf_of_cutAt? cut noUser found)
    · exact ⟨consistsOf_of_isHost cut noUser authority, authority⟩
  · intro sound
    rw [isAuthority, cutAt?_eq_none_iff.mpr (not_mem_of_isHost sound.2)]
    exact sound.2

theorem authorityFault?_eq_none_iff (ends : EndsAuthority behind) :
    authorityFault? behind chars = none ↔ isAuthority chars = true := by
  unfold authorityFault?
  cases cut : cutBefore ['@', '['] chars with
  | mk user after =>
    dsimp only
    rw [Option.orElse_eq_none, componentFault?_eq_none_iff, hostFault?_eq_none_iff ends]
    split
    · next given =>
      obtain ⟨host, rfl⟩ := List.head?_eq_some_iff.mp given
      have clear : '@' ∉ user := not_mem_of_cutBefore cut (by decide)
      rw [isAuthority, (cutBefore_eq cut).1, cutAt?_append clear, List.tail_cons]
      simp only [Bool.and_eq_true]
    · next noUser => exact (isAuthority_iff_isHost cut noUser).symm

/-! ## Whole texts -/

/-- The part of `IriParts.ofChars` between the scheme and the path: without an authority the text that
remains starts no authority, with one it starts where that ends. -/
theorem IriParts.authority_ofChars (chars : List Char) :
    ∃ remaining fromQuery, remaining = (IriParts.ofChars chars).path ++ fromQuery ∧
      ((IriParts.ofChars chars).authority = none → after? ['/', '/'] remaining = none) ∧
      ((IriParts.ofChars chars).authority ≠ none → EndsAuthority remaining) := by
  unfold IriParts.ofChars
  split
  split
  next authority remaining cut =>
    refine ⟨remaining, _, (cutBefore_eq rfl).1, fun none => ?_, fun present => ?_⟩
    · split at cut
      · split at cut
        cases cut
        cases none
      · next missing =>
        cases cut
        exact missing
    · split at cut
      · split at cut
        next ends =>
        cases cut
        exact (cutBefore_eq ends).2
      · cases cut
        exact absurd rfl present

theorem IriParts.fitsBehind_ofChars (chars : List Char) :
    fitsBehind (IriParts.ofChars chars).authority (IriParts.ofChars chars).path = true := by
  obtain ⟨remaining, fromQuery, whole, without, _⟩ := IriParts.authority_ofChars chars
  cases authority : (IriParts.ofChars chars).authority with
  | some _ => rfl
  | none =>
    cases slashes : after? ['/', '/'] (IriParts.ofChars chars).path with
    | none => simp [fitsBehind, slashes]
    | some rest =>
      rw [after?_eq_some_iff.mp slashes, List.append_assoc] at whole
      have found := after?_eq_some_iff.mpr whole
      rw [without authority] at found
      cases found

theorem IriParts.endsAuthority_ofChars (present : (IriParts.ofChars chars).authority ≠ none)
    {fromQuery : List Char} (delimited : ∀ first ∈ fromQuery.head?, first ∈ ['?', '#']) :
    EndsAuthority ((IriParts.ofChars chars).path ++ fromQuery) := by
  obtain ⟨remaining, _, whole, _, ends⟩ := IriParts.authority_ofChars chars
  intro first leads
  cases start : (IriParts.ofChars chars).path with
  | nil =>
    rw [start, List.nil_append] at leads
    exact List.mem_cons_of_mem _ (delimited first leads)
  | cons char rest =>
    rw [start] at leads whole
    exact ends present first (by rw [whole]; exact leads)

theorem IriParts.fault?_ofChars_eq_none_iff :
    (IriParts.ofChars chars).fault? = none ↔ (IriParts.ofChars chars).isWellFormed = true := by
  have ends := @IriParts.endsAuthority_ofChars chars
  have fits := IriParts.fitsBehind_ofChars chars
  generalize IriParts.ofChars chars = parts at ends fits
  have delimited : ∀ first ∈ ((parts.query.map ('?' :: ·)).getD []
      ++ (parts.fragment.map ('#' :: ·)).getD []).head?, first ∈ ['?', '#'] := by
    cases parts.query <;> cases parts.fragment <;> simp
  simp only [fault?, isWellFormed, Option.orElse_eq_none, componentFault?_eq_none_iff, fits,
    Bool.and_true, Bool.and_eq_true, Option.bind_eq_none_iff, Option.all_eq_true, and_assoc]
  refine and_congr ?_ Iff.rfl
  constructor
  · intro sound authority given
    have present : parts.authority ≠ none := by simp [Option.mem_def.mp given]
    exact (authorityFault?_eq_none_iff (ends present delimited)).mp (sound authority given)
  · intro sound authority given
    have present : parts.authority ≠ none := by simp [Option.mem_def.mp given]
    exact (authorityFault?_eq_none_iff (ends present delimited)).mpr (sound authority given)

/-- The texts without a fault are the absolute IRIs. -/
theorem iriFault?_eq_none_iff : iriFault? chars = none ↔ isAbsoluteIri chars = true := by
  unfold iriFault?
  split
  · next colon =>
    simp only [reduceCtorEq, false_iff]
    intro absolute
    obtain ⟨first, rest, rfl, letter⟩ := isAlpha_of_isAbsoluteIri absolute
    cases colon
    cases letter
  · rw [Option.orElse_eq_none, IriParts.fault?_ofChars_eq_none_iff, isAbsoluteIri, Bool.and_eq_true]
    cases (IriParts.ofChars chars).scheme.isSome <;> simp

end

end PlanGraph.Rdf
