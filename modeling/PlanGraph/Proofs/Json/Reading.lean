import PlanGraph.Json.Reader
import PlanGraph.Proofs.Json.Lexing

/-! Every spelling of a value is read as the value. The tokens of a value take the reader from the
place where a value may come to the place behind it, with the open arrays and objects unchanged. -/

set_option autoImplicit false
namespace PlanGraph.Json
open Text

theorem foldlM_itemOrClose (value : Value) (frames : List Frame) (rest : List Token) :
    (value.tokens ++ rest).foldlM Expecting.next (.itemOrClose frames) =
      (value.tokens ++ rest).foldlM Expecting.next (.value (.array [] :: frames)) := by
  cases value <;> rfl

mutual

theorem foldlM_tokens (value : Value) (frames : List Frame) (rest : List Token) :
    (value.tokens ++ rest).foldlM Expecting.next (.value frames) =
      rest.foldlM Expecting.next (.separator value frames) := by
  cases value with
  | null => rfl
  | bool value => rfl
  | number digits => rfl
  | string content => rfl
  | array items =>
    cases items with
    | nil => rfl
    | cons item items =>
      calc
        _ = (item.tokens ++ (laterItemTokens items ++ .closeArray :: rest)).foldlM Expecting.next
            (.itemOrClose frames) := by
          simp [Value.tokens, itemTokens, List.foldlM_cons, Expecting.next, startValue]
        _ = (laterItemTokens items ++ .closeArray :: rest).foldlM Expecting.next
            (.separator item (.array [] :: frames)) := by
          rw [foldlM_itemOrClose, foldlM_tokens item]
        _ = _ := foldlM_laterItems items item [] frames rest
  | object members =>
    cases members with
    | nil => rfl
    | cons member members =>
      obtain ⟨key, value⟩ := member
      calc
        _ = (value.tokens ++ (laterMemberTokens members ++ .closeObject :: rest)).foldlM
            Expecting.next (.value (.object [] key :: frames)) := by
          simp [Value.tokens, memberTokens, List.foldlM_cons, Expecting.next, startValue]
        _ = (laterMemberTokens members ++ .closeObject :: rest).foldlM Expecting.next
            (.separator value (.object [] key :: frames)) := foldlM_tokens value _ _
        _ = _ := foldlM_laterMembers members value key [] frames rest

theorem foldlM_laterItems (items : List Value) (finished : Value) (before : List Value)
    (frames : List Frame) (rest : List Token) :
    (laterItemTokens items ++ .closeArray :: rest).foldlM Expecting.next
        (.separator finished (.array before :: frames)) =
      rest.foldlM Expecting.next
        (.separator (.array (before.reverse ++ finished :: items)) frames) := by
  cases items with
  | nil => simp [laterItemTokens, List.foldlM_cons, Expecting.next]
  | cons item items =>
    calc
      _ = (item.tokens ++ (laterItemTokens items ++ .closeArray :: rest)).foldlM Expecting.next
          (.value (.array (finished :: before) :: frames)) := by
        simp [laterItemTokens, List.foldlM_cons, Expecting.next]
      _ = (laterItemTokens items ++ .closeArray :: rest).foldlM Expecting.next
          (.separator item (.array (finished :: before) :: frames)) := foldlM_tokens item _ _
      _ = _ := by
        rw [foldlM_laterItems items item (finished :: before) frames rest]
        simp

theorem foldlM_laterMembers (members : List (Option String × Value)) (finished : Value)
    (name : Option String) (before : List (Option String × Value)) (frames : List Frame)
    (rest : List Token) :
    (laterMemberTokens members ++ .closeObject :: rest).foldlM Expecting.next
        (.separator finished (.object before name :: frames)) =
      rest.foldlM Expecting.next
        (.separator (.object (before.reverse ++ (name, finished) :: members)) frames) := by
  cases members with
  | nil => simp [laterMemberTokens, List.foldlM_cons, Expecting.next]
  | cons member members =>
    obtain ⟨key, value⟩ := member
    calc
      _ = (value.tokens ++ (laterMemberTokens members ++ .closeObject :: rest)).foldlM
          Expecting.next (.value (.object ((name, finished) :: before) key :: frames)) := by
        simp [laterMemberTokens, List.foldlM_cons, Expecting.next]
      _ = (laterMemberTokens members ++ .closeObject :: rest).foldlM Expecting.next
          (.separator value (.object ((name, finished) :: before) key :: frames)) :=
        foldlM_tokens value _ _
      _ = _ := by
        rw [foldlM_laterMembers members value key ((name, finished) :: before) frames rest]
        simp

end

theorem Value.ofTokens?_tokens (value : Value) : Value.ofTokens? value.tokens = some value := by
  have read := foldlM_tokens value [] []
  rw [List.append_nil] at read
  rw [Value.ofTokens?, read]
  rfl

/-! ## Marks between the tokens of a value -/

theorem AreSeparated.cons {mark : Token} {tokens : List Token} (marked : mark.isMark = true)
    (separated : AreSeparated tokens) : AreSeparated (mark :: tokens) :=
  List.isChain_cons.mpr ⟨fun _ _ => Or.inl marked, separated⟩

theorem AreSeparated.append {before after : List Token} (first : AreSeparated before)
    (second : AreSeparated after) (marked : ∀ token ∈ after.head?, token.isMark = true) :
    AreSeparated (before ++ after) :=
  List.isChain_append.mpr ⟨first, second, fun _ _ next leads => Or.inr (marked next leads)⟩

theorem AreSeparated.member {tokens : List Token} (key : Option String)
    (separated : AreSeparated tokens) : AreSeparated (.string key :: .colon :: tokens) :=
  List.isChain_cons.mpr ⟨fun _ leads => by cases leads; exact Or.inr rfl, separated.cons rfl⟩

theorem isMark_of_laterItems (items : List Value) :
    ∀ token ∈ (laterItemTokens items).head?, token.isMark = true := by
  cases items with
  | nil => simp [laterItemTokens]
  | cons item items => simp [laterItemTokens, Token.isMark]

theorem isMark_of_laterMembers (members : List (Option String × Value)) :
    ∀ token ∈ (laterMemberTokens members).head?, token.isMark = true := by
  cases members with
  | nil => simp [laterMemberTokens]
  | cons member members => simp [laterMemberTokens, Token.isMark]

mutual

theorem Value.areSeparated_tokens (value : Value) : AreSeparated value.tokens := by
  cases value with
  | array items =>
    refine AreSeparated.cons rfl (AreSeparated.append ?_ (.singleton _) (by simp [Token.isMark]))
    cases items with
    | nil => exact .nil
    | cons item items =>
      exact (Value.areSeparated_tokens item).append (areSeparated_laterItems items)
        (isMark_of_laterItems items)
  | object members =>
    refine AreSeparated.cons rfl (AreSeparated.append ?_ (.singleton _) (by simp [Token.isMark]))
    cases members with
    | nil => exact .nil
    | cons member members =>
      obtain ⟨key, value⟩ := member
      exact ((Value.areSeparated_tokens value).append (areSeparated_laterMembers members)
        (isMark_of_laterMembers members)).member key
  | _ => exact .singleton _

theorem areSeparated_laterItems (items : List Value) : AreSeparated (laterItemTokens items) := by
  cases items with
  | nil => exact .nil
  | cons item items =>
    exact AreSeparated.cons rfl ((Value.areSeparated_tokens item).append
      (areSeparated_laterItems items) (isMark_of_laterItems items))

theorem areSeparated_laterMembers (members : List (Option String × Value)) :
    AreSeparated (laterMemberTokens members) := by
  cases members with
  | nil => exact .nil
  | cons member members =>
    obtain ⟨key, value⟩ := member
    exact AreSeparated.cons rfl (((Value.areSeparated_tokens value).append
      (areSeparated_laterMembers members) (isMark_of_laterMembers members)).member key)

end

/-- Every spelling of a value reads as the value. -/
theorem Value.ofGlyphs?_of_spelling {value : Value} {chars : List Char}
    (spelled : value.Spelling chars) : Value.ofGlyphs? (chars.map some) = some value := by
  rw [Value.ofGlyphs?, tokens?_of_spelling spelled value.areSeparated_tokens, Option.bind_some,
    Value.ofTokens?_tokens]

end PlanGraph.Json
