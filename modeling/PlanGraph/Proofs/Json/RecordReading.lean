import PlanGraph.Proofs.Json.Records
import PlanGraph.Proofs.Json.Spelling

/-! Records that were read, and how they must have been spelled: what is found for the fields of a record
stands in the value in one of the spellings. Numbers keep their digits, so this is about values whose
numbers are written as in a text. -/

set_option autoImplicit false
namespace PlanGraph.Json

/-! ## Values of texts -/

def Value.IsWritable (value : Value) : Prop :=
  ∀ digits, Token.number digits ∈ value.tokens → IsNumberText digits.toList

theorem TokensSpelling.isNumberText {tokens : List Token} {chars : List Char}
    (spelled : TokensSpelling tokens chars) :
    ∀ digits, Token.number digits ∈ tokens → IsNumberText digits.toList := by
  induction spelled with
  | nil => simp
  | cons _ token _ ih =>
    intro digits member
    rcases List.mem_cons.mp member with rfl | later
    · cases token with
      | number number => exact number
    · exact ih digits later

theorem Value.Spelling.isWritable {value : Value} {chars : List Char} (spelled : value.Spelling chars) :
    value.IsWritable :=
  spelled.isNumberText

theorem mem_laterItemTokens {items : List Value} {item : Value} {token : Token} (member : item ∈ items)
    (inside : token ∈ item.tokens) : token ∈ laterItemTokens items := by
  induction items with
  | nil => cases member
  | cons first rest ih =>
    rw [laterItemTokens]
    rcases List.mem_cons.mp member with rfl | later
    · simp [inside]
    · simp [ih later]

theorem mem_laterMemberTokens {members : List (Option String × Value)} {member : Option String × Value}
    {token : Token} (listed : member ∈ members) (inside : token ∈ member.2.tokens) :
    token ∈ laterMemberTokens members := by
  induction members with
  | nil => cases listed
  | cons first rest ih =>
    rw [laterMemberTokens]
    rcases List.mem_cons.mp listed with rfl | later
    · simp [inside]
    · simp [ih later]

theorem Value.IsWritable.item {items : List Value} (writable : (Value.array items).IsWritable) {item : Value}
    (member : item ∈ items) : item.IsWritable := by
  intro digits inside
  refine writable digits ?_
  cases items with
  | nil => cases member
  | cons first rest =>
    rw [Value.tokens, itemTokens]
    rcases List.mem_cons.mp member with rfl | later
    · simp [inside]
    · simp [mem_laterItemTokens later inside]

theorem Value.IsWritable.member {members : List (Option String × Value)}
    (writable : (Value.object members).IsWritable) {member : Option String × Value}
    (listed : member ∈ members) : member.2.IsWritable := by
  intro digits inside
  refine writable digits ?_
  cases members with
  | nil => cases listed
  | cons first rest =>
    rw [Value.tokens, memberTokens]
    rcases List.mem_cons.mp listed with rfl | later
    · simp [inside]
    · simp [mem_laterMemberTokens later inside]

/-! ## Fields -/

theorem eq_map_of_namedMembers? {members : List (Option String × Value)} {named : List (String × Value)}
    (read : namedMembers? members = some named) :
    members = named.map fun member => (some member.1, member.2) := by
  induction members generalizing named with
  | nil =>
    cases read
    rfl
  | cons first rest ih =>
    obtain ⟨_ | key, value⟩ := first
    · cases read
    · obtain ⟨later, found, rfl⟩ := Option.map_eq_some_iff.mp read
      rw [ih found, List.map_cons]

theorem Field.fromMembers?_eq_some {field : Field} {members : List (String × Value)} {found : Option Value}
    (read : field.fromMembers? members = some found) :
    (field.members members = [] ∧ field.presence ≠ .required ∧ found = none) ∨
      ∃ member, field.members members = [member] ∧ found = some member.2 := by
  unfold fromMembers? at read
  split at read
  · next none =>
    split at read
    · cases read
    · next allowed =>
      cases read
      exact Or.inl ⟨none, allowed, rfl⟩
  · next member single =>
    cases read
    exact Or.inr ⟨member, single, rfl⟩
  · cases read

/-- The members are those of the fields and the others. The induction takes the members of one field
after another out of the list; the later fields find the same without them. -/
theorem exists_fieldMembers {fields : List Field} {values : List (Option Value)}
    {members left : List (String × Value)} (distinct : AreDistinct fields)
    (read : fields.mapM (·.fromMembers? members) = some values)
    (agree : ∀ field ∈ fields, field.members members = field.members left) :
    ∃ known unknown, FieldMembers fields values known ∧
      (∀ member ∈ unknown, ∀ field ∈ fields, member.1 ∉ field.names) ∧ left.Perm (known ++ unknown) := by
  induction fields generalizing values left with
  | nil =>
    cases read
    exact ⟨[], left, .nil, by simp, List.Perm.refl _⟩
  | cons field fields ih =>
    obtain ⟨separate, distinct⟩ := List.pairwise_cons.mp distinct
    obtain ⟨here, later⟩ := List.forall_mem_cons.mp agree
    rw [List.mapM_cons] at read
    obtain ⟨found, head, read⟩ := Option.bind_eq_some_iff.mp read
    obtain ⟨others, tail, same⟩ := Option.bind_eq_some_iff.mp read
    cases same
    have skips : ∀ other ∈ fields, other.members members =
        other.members (left.filter fun member => !field.names.contains member.1) := by
      intro other listed
      rw [later other listed, Field.members, Field.members, List.filter_filter]
      refine List.filter_congr fun member _ => ?_
      -- A member of this field has no name of the other one, so it is not missed there.
      have apart := separate other listed member.1
      grind
    obtain ⟨known, unknown, given, foreign, shuffled⟩ := ih distinct tail skips
    have parted := (List.filter_append_perm (fun member => field.names.contains member.1) left).symm
    have outside : ∀ member ∈ unknown, member.1 ∉ field.names := by
      intro member inside
      have kept := shuffled.mem_iff.mpr (List.mem_append_right known inside)
      simpa using (List.mem_filter.mp kept).2
    have unnamed : ∀ member ∈ unknown, ∀ other ∈ field :: fields, member.1 ∉ other.names :=
      fun member inside => List.forall_mem_cons.mpr ⟨outside member inside, foreign member inside⟩
    have whole := parted.trans (shuffled.append_left (field.members left))
    rcases Field.fromMembers?_eq_some head with ⟨none, allowed, rfl⟩ | ⟨member, single, rfl⟩
    · refine ⟨known, unknown, .absent allowed given, unnamed, ?_⟩
      rwa [← here, none] at whole
    · refine ⟨member :: known, unknown, .given ?_ given, unnamed, ?_⟩
      · have kept : member ∈ field.members members := by simp [single]
        simpa using (List.mem_filter.mp kept).2
      · rwa [← here, single] at whole

theorem fieldItems_of_fromItems? {fields : List Field} {items : List Value} {values : List (Option Value)}
    (read : fromItems? fields items = some values) : FieldItems fields values items := by
  induction fields generalizing items values with
  | nil =>
    cases items with
    | nil =>
      cases read
      exact .nil
    | cons item items => cases read
  | cons field fields ih =>
    cases items with
    | nil =>
      rw [fromItems?] at read
      split at read
      · next allowed =>
        obtain ⟨others, found, rfl⟩ := Option.map_eq_some_iff.mp read
        exact .absent allowed (ih found)
      · cases read
    | cons item items =>
      obtain ⟨others, found, rfl⟩ := Option.map_eq_some_iff.mp read
      exact .given (ih found)

theorem recordSpelling_of_record? {fields : List Field} {values : List (Option Value)} {value : Value}
    (distinct : AreDistinct fields) (read : value.record? fields = some values) :
    RecordSpelling fields values value := by
  cases value with
  | object members =>
    obtain ⟨named, found, read⟩ := Option.bind_eq_some_iff.mp read
    obtain ⟨known, unknown, given, foreign, shuffled⟩ :=
      exists_fieldMembers distinct read fun _ _ => rfl
    rw [eq_map_of_namedMembers? found]
    exact .object given foreign shuffled
  | array items => exact .array (fieldItems_of_fromItems? read)
  | _ => cases read

theorem record?_eq_some_iff {fields : List Field} {values : List (Option Value)} {value : Value}
    (distinct : AreDistinct fields) :
    value.record? fields = some values ↔ RecordSpelling fields values value :=
  ⟨recordSpelling_of_record? distinct, record?_of_spelling distinct⟩

theorem FieldMembers.exists_member {fields : List Field} {values : List (Option Value)}
    {members : List (String × Value)} (given : FieldMembers fields values members) {inner : Value}
    (listed : some inner ∈ values) : ∃ member ∈ members, member.2 = inner := by
  induction given with
  | nil => cases listed
  | @given _ _ name value values members _ _ ih =>
    rcases List.mem_cons.mp listed with same | later
    · exact ⟨(name, value), List.mem_cons_self, (Option.some.inj same).symm⟩
    · obtain ⟨member, inside, same⟩ := ih later
      exact ⟨member, List.mem_cons_of_mem _ inside, same⟩
  | absent _ _ ih => exact ih ((List.mem_cons.mp listed).resolve_left (by simp))

theorem FieldItems.mem {fields : List Field} {values : List (Option Value)} {items : List Value}
    (given : FieldItems fields values items) {inner : Value} (listed : some inner ∈ values) :
    inner ∈ items := by
  induction given with
  | nil => cases listed
  | given _ ih =>
    rcases List.mem_cons.mp listed with same | later
    · cases same
      exact List.mem_cons_self
    · exact List.mem_cons_of_mem _ (ih later)
  | absent _ _ ih => exact ih ((List.mem_cons.mp listed).resolve_left (by simp))

theorem RecordSpelling.isWritable {fields : List Field} {values : List (Option Value)} {value : Value}
    (record : RecordSpelling fields values value) (writable : value.IsWritable) :
    ∀ field ∈ values, ∀ inner ∈ field, inner.IsWritable := by
  intro field listed inner here
  cases here
  cases record with
  | @object known unknown members given _ shuffled =>
    obtain ⟨member, inside, rfl⟩ := given.exists_member listed
    have kept : member ∈ members := shuffled.mem_iff.mpr (List.mem_append_left unknown inside)
    exact writable.member (List.mem_map.mpr ⟨member, kept, rfl⟩)
  | array given => exact writable.item (given.mem listed)

/-! ## Values of fields -/

/-- What is read from a value stands in it in one of the spellings. -/
def Reveals {α : Type} (read : Value → Option α) (Spelling : α → Value → Prop) : Prop :=
  ∀ item value, value.IsWritable → read value = some item → Spelling item value

section
variable {α : Type} {read : Value → Option α} {Spelling : α → Value → Prop}

theorem reveals_text : Reveals Value.text? TextSpelling := by
  intro text value _ found
  cases value with
  | string content =>
    cases found
    exact .mk
  | _ => cases found

theorem reveals_bool : Reveals Value.bool? BoolSpelling := by
  intro item value _ found
  cases value with
  | bool content =>
    cases found
    exact .mk
  | _ => cases found

theorem forall₂_of_mapM {β : Type} {compute : β → Option α} {Relates : α → β → Prop} {inputs : List β}
    {outputs : List α} (read : inputs.mapM compute = some outputs)
    (relates : ∀ input ∈ inputs, ∀ output, compute input = some output → Relates output input) :
    List.Forall₂ Relates outputs inputs := by
  induction inputs generalizing outputs with
  | nil =>
    cases read
    exact .nil
  | cons first rest ih =>
    rw [List.mapM_cons] at read
    obtain ⟨output, head, read⟩ := Option.bind_eq_some_iff.mp read
    obtain ⟨others, tail, same⟩ := Option.bind_eq_some_iff.mp read
    cases same
    obtain ⟨here, later⟩ := List.forall_mem_cons.mp relates
    exact .cons (here output head) (ih tail later)

theorem Reveals.listOf (reveals : Reveals read Spelling) :
    Reveals (Value.listOf? read) (ListSpelling Spelling) := by
  intro items value writable found
  cases value with
  | array values =>
    exact .mk (forall₂_of_mapM found fun value inside item => reveals item value (writable.item inside))
  | _ => cases found

theorem Reveals.nullable (reveals : Reveals read Spelling) :
    Reveals (Value.nullable? read) (NullableSpelling Spelling) := by
  intro item value writable found
  unfold Value.nullable? at found
  split at found
  · cases found
    exact .none
  · obtain ⟨inner, read, rfl⟩ := Option.map_eq_some_iff.mp found
    exact .some (reveals inner value writable read)

theorem Reveals.bindings (reveals : Reveals read Spelling) :
    Reveals (Value.bindings? read) (BindingsSpelling Spelling) := by
  intro bindings value writable found
  cases value with
  | object members =>
    obtain ⟨named, keyed, gathered⟩ := Option.bind_eq_some_iff.mp found
    cases eq_map_of_namedMembers? keyed
    refine .mk (forall₂_of_mapM gathered fun member inside binding gives => ?_)
    obtain ⟨item, content, rfl⟩ := Option.map_eq_some_iff.mp gives
    exact ⟨rfl, reveals item _ (writable.member (List.mem_map.mpr ⟨member, inside, rfl⟩)) content⟩
  | _ => cases found

theorem Reveals.orDefault {default item : α} {field : Option Value} (reveals : Reveals read Spelling)
    (writable : ∀ inner ∈ field, inner.IsWritable) (found : orDefault default read field = some item) :
    DefaultSpelling default Spelling item field := by
  cases field with
  | none =>
    cases found
    exact .absent
  | some value => exact .given (reveals item value (writable value rfl) found)

end
end PlanGraph.Json
