import Mathlib.Data.List.Forall2
import PlanGraph.Json.Record

/-! How records are spelled: as an object, where every field goes by any of its names, the order is
free and members with other names do no harm, or as the array of the fields. Every spelling reads as
the values of the fields. -/

set_option autoImplicit false
namespace PlanGraph

/-- Reading a list item by item gives back what its items were written from. -/
theorem mapM_of_forall₂ {m : Type → Type} [Monad m] [LawfulMonad m] {α β : Type} {Writes : α → β → Prop}
    {read : β → m α} {items : List α} {written : List β} (writes : List.Forall₂ Writes items written)
    (undoes : ∀ item ∈ items, ∀ text, Writes item text → read text = pure item) :
    written.mapM read = pure items := by
  induction writes with
  | nil => rfl
  | cons head _ ih =>
    have parts := List.forall_mem_cons.mp undoes
    simp [List.mapM_cons, parts.1 _ head, ih parts.2]

namespace Json

/-! ## Fields -/

/-- The members that give their values to the fields, each under one of the names of its field. -/
inductive FieldMembers : List Field → List (Option Value) → List (String × Value) → Prop
  | nil : FieldMembers [] [] []
  | given {field : Field} {fields : List Field} {name : String} {value : Value}
      {values : List (Option Value)} {members : List (String × Value)} (named : name ∈ field.names)
      (rest : FieldMembers fields values members) :
      FieldMembers (field :: fields) (some value :: values) ((name, value) :: members)
  | absent {field : Field} {fields : List Field} {values : List (Option Value)}
      {members : List (String × Value)} (allowed : field.presence ≠ .required)
      (rest : FieldMembers fields values members) :
      FieldMembers (field :: fields) (none :: values) members

/-- The items that give their values to the fields. Only fields at the end may be left out. -/
inductive FieldItems : List Field → List (Option Value) → List Value → Prop
  | nil : FieldItems [] [] []
  | given {field : Field} {fields : List Field} {value : Value} {values : List (Option Value)}
      {items : List Value} (rest : FieldItems fields values items) :
      FieldItems (field :: fields) (some value :: values) (value :: items)
  | absent {field : Field} {fields : List Field} {values : List (Option Value)}
      (allowed : field.presence = .defaulted) (rest : FieldItems fields values []) :
      FieldItems (field :: fields) (none :: values) []

inductive RecordSpelling (fields : List Field) (values : List (Option Value)) : Value → Prop
  | object {known unknown members : List (String × Value)} (given : FieldMembers fields values known)
      (foreign : ∀ member ∈ unknown, ∀ field ∈ fields, member.1 ∉ field.names)
      (shuffled : members.Perm (known ++ unknown)) :
      RecordSpelling fields values
        (.object (members.map fun member => (some member.1, member.2)))
  | array {items : List Value} (given : FieldItems fields values items) :
      RecordSpelling fields values (.array items)

def AreDistinct (fields : List Field) : Prop :=
  fields.Pairwise fun first second => ∀ name ∈ first.names, name ∉ second.names

instance (fields : List Field) : Decidable (AreDistinct fields) :=
  inferInstanceAs (Decidable (List.Pairwise _ fields))

theorem namedMembers?_map (members : List (String × Value)) :
    namedMembers? (members.map fun member => (some member.1, member.2)) = some members := by
  induction members with
  | nil => rfl
  | cons member members ih =>
    rw [List.map_cons, namedMembers?, ih]
    rfl

theorem FieldMembers.name {fields : List Field} {values : List (Option Value)}
    {members : List (String × Value)} (given : FieldMembers fields values members) :
    ∀ member ∈ members, ∃ field ∈ fields, member.1 ∈ field.names := by
  induction given with
  | nil => simp
  | given named _ ih =>
    refine List.forall_mem_cons.mpr ⟨⟨_, List.mem_cons_self, named⟩, fun member inside => ?_⟩
    obtain ⟨field, later, found⟩ := ih member inside
    exact ⟨field, List.mem_cons_of_mem _ later, found⟩
  | absent _ _ ih =>
    intro member inside
    obtain ⟨field, later, found⟩ := ih member inside
    exact ⟨field, List.mem_cons_of_mem _ later, found⟩

theorem FieldMembers.foreign {field : Field} {fields : List Field} {values : List (Option Value)}
    {members : List (String × Value)} (given : FieldMembers fields values members)
    (separate : ∀ other ∈ fields, ∀ name ∈ field.names, name ∉ other.names) :
    ∀ member ∈ members, member.1 ∉ field.names := by
  intro member inside again
  obtain ⟨other, listed, found⟩ := given.name member inside
  exact separate other listed member.1 again found

def Field.members (field : Field) (members : List (String × Value)) : List (String × Value) :=
  members.filter fun member => field.names.contains member.1

theorem Field.members_eq_nil {field : Field} {members : List (String × Value)}
    (foreign : ∀ member ∈ members, member.1 ∉ field.names) : field.members members = [] := by
  simpa [Field.members, List.filter_eq_nil_iff] using foreign

theorem Field.fromMembers?_of_singleton {field : Field} {members : List (String × Value)}
    {member : String × Value} (single : (field.members members).Perm [member]) :
    field.fromMembers? members = some (some member.2) := by
  rw [Field.fromMembers?, show members.filter _ = [member] from List.perm_singleton.mp single]

theorem Field.fromMembers?_of_nil {field : Field} {members : List (String × Value)}
    (empty : (field.members members).Perm []) (allowed : field.presence ≠ .required) :
    field.fromMembers? members = some none := by
  rw [Field.fromMembers?, show members.filter _ = [] from List.perm_nil.mp empty]
  exact if_neg allowed

theorem mapM_fromMembers? {fields : List Field} {values : List (Option Value)}
    {known members : List (String × Value)} (given : FieldMembers fields values known)
    (distinct : AreDistinct fields)
    (agree : ∀ field ∈ fields, (field.members members).Perm (field.members known)) :
    fields.mapM (·.fromMembers? members) = some values := by
  induction given with
  | nil => rfl
  | @given field fields name value values known named rest ih =>
    have parts := List.pairwise_cons.mp distinct
    have foreign := rest.foreign parts.1
    -- The first member is the only one of its field, and no other field has its name.
    have own : field.members ((name, value) :: known) = [(name, value)] := by
      rw [← Field.members_eq_nil foreign]
      exact List.filter_cons_of_pos (by simpa using named)
    have others : ∀ other ∈ fields, (other.members members).Perm (other.members known) := by
      intro other later
      have skipped : other.members ((name, value) :: known) = other.members known :=
        List.filter_cons_of_neg (by simpa using parts.1 other later name named)
      exact skipped ▸ agree other (List.mem_cons_of_mem _ later)
    have head := Field.fromMembers?_of_singleton (own ▸ agree field List.mem_cons_self)
    rw [List.mapM_cons, head, ih parts.2 others]
    rfl
  | @absent field fields values known allowed rest ih =>
    have parts := List.pairwise_cons.mp distinct
    have foreign := rest.foreign parts.1
    have head := Field.fromMembers?_of_nil
      (Field.members_eq_nil foreign ▸ agree field List.mem_cons_self) allowed
    rw [List.mapM_cons, head,
      ih parts.2 fun other later => agree other (List.mem_cons_of_mem _ later)]
    rfl

theorem fromItems?_of_items {fields : List Field} {values : List (Option Value)} {items : List Value}
    (given : FieldItems fields values items) : fromItems? fields items = some values := by
  induction given with
  | nil => rfl
  | given _ ih => rw [fromItems?, ih]; rfl
  | absent allowed _ ih => rw [fromItems?, if_pos allowed, ih]; rfl

theorem record?_of_spelling {fields : List Field} {values : List (Option Value)} {value : Value}
    (distinct : AreDistinct fields) (spelled : RecordSpelling fields values value) :
    value.record? fields = some values := by
  cases spelled with
  | @object known unknown members given foreign shuffled =>
    rw [Value.record?, namedMembers?_map, Option.bind_some]
    refine mapM_fromMembers? given distinct fun field listed => ?_
    have others : field.members unknown = [] :=
      Field.members_eq_nil fun member inside => foreign member inside field listed
    have agree := shuffled.filter fun member => field.names.contains member.1
    rw [List.filter_append] at agree
    rw [← List.append_nil (field.members known), ← others]
    exact agree
  | array given => exact fromItems?_of_items given

/-- The fields of an object from the last to the first, behind members that are no fields. -/
theorem RecordSpelling.reversed {fields : List Field} {values : List (Option Value)}
    {known unknown : List (String × Value)} (given : FieldMembers fields values known)
    (foreign : ∀ member ∈ unknown, ∀ field ∈ fields, member.1 ∉ field.names) :
    RecordSpelling fields values
      (.object ((known ++ unknown).reverse.map fun member => (some member.1, member.2))) :=
  .object given foreign (List.reverse_perm _)

/-! ## Values of fields -/

def Undoes {α : Type} (read : Value → Option α) (Spelling : α → Value → Prop) : Prop :=
  ∀ item value, Spelling item value → read value = some item

def Value.text (text : String) : Value := .string (some text)

inductive TextSpelling (text : String) : Value → Prop
  | mk : TextSpelling text (.text text)

inductive ListSpelling {α : Type} (Spelling : α → Value → Prop) (items : List α) : Value → Prop
  | mk {values : List Value} (spelled : List.Forall₂ Spelling items values) :
      ListSpelling Spelling items (.array values)

inductive NullableSpelling {α : Type} (Spelling : α → Value → Prop) : Option α → Value → Prop
  | none : NullableSpelling Spelling none .null
  | some {item : α} {value : Value} (spelled : Spelling item value) :
      NullableSpelling Spelling (some item) value

inductive BoolSpelling (item : Bool) : Value → Prop
  | mk : BoolSpelling item (.bool item)

/-- A field at its default may be left out. -/
inductive DefaultSpelling {α : Type} (default : α) (Spelling : α → Value → Prop) :
    α → Option Value → Prop
  | given {item : α} {value : Value} (spelled : Spelling item value) :
      DefaultSpelling default Spelling item (some value)
  | absent : DefaultSpelling default Spelling default none

inductive BindingsSpelling {α : Type} (Spelling : α → Value → Prop) (bindings : List (String × α)) :
    Value → Prop
  | mk {members : List (String × Value)}
      (spelled : List.Forall₂ (fun binding member => binding.1 = member.1 ∧
        Spelling binding.2 member.2) bindings members) :
      BindingsSpelling Spelling bindings
        (.object (members.map fun member => (some member.1, member.2)))

variable {α : Type} {read : Value → Option α} {Spelling : α → Value → Prop}

theorem undoes_text : Undoes Value.text? TextSpelling := by
  rintro text value ⟨⟩
  rfl

theorem undoes_bool : Undoes Value.bool? BoolSpelling := by
  rintro item value ⟨⟩
  rfl

theorem Undoes.listOf (undoes : Undoes read Spelling) :
    Undoes (Value.listOf? read) (ListSpelling Spelling) := by
  rintro items value ⟨spelled⟩
  exact mapM_of_forall₂ spelled fun item _ => undoes item

theorem Undoes.nullable (undoes : Undoes read Spelling) (notNull : read .null = none) :
    Undoes (Value.nullable? read) (NullableSpelling Spelling) := by
  intro item value spelled
  cases spelled with
  | none => rfl
  | @some item value spelled =>
    have found := undoes item value spelled
    have other : value ≠ .null := by
      rintro rfl
      rw [notNull] at found
      cases found
    rw [Value.nullable?]
    · rw [found]
      rfl
    · exact other

theorem Undoes.bindings (undoes : Undoes read Spelling) :
    Undoes (Value.bindings? read) (BindingsSpelling Spelling) := by
  rintro bindings value ⟨spelled⟩
  rw [Value.bindings?, namedMembers?_map, Option.bind_some]
  refine mapM_of_forall₂ spelled ?_
  rintro ⟨name, item⟩ _ ⟨key, value⟩ ⟨same, spelled⟩
  cases same
  simp only [undoes item value spelled]
  rfl

theorem Undoes.orDefault {default item : α} {field : Option Value} (undoes : Undoes read Spelling)
    (spelled : DefaultSpelling default Spelling item field) :
    orDefault default read field = some item := by
  cases spelled with
  | given spelled => exact undoes _ _ spelled
  | absent => rfl

end Json
end PlanGraph
