import GraphQL.Proofs.Action

/-!
Trees of completed values in which every null is let stand, and what is left of them.

One pass over a tree, guided by the declared types, turns nulls that may not stand into bubbles and
bubbles that may stop into nulls. A bubble leaves a position exactly where a violation is below it
with nothing but non-null types on the way. So exactly the nearest nullable position above a
violation becomes null, and everything else stays.
-/

namespace GraphQL

/-- What is completed where every null is let stand; a field keeps the type declared for it. -/
inductive Tree where
  | leaf (value : Value)
  | list (items : List Tree)
  | object (fields : List (String × TypeRef × Tree))

/-- The fields of an object in order, with their declared types. -/
abbrev Branches := List (String × TypeRef × Tree)

/-- The type of the elements of a list type, under non-null as well. -/
def TypeRef.element : TypeRef → TypeRef
  | .named name => .named name
  | .list element => element
  | .nonNull inner => inner.element

/-- A null that may not stand becomes a bubble. -/
def insist (contents : Except Bubble Value) : Except Bubble Value := do
  let value ← contents
  if value.isNull then throw .bubble else pure value

/-- What a type makes of its contents: non-null types insist, the others stop a bubble. -/
def TypeRef.settle (type : TypeRef) (contents : Except Bubble Value) : Except Bubble Value :=
  if type.isNonNull then insist contents else .ok (orNull contents)

namespace Tree

mutual

/-- What is left of a tree, before its own type says what becomes of a null or bubble. -/
def contents (type : TypeRef) : Tree → Except Bubble Value
  | .leaf value => .ok value
  | .list items => do
      let values ← settleItems type.element items
      pure (.list values)
  | .object fields => do
      let values ← settleFields fields
      pure (.object values)

/-- What is left of the elements of a list; a bubble in one of them takes all away. -/
def settleItems (element : TypeRef) : List Tree → Except Bubble (List Value)
  | [] => pure []
  | item :: rest => do
      let first ← element.settle (contents element item)
      let others ← settleItems element rest
      pure (first :: others)

/-- What is left of the fields of an object; a bubble in one of them takes all away. -/
def settleFields : List (String × TypeRef × Tree) → Except Bubble Object
  | [] => pure []
  | (key, type, tree) :: rest => do
      let first ← type.settle (contents type tree)
      let others ← settleFields rest
      pure ((key, first) :: others)

end

/-- What is left of a tree at a type. -/
def settle (type : TypeRef) (tree : Tree) : Except Bubble Value := type.settle (tree.contents type)

end Tree

/-- The data that is left of an object at the root; null where a bubble reaches it. -/
def dataOf (branches : Branches) : Value :=
  orNull do
    let fields ← Tree.settleFields branches
    pure (.object fields)

theorem TypeRef.settle_optional {type : TypeRef} (optional : type.isNonNull = false)
    (contents : Except Bubble Value) : type.settle contents = .ok (orNull contents) := by
  rw [settle, optional]
  rfl

theorem TypeRef.settle_required {type : TypeRef} (required : type.isNonNull = true)
    (contents : Except Bubble Value) : type.settle contents = insist contents := by
  rw [settle, if_pos required]

theorem TypeRef.settle_present {type : TypeRef} {value : Value} (present : value.isNull = false) :
    type.settle (.ok value) = .ok value := by
  cases required : type.isNonNull with
  | false => exact settle_optional required (.ok value)
  | true =>
      rw [settle_required required, insist]
      change (if value.isNull = true then Except.error Bubble.bubble else Except.ok value) = _
      rw [present]
      rfl

/-- A bubble leaves a position, which is non-null: a violation is at it or rises to it. -/
inductive Rises : TypeRef → Tree → Prop where
  | violation {type} (required : type.isNonNull = true) : Rises type (.leaf .null)
  | item {type items item} (required : type.isNonNull = true) (member : item ∈ items)
      (rising : Rises type.element item) : Rises type (.list items)
  | field {type fields key declared tree} (required : type.isNonNull = true)
      (member : (key, declared, tree) ∈ fields) (rising : Rises declared tree) :
      Rises type (.object fields)

/-- A bubble reaches a position from directly below it. -/
inductive Lost : TypeRef → Tree → Prop where
  | item {type items item} (member : item ∈ items) (rising : Rises type.element item) :
      Lost type (.list items)
  | field {type fields key declared tree} (member : (key, declared, tree) ∈ fields)
      (rising : Rises declared tree) : Lost type (.object fields)

mutual

/-- What stands in the place of a tree: null where a bubble stops, and the same node elsewhere. -/
inductive Leaves : TypeRef → Tree → Value → Prop where
  | nulled {type tree} (optional : type.isNonNull = false) (lost : Lost type tree) :
      Leaves type tree .null
  | leaf {type value} (allowed : type.isNonNull = true → value.isNull = false) :
      Leaves type (.leaf value) value
  | list {type items values} (kept : ¬Lost type (.list items))
      (each : LeavesItems type.element items values) : Leaves type (.list items) (.list values)
  | object {type fields values} (kept : ¬Lost type (.object fields))
      (each : LeavesFields fields values) : Leaves type (.object fields) (.object values)

inductive LeavesItems : TypeRef → List Tree → List Value → Prop where
  | nil {element} : LeavesItems element [] []
  | cons {element item items value values} (first : Leaves element item value)
      (rest : LeavesItems element items values) :
      LeavesItems element (item :: items) (value :: values)

inductive LeavesFields : Branches → Object → Prop where
  | nil : LeavesFields [] []
  | cons {key type tree fields value values} (first : Leaves type tree value)
      (rest : LeavesFields fields values) :
      LeavesFields ((key, type, tree) :: fields) ((key, value) :: values)

end

namespace Tree

theorem settle_items_cons (element : TypeRef) (item : Tree) (items : List Tree) :
    settleItems element (item :: items) = (do
      let first ← item.settle element
      let others ← settleItems element items
      pure (first :: others)) := by
  rw [settleItems]
  rfl

theorem settle_fields_cons (key : String) (type : TypeRef) (tree : Tree) (fields : Branches) :
    settleFields ((key, type, tree) :: fields) = (do
      let first ← tree.settle type
      let others ← settleFields fields
      pure ((key, first) :: others)) := by
  rw [settleFields]
  rfl

theorem settle_items_bubble {element : TypeRef} {items : List Tree} {item : Tree}
    (member : item ∈ items) (bubbled : item.settle element = .error .bubble) :
    settleItems element items = .error .bubble := by
  induction items with
  | nil => cases member
  | cons head rest ih =>
      rw [settle_items_cons]
      rcases List.mem_cons.mp member with rfl | inside
      · rw [bubbled]
        rfl
      · rw [ih inside]
        cases head.settle element <;> rfl

theorem settle_fields_bubble {fields : Branches} {key : String} {type : TypeRef} {tree : Tree}
    (member : (key, type, tree) ∈ fields) (bubbled : tree.settle type = .error .bubble) :
    settleFields fields = .error .bubble := by
  induction fields with
  | nil => cases member
  | cons head rest ih =>
      obtain ⟨otherKey, otherType, other⟩ := head
      rw [settle_fields_cons]
      rcases List.mem_cons.mp member with same | inside
      · cases same
        rw [bubbled]
        rfl
      · rw [ih inside]
        cases other.settle otherType <;> rfl

/-- What rises does leave its position as a bubble. -/
theorem settle_of_rises {type : TypeRef} {tree : Tree} (rises : Rises type tree) :
    tree.settle type = .error .bubble := by
  induction rises with
  | violation required =>
      rw [settle, contents, TypeRef.settle_required required]
      rfl
  | item required member _ ih =>
      rw [settle, contents, settle_items_bubble member ih, TypeRef.settle_required required]
      rfl
  | field required member _ ih =>
      rw [settle, contents, settle_fields_bubble member ih, TypeRef.settle_required required]
      rfl

theorem contents_of_lost {type : TypeRef} {tree : Tree} (lost : Lost type tree) :
    tree.contents type = .error .bubble := by
  cases lost with
  | item member rising =>
      rw [contents, settle_items_bubble member (settle_of_rises rising)]
      rfl
  | field member rising =>
      rw [contents, settle_fields_bubble member (settle_of_rises rising)]
      rfl

/-- Where the contents are a value they were not lost. -/
theorem kept_of_contents {type : TypeRef} {tree : Tree} {value : Value}
    (left : tree.contents type = .ok value) : ¬Lost type tree := by
  intro lost
  rw [contents_of_lost lost] at left
  cases left

/-- A bubble that reaches a position from below goes on, or stops there, as the type says. -/
theorem settle_lost {type : TypeRef} {tree : Tree} (lost : Lost type tree)
    (rises : type.isNonNull = true → Rises type tree) :
    (∃ value, tree.settle type = .ok value ∧ Leaves type tree value) ∨
      tree.settle type = .error .bubble ∧ Rises type tree := by
  rw [settle, contents_of_lost lost]
  cases required : type.isNonNull with
  | true => exact .inr ⟨TypeRef.settle_required required _, rises required⟩
  | false => exact .inl ⟨.null, TypeRef.settle_optional required _, .nulled required lost⟩

mutual

/-- A tree leaves a value, or a bubble that rises. -/
theorem settle_cases (type : TypeRef) : ∀ tree : Tree,
    (∃ value, tree.settle type = .ok value ∧ Leaves type tree value) ∨
      tree.settle type = .error .bubble ∧ Rises type tree
  | .leaf value => by
      rw [settle, contents]
      cases required : type.isNonNull with
      | false =>
          refine .inl ⟨value, TypeRef.settle_optional required _, .leaf fun impossible => ?_⟩
          rw [required] at impossible
          cases impossible
      | true =>
          rw [TypeRef.settle_required required]
          cases value with
          | null => exact .inr ⟨rfl, .violation required⟩
          | _ => exact .inl ⟨_, rfl, .leaf fun _ => rfl⟩
  | .list items => by
      rcases settle_items_cases type.element items with
        ⟨values, left, each⟩ | ⟨-, item, member, rising⟩
      · have settled : (list items).contents type = .ok (.list values) := by
          rw [contents, left]
          rfl
        refine .inl ⟨.list values, ?_, .list (kept_of_contents settled) each⟩
        rw [settle, settled, TypeRef.settle_present rfl]
      · exact settle_lost (.item member rising) fun required => .item required member rising
  | .object fields => by
      rcases settle_fields_cases fields with
        ⟨values, left, each⟩ | ⟨-, key, declared, tree, member, rising⟩
      · have settled : (object fields).contents type = .ok (.object values) := by
          rw [contents, left]
          rfl
        refine .inl ⟨.object values, ?_, .object (kept_of_contents settled) each⟩
        rw [settle, settled, TypeRef.settle_present rfl]
      · exact settle_lost (.field member rising) fun required => .field required member rising

theorem settle_items_cases (element : TypeRef) : ∀ items : List Tree,
    (∃ values, settleItems element items = .ok values ∧ LeavesItems element items values) ∨
      settleItems element items = .error .bubble ∧ ∃ item ∈ items, Rises element item
  | [] => .inl ⟨[], by rw [settleItems]; rfl, .nil⟩
  | item :: rest => by
      rw [settle_items_cons]
      rcases settle_cases element item with ⟨value, left, leaves⟩ | ⟨bubbled, rises⟩
      · rw [left]
        rcases settle_items_cases element rest with
          ⟨values, others, each⟩ | ⟨bubbled, other, member, rises⟩
        · rw [others]
          exact .inl ⟨value :: values, rfl, .cons leaves each⟩
        · rw [bubbled]
          exact .inr ⟨rfl, other, List.mem_cons_of_mem _ member, rises⟩
      · rw [bubbled]
        exact .inr ⟨rfl, item, List.mem_cons_self, rises⟩

theorem settle_fields_cases : ∀ fields : List (String × TypeRef × Tree),
    (∃ values, settleFields fields = .ok values ∧ LeavesFields fields values) ∨
      settleFields fields = .error .bubble ∧
        ∃ key type tree, (key, type, tree) ∈ fields ∧ Rises type tree
  | [] => .inl ⟨[], by rw [settleFields]; rfl, .nil⟩
  | (key, type, tree) :: rest => by
      rw [settle_fields_cons]
      rcases settle_cases type tree with ⟨value, left, leaves⟩ | ⟨bubbled, rises⟩
      · rw [left]
        rcases settle_fields_cases rest with
          ⟨values, others, each⟩ | ⟨bubbled, otherKey, otherType, other, member, rises⟩
        · rw [others]
          exact .inl ⟨(key, value) :: values, rfl, .cons leaves each⟩
        · rw [bubbled]
          exact .inr ⟨rfl, otherKey, otherType, other, List.mem_cons_of_mem _ member, rises⟩
      · rw [bubbled]
        exact .inr ⟨rfl, key, type, tree, List.mem_cons_self, rises⟩

end

end Tree

/-- The data that is left of an object is what stands at a place where null is allowed. -/
theorem data_of_leaves {type : TypeRef} (optional : type.isNonNull = false) (branches : Branches) :
    Leaves type (.object branches) (dataOf branches) := by
  rcases Tree.settle_cases type (.object branches) with ⟨value, left, leaves⟩ | ⟨bubbled, -⟩
  · rw [Tree.settle, TypeRef.settle_optional optional, Tree.contents] at left
    obtain rfl : dataOf branches = value := Except.ok.inj left
    exact leaves
  · rw [Tree.settle, TypeRef.settle_optional optional] at bubbled
    cases bubbled

end GraphQL
