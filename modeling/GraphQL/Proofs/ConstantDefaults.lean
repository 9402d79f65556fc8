import GraphQL.Proofs.SchemaRoots
import GraphQL.Proofs.Yields

/-!
The defaults of accepted schemas are constants.

The reader takes no variable in a default and no name twice in an object. Merging extensions and
adding the fields of introspection brings no other arguments or input fields into a schema.
-/

namespace GraphQL

/-- A literal without variables, whose objects name every field once. -/
inductive Literal.Constant : Literal → Prop where
  | null : Constant .null
  | int (value : Int32) : Constant (.int value)
  | float (value : Single) : Constant (.float value)
  | string (text : String) : Constant (.string text)
  | bool (value : Bool) : Constant (.bool value)
  | enum (name : String) : Constant (.enum name)
  | list {items} (each : ∀ item ∈ items, Constant item.node) : Constant (.list items)
  | object {fields} (distinct : (fields.map (·.1.node)).Nodup)
      (each : ∀ field ∈ fields, Constant field.2.node) : Constant (.object fields)

def InputDefinition.ConstantDefault (input : InputDefinition) : Prop :=
  ∀ literal ∈ input.default, literal.node.Constant

def ObjectType.ConstantDefaults (object : ObjectType) : Prop :=
  ∀ field ∈ object.fields, ∀ argument ∈ field.node.arguments, argument.node.ConstantDefault

/-- The arguments and input fields that a definition declares have constant defaults. -/
def Definition.ConstantDefaults : Definition → Prop
  | .type ⟨.object object, _⟩ => object.ConstantDefaults
  | .type ⟨.inputObject input, _⟩ => ∀ field ∈ input.fields, field.node.ConstantDefault
  | .extension object => object.node.ConstantDefaults
  | _ => True

namespace Reader

theorem string_constant (raw : String) :
    Yields (string raw) fun literal => literal.node.Constant := by
  rw [string]
  apply Yields.after
  intro token
  cases unquote raw.toList with
  | error error => exact .fail
  | ok text => exact .pure (.string _)

theorem integer_constant (raw : String) :
    Yields (integer raw) fun literal => literal.node.Constant := by
  rw [integer]
  apply Yields.after
  intro token
  cases integerLiteral? raw.toList with
  | none => exact .fail
  | some value => exact .pure (.int _)

theorem floating_constant (raw : String) :
    Yields (floating raw) fun literal => literal.node.Constant := by
  rw [floating]
  apply Yields.after
  intro token
  cases Binary.read? .single raw.toList with
  | none => exact .fail
  | some value => exact .pure (.float _)

theorem literal_field_constant {value : Reader (Located Literal)}
    (each : Yields value fun literal => literal.node.Constant) :
    Yields (literalField value) fun field => field.2.node.Constant := by
  rw [literalField]
  apply Yields.after
  intro key
  apply Yields.after
  intro colon
  apply each.bind
  intro content holds
  exact .pure holds

/-- What is read as a constant is one. -/
theorem literal_within_constant (depth : Nat) :
    Yields (literalWithin true depth) fun literal => literal.node.Constant := by
  induction depth with
  | zero =>
      rw [literalWithin]
      exact .after fun _ => .fail
  | succ depth ih =>
      rw [literalWithin]
      apply Yields.after
      intro found
      split
      · apply (ih.delimited _ _).bind
        intro items each
        exact .pure (.list each)
      · apply ((literal_field_constant ih).delimited _ _).bind
        intro fields each
        apply (reject_repeats_yields _ _).bind
        intro _ distinct
        rw [List.map_map] at distinct
        exact .pure (.object distinct each)
      · rw [if_pos rfl]
        exact .reject
      · exact integer_constant _
      · exact floating_constant _
      · exact string_constant _
      · exact .after fun _ => .pure (.bool _)
      · exact .after fun _ => .pure .null
      · exact .after fun _ => .pure (.enum _)
      · exact .after fun _ => .pure (.enum _)
      · exact .fail
      · exact .reject

theorem default_value_constant :
    Yields defaultValue fun default => ∀ literal ∈ default, literal.node.Constant := by
  rw [defaultValue]
  apply Yields.after
  intro skipped
  cases skipped with
  | none => exact .pure fun _ absent => by cases absent
  | some token =>
      have constant : Yields (literal true) fun literal => literal.node.Constant := by
        rw [literal]
        exact .after fun _ => literal_within_constant _
      apply constant.bind
      intro value holds
      apply Yields.pure
      intro literal same
      cases same
      exact holds

theorem input_definition_constant :
    Yields inputDefinition fun input => input.node.ConstantDefault := by
  rw [inputDefinition]
  apply Yields.after
  intro description
  apply Yields.after
  intro inputName
  apply Yields.after
  intro colon
  apply Yields.after
  intro type
  apply default_value_constant.bind
  intro value constant
  apply Yields.after
  intro marks
  exact .pure constant

theorem input_definitions_constant (opening closing : Punctuator) (kind : NameKind) :
    Yields (inputDefinitions opening closing kind) fun list =>
      ∀ input ∈ list.node, input.node.ConstantDefault := by
  rw [inputDefinitions]
  apply (input_definition_constant.delimited_nonempty _ _).bind
  intro list constant
  apply Yields.after
  intro _
  exact .pure constant

theorem field_definition_constant :
    Yields fieldDefinition fun field =>
      ∀ argument ∈ field.node.arguments, argument.node.ConstantDefault := by
  have rest (description : Option String) (fieldName : Located String)
      (inputs : List (Located InputDefinition))
      (constant : ∀ input ∈ inputs, input.node.ConstantDefault) :
      Yields (do
        let _ ← expect (.punctuator .colon)
        let type ← typeRef
        let marks ← directives
        pure (.between fieldName.span.start (directivesStop marks type.span.stop)
          ⟨fieldName, description, inputs, type, deprecation marks⟩))
        fun field : Located FieldDefinition =>
          ∀ argument ∈ field.node.arguments, argument.node.ConstantDefault := by
    apply Yields.after
    intro colon
    apply Yields.after
    intro type
    apply Yields.after
    intro marks
    exact .pure constant
  rw [fieldDefinition]
  apply Yields.after
  intro description
  apply Yields.after
  intro fieldName
  apply Yields.after
  intro opens
  cases opens with
  | false => exact rest description fieldName [] fun _ absent => by cases absent
  | true =>
      simp only [if_true, pure_bind]
      apply (input_definitions_constant _ _ _).bind
      intro list constant
      exact rest description fieldName list.node constant

theorem field_definitions_constant :
    Yields fieldDefinitions fun list => ∀ field ∈ list.node,
      ∀ argument ∈ field.node.arguments, argument.node.ConstantDefault := by
  rw [fieldDefinitions]
  apply (field_definition_constant.delimited_nonempty _ _).bind
  intro list constant
  apply Yields.after
  intro _
  exact .pure constant

theorem object_type_constant (description : Option String) :
    Yields (objectType description) fun object => object.node.ConstantDefaults := by
  have rest (keyword : Located Token) (typeName : Located String)
      (interfaces : List (Located String)) :
      Yields (do
        let fields ← fieldDefinitions
        pure (.between keyword.span.start fields.span.stop
          ⟨typeName, description, interfaces, fields.node⟩))
        fun object : Located ObjectType => object.node.ConstantDefaults := by
    apply field_definitions_constant.bind
    intro fields constant
    exact .pure constant
  rw [objectType]
  apply Yields.after
  intro keyword
  apply Yields.after
  intro typeName
  apply Yields.after
  intro skipped
  cases skipped with
  | none => exact rest keyword typeName []
  | some token =>
      dsimp only
      apply Yields.after
      intro cursor
      apply Yields.after
      intro interfaces
      exact rest keyword typeName interfaces

theorem input_object_type_constant (description : Option String) :
    Yields (inputObjectType description) fun input =>
      ∀ field ∈ input.node.fields, field.node.ConstantDefault := by
  rw [inputObjectType]
  apply Yields.after
  intro keyword
  apply Yields.after
  intro typeName
  apply (input_definitions_constant _ _ _).bind
  intro fields constant
  exact .pure constant

theorem type_extension_constant (description : Option String) :
    Yields (typeExtension description) fun object => object.node.ConstantDefaults := by
  rw [typeExtension]
  apply Yields.after
  intro keyword
  apply (object_type_constant description).bind
  intro object constant
  exact .pure constant

theorem definition_constant : Yields definition Definition.ConstantDefaults := by
  rw [definition]
  apply Yields.after
  intro description
  apply Yields.after
  intro found
  split
  · exact .after fun _ => .pure trivial
  · exact .after fun _ => .pure trivial
  · exact .after fun _ => .pure trivial
  · exact .after fun _ => .pure trivial
  · apply (object_type_constant description).bind
    intro object constant
    exact .pure constant
  · exact .after fun _ => .pure trivial
  · exact .after fun _ => .pure trivial
  · exact .after fun _ => .pure trivial
  · exact .after fun _ => .pure trivial
  · apply (input_object_type_constant description).bind
    intro input constant
    exact .pure constant
  · apply (type_extension_constant description).bind
    intro object constant
    exact .pure constant
  · exact .fail
  · exact .reject

end Reader

/-- A change of one object type keeps defaults constant, if it does so for that type. -/
theorem update_object_constant {name : String}
    {change : ObjectType → Except SchemaError ObjectType}
    (keeps : ∀ object changed, change object = .ok changed → object.ConstantDefaults →
      changed.ConstantDefaults)
    {definitions updated : List Definition}
    (done : updateObject? name change definitions = some (.ok updated))
    (constant : ∀ definition ∈ definitions, definition.ConstantDefaults) :
    ∀ definition ∈ updated, definition.ConstantDefaults := by
  obtain ⟨before, object, changed, span, after, rfl, replaced, rfl⟩ := update_object_split done
  obtain ⟨earlier, here, later⟩ := List.forall_mem_append.mp constant |>.imp id
    List.forall_mem_cons.mp
  exact List.forall_mem_append.mpr
    ⟨earlier, List.forall_mem_cons.mpr ⟨keeps object changed replaced here, later⟩⟩

namespace ObjectType

theorem add_fields_constant {fields : List (Located FieldDefinition)} {object changed : ObjectType}
    (added : object.addFields fields = .ok changed) (constant : object.ConstantDefaults)
    (more : ∀ field ∈ fields, ∀ argument ∈ field.node.arguments, argument.node.ConstantDefault) :
    changed.ConstantDefaults := by
  induction fields generalizing object with
  | nil =>
      cases added
      exact constant
  | cons field rest ih =>
      rw [addFields] at added
      split at added
      · cases added
      · apply ih added
        · intro other member
          rcases List.mem_append.mp member with before | here
          · exact constant other before
          · rw [List.mem_singleton.mp here]
            exact more field List.mem_cons_self
        · exact fun other member => more other (List.mem_cons_of_mem _ member)

theorem add_interfaces_fields (object : ObjectType) (interfaces : List (Located String)) :
    (object.addInterfaces interfaces).fields = object.fields := by
  induction interfaces generalizing object with
  | nil => rfl
  | cons interface rest ih =>
      rw [addInterfaces, List.foldl_cons, ← addInterfaces, ih]
      split <;> rfl

theorem extend_constant {object extension changed : ObjectType}
    (extended : object.extend extension = .ok changed) (constant : object.ConstantDefaults)
    (more : extension.ConstantDefaults) : changed.ConstantDefaults := by
  have start : (object.addInterfaces extension.interfaces).ConstantDefaults := by
    rw [ConstantDefaults, add_interfaces_fields]
    exact constant
  exact add_fields_constant extended start more

end ObjectType

namespace Introspection

theorem add_entry_constant {object changed : ObjectType} {field : FieldDefinition}
    (added : addEntry object field = .ok changed) (constant : object.ConstantDefaults)
    (more : ∀ argument ∈ field.arguments, argument.node.ConstantDefault) :
    changed.ConstantDefaults := by
  rw [addEntry] at added
  split at added
  · cases added
  · cases added
    intro other member
    rcases List.mem_append.mp member with before | here
    · exact constant other before
    · rw [List.mem_singleton.mp here]
      exact more

theorem add_entries_constant (object changed : ObjectType)
    (added : addEntries object = .ok changed) (constant : object.ConstantDefaults) :
    changed.ConstantDefaults := by
  rw [addEntries] at added
  cases first : addEntry object schemaField with
  | error error => simp [first] at added
  | ok extended =>
      simp only [first] at added
      have halfway := add_entry_constant first constant fun _ absent => by cases absent
      apply add_entry_constant added halfway
      intro argument member literal given
      rw [List.mem_singleton.mp member] at given
      cases given

end Introspection

namespace Document

theorem merge_extensions_constant {extensions : List (Located ObjectType)}
    {document merged : Document} (done : document.mergeExtensions extensions = .ok merged)
    (constant : ∀ definition ∈ document.definitions, definition.ConstantDefaults)
    (more : ∀ extension ∈ extensions, extension.node.ConstantDefaults) :
    ∀ definition ∈ merged.definitions, definition.ConstantDefaults := by
  induction extensions generalizing document with
  | nil =>
      cases done
      exact constant
  | cons extension rest ih =>
      rw [mergeExtensions] at done
      cases step : document.mergeExtension extension.node with
      | error error => simp [step] at done
      | ok changed =>
          simp only [step] at done
          apply ih done _ fun other member => more other (List.mem_cons_of_mem _ member)
          rw [mergeExtension] at step
          split at step
          · cases step
          · cases step
          · rename_i definitions updated
            cases step
            exact update_object_constant
              (fun _ _ extended constant =>
                ObjectType.extend_constant extended constant (more extension List.mem_cons_self))
              updated constant

end Document

/-- The defaults of all input fields and of all arguments of object types are constants. -/
structure Schema.ConstantDefaults (schema : Schema) : Prop where
  inputs : ∀ name input, schema.type? name = some (.inputObject input) →
    ∀ field ∈ input.fields, field.node.ConstantDefault
  objects : ∀ name object, schema.type? name = some (.object object) → object.ConstantDefaults

theorem Schema.constant_defaults_of_definitions {schema : Schema}
    (constant : ∀ definition ∈ schema.document.definitions, definition.ConstantDefaults) :
    schema.ConstantDefaults := by
  have declared {name : String} {type : TypeDefinition} (found : schema.type? name = some type) :
      ∃ span, Definition.type ⟨type, span⟩ ∈ schema.document.definitions := by
    obtain ⟨definition, inside, typed⟩ := List.mem_filterMap.mp (List.mem_of_find?_eq_some found)
    cases definition with
    | type located =>
        cases typed
        exact ⟨located.span, inside⟩
    | _ => cases typed
  constructor
  · intro name input found
    obtain ⟨span, inside⟩ := declared found
    exact constant _ inside
  · intro name object found
    obtain ⟨span, inside⟩ := declared found
    exact constant _ inside

theorem Schema.accepted_constant_defaults {schema : Schema} (accepted : schema.Accepted) :
    schema.ConstantDefaults := by
  obtain ⟨source, queryName, mutationName, built⟩ := accepted
  rw [ofSource, ofText] at built
  cases read : Document.ofText (fullText source.toList) with
  | error error => simp [read] at built
  | ok document =>
      simp only [read] at built
      obtain ⟨merged, definitions, merging, -, updated, rfl⟩ := of_document_accepted built
      have written := Document.of_text_yields Reader.definition_constant read
      have extensions : ∀ extension ∈ document.extensions, extension.node.ConstantDefaults := by
        intro extension member
        obtain ⟨definition, inside, added⟩ := List.mem_filterMap.mp member
        cases definition with
        | extension object =>
            cases added
            exact written _ inside
        | _ => cases added
      have extended := Document.merge_extensions_constant merging written extensions
      exact constant_defaults_of_definitions
        (update_object_constant Introspection.add_entries_constant updated extended)

end GraphQL
