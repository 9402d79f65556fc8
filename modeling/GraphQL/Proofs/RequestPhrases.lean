import GraphQL.Proofs.Builds

/-!
Phrases of requests: literals, types, arguments, directives, selections, operations and fragments.

Each reader builds what the grammar says. The end of a node is put together from the ends of its
parts, some of which may be missing; it is always where the last part that is there ends.
-/

namespace GraphQL

def Selection.span : Selection → Span
  | .field located => located.span
  | .spread located => located.span
  | .inline located => located.span

namespace Reader

section Literals

variable {ahead : Located Token → Prop}

theorem scalar_there {token : Located Token} {literal : Literal}
    (means : token.node.Means literal) :
    There LiteralForm (token.map fun _ => literal) [.leaf token] := ⟨.scalar means, rfl⟩

theorem constant_builds (literal : Literal) :
    Builds (fun token => token.node.Means literal) (constant literal) (There LiteralForm) := by
  unfold constant
  refine Builds.next.map fun token parts taken => ?_
  obtain ⟨rfl, means⟩ := taken
  exact scalar_there means

theorem integer_builds (raw : String) :
    Builds (fun token => token.node = .int raw) (integer raw) (There LiteralForm) := by
  unfold integer
  refine Builds.next.bind fun token parts taken => ?_
  obtain ⟨rfl, same⟩ := taken
  split
  · exact .fail _ _
  · rename_i n value
    exact .pure (scalar_there (same ▸ .int value))

theorem floating_builds (raw : String) :
    Builds (fun token => token.node = .float raw) (floating raw) (There LiteralForm) := by
  unfold floating
  refine Builds.next.bind fun token parts taken => ?_
  obtain ⟨rfl, same⟩ := taken
  split
  · exact .fail _ _
  · rename_i x value
    exact .pure (scalar_there (same ▸ .float value))

theorem string_builds (raw : String) :
    Builds (fun token => token.node = .string raw) (string raw) (There LiteralForm) := by
  unfold string
  refine Builds.next.bind fun token parts taken => ?_
  obtain ⟨rfl, same⟩ := taken
  split
  · exact .fail _ _
  · rename_i text value
    exact .pure (scalar_there (same ▸ .string value))

theorem variable_builds : Builds ahead variableLiteral (There LiteralForm) := by
  unfold variableLiteral
  exact .marked_name fun dollar name token mark => .pure ⟨.variable mark, rfl⟩

theorem literal_field_builds {value : Reader (Located Literal)}
    (builds : Parses value (Node LiteralForm)) :
    Parses (literalField value) (LiteralFieldForm LiteralForm) := by
  unfold literalField
  refine Builds.name.bind fun key parts named => ?_
  cases named
  refine (Builds.expect _).bind fun colon parts marked => ?_
  obtain ⟨rfl, mark⟩ := marked
  refine builds.map fun content parts inside => ?_
  exact .field mark inside

theorem literal_within_builds (isConstant : Bool) (depth : Nat) :
    Parses (literalWithin isConstant depth) (Node LiteralForm) := by
  apply Builds.node
  induction depth with
  | zero =>
      rw [literalWithin]
      exact .peek fun found => .fail _ _
  | succ depth ih =>
      have inner : Parses (literalWithin isConstant depth) (Node LiteralForm) := ih.node
      rw [literalWithin]
      refine .peek fun found => ?_
      split
      · refine (delimited_builds inner).map fun items parts inside => ?_
        exact ⟨.list inside.1, inside.2⟩
      · refine (delimited_builds (literal_field_builds inner)).bind fun fields parts inside => ?_
        refine (Looks.repeats _ _).bind fun _ => .pure ?_
        rw [List.append_nil]
        exact ⟨.object inside.1, inside.2⟩
      · split
        · exact .reject _
        · exact variable_builds
      · rename_i raw same
        exact (integer_builds raw).knowing fun token here => here ▸ same
      · rename_i raw same
        exact (floating_builds raw).knowing fun token here => here ▸ same
      · rename_i raw same
        exact (string_builds raw).knowing fun token here => here ▸ same
      · rename_i value same
        exact (constant_builds _).knowing fun token here => by rw [here, same]; exact .bool
      · rename_i same
        exact (constant_builds _).knowing fun token here => by rw [here, same]; exact .null
      · rename_i text same
        exact (constant_builds _).knowing fun token here => by rw [here, same]; exact .name
      · rename_i word same
        exact (constant_builds _).knowing fun token here => by rw [here, same]; exact .keyword
      · exact .fail _ _
      · exact .reject _

theorem literal_builds (isConstant : Bool) :
    Parses (Reader.literal isConstant) (Node LiteralForm) := by
  unfold Reader.literal
  exact Looks.count.bind fun cursor => literal_within_builds isConstant _

end Literals

section Types

theorem non_null_mark_builds {type : Located TypeRef} {parts : List Phrase}
    (there : There TypeForm type parts) :
    Parses (nonNullMark type) fun found more => There TypeForm found (parts ++ more) := by
  unfold nonNullMark
  refine .sees ?_ (.pure ?_)
  · refine Builds.next.map fun mark more taken => ?_
    obtain ⟨rfl, marked⟩ := taken
    exact ⟨.nonNull marked there.1, there.2.append⟩
  · rwa [List.append_nil]

theorem type_within_builds (depth : Nat) : Parses (typeWithin depth) (There TypeForm) := by
  induction depth with
  | zero =>
      rw [typeWithin]
      exact .peek fun found => .fail _ _
  | succ depth ih =>
      rw [typeWithin]
      refine (Builds.skip _).bind fun found parts skipped => ?_
      cases skipped with
      | absent =>
          refine Builds.name.bind fun name parts named => ?_
          cases named
          exact non_null_mark_builds ⟨.named, rfl⟩
      | @present opening _ there =>
          obtain ⟨rfl, opens⟩ := there
          refine ih.bind fun element inside content => ?_
          refine (Builds.expect _).bind fun closing last taken => ?_
          obtain ⟨rfl, closes⟩ := taken
          obtain ⟨list, there⟩ := @enclosed_there _ TypeForm _ _ _ _ _ _ opens closes content.1
          have marked := @non_null_mark_builds (.between opening.span.start closing.span.stop
            (.list element.node)) _ ⟨.list list, there⟩
          exact marked.mono fun value more holds => by simpa using holds

theorem type_ref_builds : Parses typeRef (Node TypeForm) := by
  unfold typeRef
  exact Looks.count.bind fun cursor => (type_within_builds _).node

end Types

section Lists

theorem argument_builds : Parses argument ArgumentForm := by
  unfold argument
  refine Builds.name.bind fun name parts named => ?_
  cases named
  refine (Builds.expect _).bind fun colon parts marked => ?_
  obtain ⟨rfl, mark⟩ := marked
  refine (literal_builds false).map fun value parts content => ?_
  exact .argument mark content

theorem arguments_builds : Parses arguments ArgumentsForm := by
  unfold arguments
  refine .sees ?_ (.pure .absent)
  refine (delimited_nonempty_builds argument_builds).node.bind fun list parts there => ?_
  refine (Looks.repeats _ _).bind fun _ => .pure ?_
  rw [List.append_nil]
  exact .present there

/-- Where something optional ends that is a node, or another place. -/
theorem optional_stop {α : Type} {form : Form α} {value : Option (Located α)} {parts : List Phrase}
    {stop : Option (Located α) → Position} {otherwise : Position}
    (there : Maybe (Node form) value parts) (absent : stop none = otherwise)
    (present : ∀ located, stop (some located) = located.span.stop) :
    stop value = partsStop otherwise parts := by
  cases there with
  | absent => exact absent
  | present inside =>
      cases inside
      exact present _

theorem directive_builds : Parses directive (Node DirectiveForm) := by
  apply Builds.node
  unfold directive
  refine .marked_name fun mark name token marked => ?_
  refine arguments_builds.map fun list parts there => ?_
  refine ⟨.directive marked there, ?_⟩
  refine congrArg (Span.mk _) (?_ : _ = partsStop name.span.stop parts)
  apply optional_stop there
  · rfl
  · exact fun _ => rfl

theorem directive_run_builds (count : Nat) :
    Parses (directiveRun count) (Each (Node DirectiveForm)) := by
  induction count with
  | zero =>
      rw [directiveRun]
      exact .pure .nil
  | succ count ih =>
      rw [directiveRun]
      refine .sees ?_ (.pure .nil)
      refine (directive_builds.knowing fun _ _ => trivial).bind fun first parts there => ?_
      refine ih.map fun rest more others => ?_
      exact .cons there others

theorem directives_builds : Parses directives DirectivesForm := by
  unfold directives
  refine Looks.count.bind fun cursor => ?_
  refine (directive_run_builds _).map fun run parts each => ?_
  cases each with
  | nil => exact .nil
  | cons first others => exact .cons first others

/-- Things in a row end where the last of them does. -/
theorem each_stop {α : Type} {form : Form α} {stop : α → Position}
    (ends : ∀ value parts, form value parts → ∀ otherwise, partsStop otherwise parts = stop value)
    {values : List α} {parts : List Phrase} (each : Each form values parts) (otherwise : Position) :
    partsStop otherwise parts = (values.getLast?.map stop).getD otherwise := by
  induction each generalizing otherwise with
  | nil => rfl
  | @cons value values parts more first _ ih =>
      rw [parts_stop_append, ends value parts first, ih, List.getLast?_cons]
      cases values.getLast? <;> rfl

theorem node_stop {α : Type} {form : Form α} (located : Located α) (parts : List Phrase)
    (there : Node form located parts) (otherwise : Position) :
    partsStop otherwise parts = located.span.stop := by
  cases there
  rfl

theorem directives_stop {marks : Directives} {parts : List Phrase}
    (there : DirectivesForm marks parts) (otherwise : Position) :
    directivesStop marks otherwise = partsStop otherwise parts := by
  rw [each_stop node_stop there, directivesStop]
  cases marks with
  | none => rfl
  | some run => cases last : run.getLast? <;> simp [last]

end Lists

section Selections

/-- The parts of a selection, and where they are. -/
abbrev SelectionThere : Form Selection :=
  fun found parts => SelectionForm found [.node found.span parts] ∧ Hull found.span parts

variable {ahead : Located Token → Prop} {set : Reader (Located (List Selection))}

/-- Behind its name a field has arguments, directives and a selection set, or some of these. -/
theorem field_parts_builds (sets : Parses set (There SelectionSetForm)) {start : Position}
    {aliasName : Option (Located String)} {aliasParts : List Phrase} {name : Located String}
    {token : Located Token} (before : AliasForm aliasName aliasParts)
    (begins : Hull ⟨start, name.span.stop⟩ (aliasParts ++ [.named name token])) :
    Parses (fieldParts set start aliasName name) fun found more =>
      SelectionThere found (aliasParts ++ [.named name token] ++ more) := by
  have whole {list marks selections listParts markParts setParts stop}
      (arguments : ArgumentsForm list listParts) (directives : DirectivesForm marks markParts)
      (inner : Maybe SelectionSetForm selections setParts)
      (stops : stop = partsStop name.span.stop (listParts ++ (markParts ++ setParts))) :
      SelectionThere (.field (.between start stop ⟨aliasName, name, list, marks, selections⟩))
        (aliasParts ++ [.named name token] ++ (listParts ++ (markParts ++ setParts))) := by
    refine ⟨?_, stops ▸ begins.append⟩
    rw [List.append_assoc, List.singleton_append]
    exact .field before arguments directives inner
  unfold fieldParts
  refine arguments_builds.bind fun list listParts arguments => ?_
  refine directives_builds.bind fun marks markParts marked => ?_
  refine .sees ?_ (.pure ?_)
  · refine (sets.knowing fun _ _ => trivial).map fun found setParts there => ?_
    refine whole arguments marked (.present there.1) ?_
    rw [parts_stop_append, parts_stop_append, there.2.stop]
  · refine whole arguments marked .absent ?_
    rw [parts_stop_append, parts_stop_append, parts_stop_nil, ← directives_stop marked]
    refine congrArg (directivesStop marks) ?_
    apply optional_stop arguments
    · rfl
    · exact fun _ => rfl

theorem field_builds (sets : Parses set (There SelectionSetForm)) :
    Builds ahead (field set) SelectionForm := by
  refine @Builds.gather _ _ _ Selection.span _ ?_
  unfold field
  refine Builds.name.bind fun first parts named => ?_
  cases named
  refine (Builds.skip _).bind fun found parts skipped => ?_
  cases skipped with
  | present taken =>
      obtain ⟨rfl, mark⟩ := taken
      refine Builds.name.bind fun name parts named => ?_
      cases named
      exact field_parts_builds sets (.present mark) rfl
  | absent => exact field_parts_builds sets .absent rfl

theorem inline_parts_builds (sets : Parses set (There SelectionSetForm)) {dots : Located Token}
    (mark : dots.node = .punctuator .spread) {condition : Option (Located String)}
    {conditionParts : List Phrase} (on : ConditionForm condition conditionParts) :
    Builds ahead (inlineParts set dots.span.start condition) fun found more =>
      SelectionThere found (.leaf dots :: (conditionParts ++ more)) := by
  unfold inlineParts
  refine (directives_builds.knowing fun _ _ => trivial).bind fun marks markParts marked => ?_
  refine sets.map fun found setParts there => ?_
  refine ⟨.inline mark on marked there.1, ?_⟩
  simp [Hull, Located.between, Selection.span, there.2.stop, Phrase.span]

theorem spread_builds (sets : Parses set (There SelectionSetForm)) :
    Builds ahead (spread set) SelectionForm := by
  refine @Builds.gather _ _ _ Selection.span _ ?_
  unfold spread
  refine (Builds.expect _).bind fun dots parts taken => ?_
  obtain ⟨rfl, mark⟩ := taken
  refine .peek fun found => ?_
  split
  · rename_i same
    refine Builds.next.bind fun word parts taken => ?_
    obtain ⟨rfl, rfl⟩ := taken
    refine Builds.name.bind fun name parts named => ?_
    cases named
    exact inline_parts_builds sets mark (.present same)
  · exact inline_parts_builds sets mark .absent
  · exact inline_parts_builds sets mark .absent
  · exact .fail _ _
  · split
    · refine Builds.name.bind fun name parts named => ?_
      cases named
      refine directives_builds.map fun marks markParts marked => ?_
      refine ⟨.spread mark marked, ?_⟩
      simp [Hull, Located.between, Selection.span, directives_stop marked, Phrase.span]
    · exact .reject _

theorem selection_set_within_builds (depth : Nat) :
    Parses (selectionSetWithin depth) (There SelectionSetForm) := by
  induction depth with
  | zero =>
      rw [selectionSetWithin]
      exact .peek fun found => .fail _ _
  | succ depth ih =>
      rw [selectionSetWithin]
      exact delimited_nonempty_builds (.sees (spread_builds ih) (field_builds ih))

theorem selection_set_builds : Parses selectionSet (There SelectionSetForm) := by
  unfold selectionSet
  exact Looks.count.bind fun cursor => selection_set_within_builds _

end Selections

section Operations

variable {ahead : Located Token → Prop}

theorem default_builds : Parses defaultValue DefaultForm := by
  unfold defaultValue
  refine (Builds.skip _).bind fun found parts skipped => ?_
  cases skipped with
  | present taken =>
      obtain ⟨rfl, mark⟩ := taken
      refine (literal_builds true).map fun value parts content => ?_
      exact .present mark content
  | absent => exact .pure .absent

/-- A dollar sign and a name are one name together, from the sign to the end of the name. -/
theorem dollar_name_builds {α : Type} {next : Located Token → Located String → Reader α}
    {goal : Form α}
    (second : ∀ dollar name word, Parses (next dollar name) fun result more =>
      goal result (.dollarNamed ⟨name.node, ⟨dollar.span.start, name.span.stop⟩⟩ dollar word :: more)) :
    Builds ahead
      (do
        let dollar ← expect (.punctuator .dollar)
        let word ← name
        next dollar word)
      goal := by
  have apart : Builds ahead
      (do
        let dollar ← expect (.punctuator .dollar)
        let word ← name
        next dollar word)
      fun result parts => ∃ dollar name word more, parts = .leaf dollar :: .named name word :: more ∧
        dollar.node = .punctuator .dollar ∧
        goal result
          (.dollarNamed ⟨name.node, ⟨dollar.span.start, name.span.stop⟩⟩ dollar word :: more) := by
    refine .marked_name fun dollar name word mark => ?_
    exact (second dollar name word).mono fun result more holds =>
      ⟨dollar, name, word, more, rfl, mark, holds⟩
  refine apart.regroup fun result parts placed found => ?_
  obtain ⟨dollar, name, word, more, rfl, mark, holds⟩ := found
  obtain ⟨-, others⟩ := List.forall_mem_cons.mp placed
  obtain ⟨named, rest⟩ := List.forall_mem_cons.mp others
  cases named with
  | named same there =>
      refine ⟨.dollarNamed _ dollar word :: more, rfl, List.forall_mem_cons.mpr ⟨?_, rest⟩, holds⟩
      exact .dollarNamed mark same (by rw [there])

theorem variable_definition_builds : Parses variableDefinition VariableDefinitionForm := by
  unfold variableDefinition
  refine dollar_name_builds fun dollar name word => ?_
  refine (Builds.expect _).bind fun colon parts taken => ?_
  obtain ⟨rfl, mark⟩ := taken
  refine type_ref_builds.bind fun type typeParts typed => ?_
  refine default_builds.map fun value defaultParts defaulted => ?_
  rw [List.singleton_append]
  exact .definition mark typed defaulted

theorem variable_definitions_builds : Parses variableDefinitions VariableDefinitionsForm := by
  unfold variableDefinitions
  refine .sees ?_ (.pure .absent)
  refine (delimited_nonempty_builds variable_definition_builds).node.bind fun list parts there => ?_
  refine (Looks.repeats _ _).bind fun _ => .pure ?_
  rw [List.append_nil]
  exact .present there

theorem operation_name_builds : Parses operationName (Maybe Named) := by
  unfold operationName
  refine .peek fun found => ?_
  split
  · refine Builds.name.map fun name parts named => ?_
    exact .present named
  · exact .pure .absent

theorem bare_query_builds : Builds ahead bareQuery (Node OperationForm) := by
  apply Builds.node
  unfold bareQuery
  refine (selection_set_builds.knowing fun _ _ => trivial).map fun set parts there => ?_
  exact ⟨.bare there.1, there.2⟩

theorem keyword_operation_builds (kind : OperationKind) :
    Builds (fun token => token.node = .keyword kind.keyword) (keywordOperation kind)
      (Node OperationForm) := by
  apply Builds.node
  unfold keywordOperation
  refine Builds.next.bind fun keyword parts taken => ?_
  obtain ⟨rfl, word⟩ := taken
  refine operation_name_builds.bind fun name nameParts named => ?_
  refine variable_definitions_builds.bind fun definitions definitionParts inputs => ?_
  refine directives_builds.bind fun marks markParts marked => ?_
  refine selection_set_builds.map fun set setParts there => ?_
  rw [List.singleton_append]
  refine ⟨.keyword word named inputs marked there.1, ?_⟩
  simp [Hull, Located.between, there.2.stop, Phrase.span]

theorem fragment_builds : Builds ahead fragment (Node FragmentForm) := by
  apply Builds.node
  unfold fragment
  refine .marked_name fun keyword name token word => ?_
  split
  · exact .fail _ _
  · refine (Builds.expect _).bind fun on parts taken => ?_
    obtain ⟨rfl, onWord⟩ := taken
    refine Builds.name.bind fun condition parts named => ?_
    cases named
    refine directives_builds.bind fun marks markParts marked => ?_
    refine selection_set_builds.map fun set setParts there => ?_
    simp only [List.singleton_append]
    refine ⟨.fragment word onWord marked there.1, ?_⟩
    simp [Hull, Located.between, there.2.stop, Phrase.span]

end Operations

end Reader

end GraphQL
