import GraphQL.Proofs.ConstantArguments
import GraphQL.Proofs.ErrorLog
import GraphQL.Proofs.SchemaInputs
import GraphQL.Proofs.SpelledTexts

/-!
Coerced inputs are settled: coercing them once more changes nothing.

Where no callback reads a type, scalars are written in their own variant, single values have become
lists, and an input object holds its fields in declared order with the defaults filled in. A field
that was left out has no default but null. So what a coercion leaves is found as it should be by the
next one, whether it came from a value or from a default.
-/

namespace GraphQL

variable {σ : Type} {executor : Executor σ}

theorem BuiltinScalar.Written.coerce {scalar : BuiltinScalar} {value : Value}
    (written : scalar.Written value) : scalar.coerce value = some value := by
  cases written <;> rfl

/-- What a leaf became is left alone by its scalar or enum. -/
theorem coerce_leaf_again {name : String} {value coerced : Value}
    (done : executor.coerceLeaf name value = .ok coerced) :
    executor.coerceLeaf name coerced = .ok coerced := by
  cases coerce_leaf_fits executor done with
  | builtin declared named written =>
      simp only [Executor.coerceLeaf, declared, named, Option.bind_some, written.coerce]
  | custom declared unnamed present => simp [Executor.coerceLeaf, declared, unnamed] at done
  | enum declared known => simp only [Executor.coerceLeaf, declared, Value.toEnumName?, known, if_true]
  | object declared content => simp [Executor.coerceLeaf, declared] at done

/-- A value that coercion at a type leaves alone, if no callback reads the type. -/
def Executor.Settled (executor : Executor σ) (type : TypeRef) (value : Value) : Prop :=
  executor.Unhooked type → ∀ values, executor.coerceInput values value type = pure value

/-- An input field without a default other than null, if no callback reads its type. -/
def Executor.NullAtBest (executor : Executor σ) (field : InputDefinition) : Prop :=
  executor.Unhooked field.type.node → ∀ literal ∈ field.default, literal.node.isNull = true

/-- Every value from outside is coerced by way of its shape. -/
theorem coerce_input_with_shape (executor : Executor σ) (expand : LiteralCoercion σ)
    (value : Value) :
    ∃ shape, executor.coerceInputWith expand value = InputShape.coerce executor.isNullish shape := by
  cases value with
  | list | object => exact ⟨_, funext fun type => by rw [Executor.coerceInputWith]⟩
  | _ =>
      exact ⟨_, funext fun type => by rw [Executor.coerceInputWith] <;> intros <;> contradiction⟩

namespace Executor

theorem Unhooked.nullable {type : TypeRef} (unhooked : executor.Unhooked type) :
    executor.Unhooked type.nullable := by
  rw [Unhooked, nullable_innermost]
  exact unhooked

theorem Unhooked.field {name : String} (unhooked : executor.Unhooked (.named name))
    {input : InputObjectType} (declared : executor.schema.type? name = some (.inputObject input))
    {field : Located InputDefinition} (member : field ∈ input.fields) :
    executor.Unhooked field.node.type.node :=
  fun other reached => unhooked other (reached.of_field declared member)

/-- A value that is settled at a non-null type is settled without the wrapper. -/
theorem Settled.nullable {type : TypeRef} {value : Value} (settled : executor.Settled type value) :
    executor.Settled type.nullable value := by
  cases type with
  | named name => exact settled
  | list element => exact settled
  | nonNull inner =>
      intro unhooked values
      have whole := settled unhooked values
      obtain ⟨shape, same⟩ := coerce_input_with_shape executor
        (executor.expandDefault values executor.schema.defaultCount) value
      rw [coerceInput, same] at whole ⊢
      funext context
      have ran := congrFun whole context
      rw [InputShape.coerce] at ran
      rcases Action.bind_finished ran with ⟨found, middle, started, checked⟩ | ⟨_, impossible, -⟩
      · split at checked
        · cases checked
        · cases checked
          exact started
      · cases impossible

end Executor

/-- Looking up an entry of an object coerces its value. -/
theorem coerce_entry_with_eq (executor : Executor σ) (expand : LiteralCoercion σ)
    (fields : Object) (name : String) :
    executor.coerceEntryWith expand fields name =
      (fields.get? name).map (executor.coerceInputWith expand) := by
  induction fields with
  | nil => rfl
  | cons field rest ih =>
      obtain ⟨key, value⟩ := field
      rw [Executor.coerceEntryWith, Object.get?, List.lookup_cons, ih, Object.get?]
      by_cases same : name = key
      · simp [same]
      · simp [same, beq_eq_false_iff_ne.mpr same]

theorem required_settled {inner : TypeRef} {value : Value}
    (there : executor.There executor.Settled inner value) :
    executor.Settled (.nonNull inner) value := by
  intro unhooked values
  have within := there.2 unhooked values
  obtain ⟨shape, same⟩ := coerce_input_with_shape executor
    (executor.expandDefault values executor.schema.defaultCount) value
  rw [Executor.coerceInput, same] at within ⊢
  rw [InputShape.coerce, within, pure_bind, if_neg (by simp [there.1])]

section Settling

variable (policy : executor.isNullish = Value.isNull)

include policy

theorem null_settled {type : TypeRef} (optional : type.isNonNull = false) :
    executor.Settled type .null := by
  intro _ values
  rw [Executor.coerceInput, Executor.coerceInputWith, policy]
  · exact coerce_settled _ _ type fun required => by rw [optional] at required; cases required
  all_goals intros; contradiction

theorem list_settled {element : TypeRef} {items : List Value}
    (each : ∀ item ∈ items, executor.Settled element item) :
    executor.Settled (.list element) (.list items) := by
  intro unhooked values
  have elements (index : Nat) :
      executor.coerceElementsWith (executor.expandDefault values executor.schema.defaultCount)
        index items element = pure items := by
    induction items generalizing index with
    | nil => rw [Executor.coerceElementsWith]
    | cons item rest ih =>
        have first := each item List.mem_cons_self unhooked values
        rw [Executor.coerceInput] at first
        rw [Executor.coerceElementsWith, first,
          ih fun other member => each other (List.mem_cons_of_mem _ member)]
        rfl
  rw [Executor.coerceInput, Executor.coerceInputWith, policy]
  simp only [Value.isNull, Bool.false_eq_true, if_false, InputShape.coerce, elements, pure_bind]

/-- A value other than null is coerced at a named type by what the type is. -/
theorem coerce_input_named {value : Value} (present : value.isNull = false)
    (expand : LiteralCoercion σ) (name : String) :
    ∃ fields, executor.coerceInputWith expand value (.named name) =
      executor.coerceNamed expand fields (fun hooks => hooks.parseValue value) value name := by
  cases value with
  | null => cases present
  | list items =>
      refine ⟨none, ?_⟩
      rw [Executor.coerceInputWith, policy]
      rfl
  | object fields =>
      refine ⟨some (Object.keys fields, executor.coerceEntryWith expand fields), ?_⟩
      rw [Executor.coerceInputWith, policy]
      rfl
  | _ =>
      refine ⟨none, ?_⟩
      rw [Executor.coerceInputWith, policy]
      · rfl
      all_goals intros; contradiction

theorem leaf_settled {name : String} {value coerced : Value}
    (done : executor.coerceLeaf name value = .ok coerced) :
    executor.Settled (.named name) coerced := by
  intro unhooked values
  have fits := coerce_leaf_fits executor done
  have again := coerce_leaf_again done
  obtain ⟨fields, same⟩ := coerce_input_named policy fits.not_null
    (executor.expandDefault values executor.schema.defaultCount) name
  rw [Executor.coerceInput, same, Executor.coerceNamed]
  cases fits with
  | builtin declared named written => simp only [declared, named, again]; rfl
  | custom declared unnamed present => simp [Executor.coerceLeaf, declared, unnamed] at done
  | enum declared known => simp only [declared, again]; rfl
  | object declared content => simp [Executor.coerceLeaf, declared] at done

theorem custom_settled {name : String} {definition : ScalarType}
    (declared : executor.schema.type? name = some (.scalar definition))
    (unnamed : BuiltinScalar.ofName? name = none) (value : Value) :
    executor.Settled (.named name) value := by
  intro unhooked values
  cases absent : value.isNull with
  | true =>
      cases value <;> cases absent
      exact null_settled policy rfl unhooked values
  | false =>
      have plainly : executor.scalar? name = none := by
        have none_registered := unhooked name .here
        simpa only [Executor.customScalar?, declared, unnamed] using none_registered
      obtain ⟨fields, same⟩ := coerce_input_named policy absent
        (executor.expandDefault values executor.schema.defaultCount) name
      rw [Executor.coerceInput, same, Executor.coerceNamed]
      simp only [declared, unnamed, plainly]

omit policy in
/-- What is there and settled stays, and no default is asked for. -/
theorem given_stays {type : TypeRef} {value : Value} (unhooked : executor.Unhooked type)
    (there : executor.There executor.Settled type value) (expand : LiteralCoercion σ)
    (default : Option (Located Literal)) (values : Object) :
    executor.givenOrDefault expand type default (some (executor.coerceInput values value)) =
      pure value := by
  have settled := there.2.nullable unhooked.nullable values
  rw [given_or_default_eq, Option.elim_some, settled, pure_bind]
  cases default with
  | none => rfl
  | some literal => rw [Executor.orDefault, if_neg (by simp [there.1])]

omit policy in
theorem field_stays {field : InputDefinition} {value : Value}
    (unhooked : executor.Unhooked field.type.node)
    (there : executor.There executor.Settled field.type.node value) (expand : LiteralCoercion σ)
    (values : Object) :
    executor.coerceField expand field (some (executor.coerceInput values value)) =
      pure (some value) := by
  have stays := given_stays unhooked there expand field.default values
  simp only [Executor.coerceField, stays, pure_bind, there.1, Bool.false_eq_true, if_false]
  rfl

/-- A field that was left out is left out again, since its default is null if it has one. -/
theorem field_stays_out {field : InputDefinition} (unhooked : executor.Unhooked field.type.node)
    (optional : field.type.node.isNonNull = false) (left : executor.NullAtBest field)
    (values : Object) {depth : Nat} (deep : field.default ≠ none → 0 < depth) :
    executor.coerceField (executor.expandDefault values depth) field none = pure none := by
  have nothing : executor.givenOrDefault (executor.expandDefault values depth)
      field.type.node field.default none = pure .null := by
    rw [given_or_default_eq, Option.elim_none, pure_bind]
    cases written : field.default with
    | none => rfl
    | some literal =>
        have null : literal.node = .null := by
          have said := left unhooked literal written
          cases plain : literal.node <;> rw [plain] at said <;> first | rfl | cases said
        have somewhere := deep (by simp [written])
        have same : field.type.node.nullable = field.type.node := by
          cases typed : field.type.node <;> rw [typed] at optional <;> first | rfl | cases optional
        obtain ⟨less, rfl⟩ := Nat.exists_eq_succ_of_ne_zero (Nat.ne_of_gt somewhere)
        rw [Executor.orDefault, policy, Executor.expandDefault, null, same,
          Executor.coerceLiteralWith, policy]
        exact coerce_settled _ _ _ fun required => by rw [optional] at required; cases required
  simp only [Executor.coerceField, nothing, pure_bind, policy, Value.isNull, if_true, optional,
    Bool.false_eq_true, if_false]
  rfl

/-- Fields that fill the declared ones are found as they are, and nothing is added to them. -/
theorem fields_stay {values : Object} {depth : Nat}
    {given : String → Option (TypeRef → Coercion σ Value)}
    {definitions : List (Located InputDefinition)} {fields : Object}
    (fills : Fills (executor.There executor.Settled) executor.NullAtBest definitions fields)
    (distinct : (definitions.map (·.node.name.node)).Nodup)
    (unhooked : ∀ definition ∈ definitions, executor.Unhooked definition.node.type.node)
    (deep : ∀ definition ∈ definitions, definition.node.default ≠ none → 0 < depth)
    (found : ∀ definition ∈ definitions, given definition.node.name.node =
      (fields.get? definition.node.name.node).map (executor.coerceInput values)) :
    executor.coerceFields (executor.expandDefault values depth) given definitions =
      pure fields := by
  induction fills with
  | nil => rfl
  | @absent definition rest fields optional left others ih =>
      obtain ⟨fresh, distinct⟩ := List.nodup_cons.mp distinct
      have missing : fields.get? definition.node.name.node = none := by
        rw [Object.get?, List.lookup_eq_none_iff]
        intro entry inside
        have declared := others.keys_sublist.subset (List.mem_map_of_mem inside)
        have differs : definition.node.name.node ≠ entry.1 := fun same => fresh (by rwa [← same] at declared)
        simpa using differs
      have first := field_stays_out policy (unhooked definition List.mem_cons_self) optional left
        values (deep definition List.mem_cons_self)
      have same := ih distinct (fun other member => unhooked other (List.mem_cons_of_mem _ member))
        (fun other member => deep other (List.mem_cons_of_mem _ member))
        fun other member => found other (List.mem_cons_of_mem _ member)
      rw [Executor.coerceFields, found definition List.mem_cons_self, missing, Option.map_none,
        first, same]
      rfl
  | @present definition rest value fields first others ih =>
      obtain ⟨fresh, distinct⟩ := List.nodup_cons.mp distinct
      have kept := field_stays (unhooked definition List.mem_cons_self) first
        (executor.expandDefault values depth) values
      have same := ih distinct (fun other member => unhooked other (List.mem_cons_of_mem _ member))
        (fun other member => deep other (List.mem_cons_of_mem _ member)) fun other member => by
          have differs : other.node.name.node ≠ definition.node.name.node := fun same =>
            fresh (List.mem_map.mpr ⟨other, member, same⟩)
          rw [found other (List.mem_cons_of_mem _ member), Object.get?, List.lookup_cons,
            beq_eq_false_iff_ne.mpr differs]
          rfl
      rw [Executor.coerceFields, found definition List.mem_cons_self, Object.get?,
        List.lookup_cons_self, Option.map_some, kept, same]
      rfl

omit policy in
theorem default_counted {name : String} {input : InputObjectType}
    (declared : executor.schema.type? name = some (.inputObject input))
    {field : Located InputDefinition} (member : field ∈ input.fields)
    (written : field.node.default ≠ none) : 0 < executor.schema.defaultCount := by
  obtain ⟨literal, given⟩ := Option.ne_none_iff_exists'.mp written
  have inside : literal ∈ executor.schema.types.flatMap TypeDefinition.inputDefaults :=
    List.mem_flatMap.mpr ⟨_, List.mem_of_find?_eq_some declared,
      List.mem_filterMap.mpr ⟨field, member, given⟩⟩
  exact List.length_pos_of_mem inside

theorem object_settled {name : String} {input : InputObjectType} {fields : Object}
    (declared : executor.schema.type? name = some (.inputObject input))
    (distinct : (input.fields.map (·.node.name.node)).Nodup)
    (fills : Fills (executor.There executor.Settled) executor.NullAtBest input.fields fields) :
    executor.Settled (.named name) (.object fields) := by
  intro unhooked values
  have known : (Object.keys fields).find? (fun key => (findInput? key input.fields).isNone) =
      none := by
    rw [List.find?_eq_none]
    intro key inside
    obtain ⟨field, member, rfl⟩ := List.mem_map.mp (fills.keys_sublist.subset inside)
    simp only [findInput?, Option.isNone_map, Option.isNone_iff_eq_none, List.find?_eq_none]
    exact fun none_there => none_there field member (by simp)
  have same := fields_stay policy fills distinct
    (fun field member => unhooked.field declared member)
    (fun field member written => default_counted declared member written)
    fun field member => coerce_entry_with_eq executor
      (executor.expandDefault values executor.schema.defaultCount) fields _
  rw [Executor.coerceInput, Executor.coerceInputWith, policy]
  simp only [Value.isNull, Bool.false_eq_true, if_false, InputShape.coerce, Executor.coerceNamed,
    declared, Executor.coerceInputObject, known, same, pure_bind]

theorem settled_rules (accepted : executor.schema.Accepted) :
    InputRules executor executor.Settled executor.NullAtBest where
  null := null_settled policy
  required := required_settled
  list := list_settled policy
  leaf := leaf_settled policy
  custom := custom_settled policy
  object declared := object_settled policy declared (Schema.accepted_distinct_inputs accepted declared)
  undefaulted absent _ literal written := by rw [absent] at written; cases written

/-- Defaults are settled too, and those that come to null are written as null. -/
theorem defaults_settled (accepted : executor.schema.Accepted) (values : Object) (depth : Nat) :
    ∀ name, ensuresJudgement.Expands executor executor.Settled executor.NullAtBest
      (executor.expandDefault values depth) name := by
  have constants := executor.schema.accepted_constant_defaults accepted
  induction depth with
  | zero =>
      intro _ _ _ _ _ _ _
      exact .unfinished
  | succ depth ih =>
      intro name input declared field member literal written
      have constant := constants.inputs name input declared field member literal written
      rw [Executor.expandDefault]
      have settled : Ensures _ (executor.Settled field.node.type.node.nullable) :=
        ensuresJudgement.literal_coerced (settled_rules policy accepted)
          (Judgement.ensures_reads executor) values literal.node _
          { used := fun _ _ part => by cases part.constant constant
            defaults := fun other _ _ input declared field member _ =>
            ih other input declared field member }
      refine ⟨fun context value later ran => ⟨settled.holds context value later ran, ?_⟩⟩
      intro null unhooked literal' written'
      obtain rfl : literal' = literal := Option.some.inj (written'.symm.trans written)
      cases plain : literal'.node.isNull with
      | true => rfl
      | false =>
          have present := (constant_not_null unhooked.plain values constant plain
            (executor.schema.leads_to_nullable _)).holds context value later ran
          rw [policy, present] at null
          cases null

/-- What coercing a value leaves is settled. -/
theorem coerce_input_settled (accepted : executor.schema.Accepted) (values : Object)
    (value : Value) (type : TypeRef) :
    Ensures (executor.coerceInput values value type) (executor.Settled type) :=
  ensuresJudgement.input_coerced (settled_rules policy accepted) (Judgement.ensures_reads executor)
    (defaults_settled policy accepted values _) value type

/-- What is left of a variable is settled; if nothing is, its default comes to nothing for good. -/
theorem coerce_variable_settled (accepted : executor.schema.Accepted) (inputs : Object)
    {declared : VariableDefinition} (unhooked : executor.Unhooked declared.type.node) :
    Ensures (executor.coerceVariable inputs declared) fun found =>
      found.elim
        (declared.type.node.isNonNull = false ∧ ∀ literal ∈ declared.default,
          executor.coerceLiteral [] literal.node declared.type.node.nullable = pure .null)
        (executor.There executor.Settled declared.type.node) := by
  apply ensuresJudgement.coerce_variable (settled_rules policy accepted)
  · intro absent literal written
    rw [absent] at written
    cases written
  · intro literal written
    have settled : Ensures (executor.coerceLiteral [] literal.node declared.type.node.nullable)
        (executor.Settled declared.type.node.nullable) := by
      rw [Executor.coerceLiteral, Executor.expandDefault]
      exact ensuresJudgement.literal_coerced (settled_rules policy accepted)
        (Judgement.ensures_reads executor) [] literal.node _
        { used := fun position _ _ => null_settled policy (fully_nullable_optional position)
          defaults := fun name _ _ input declared field member _ =>
            defaults_settled policy accepted [] _ name input declared field member }
    have inert : Inert (executor.coerceLiteral [] literal.node declared.type.node.nullable) :=
      ActionLaw.coerce_literal (unhooked.plain.reads inertLaw) [] literal.node _
        (executor.schema.leads_to_nullable _)
    refine ⟨fun context value later ran => ⟨settled.holds context value later ran, ?_⟩⟩
    intro null literal' written'
    obtain rfl : literal' = literal := Option.some.inj (written'.symm.trans written)
    rw [policy] at null
    generalize executor.coerceLiteral [] literal'.node declared.type.node.nullable = action
      at inert ran ⊢
    cases inert <;> cases ran
    cases value <;> cases null
    rfl
  · intro value _
    exact coerce_input_settled policy accepted [] value _

end Settling

theorem coerced_variable_input {inputs : Object} {declared : VariableDefinition}
    {found : Option Value} {before after : σ}
    (coerced : executor.coerceVariable inputs declared before = some (.ok found, after)) :
    executor.schema.IsInput declared.type.node := by
  cases known : executor.schema.type? declared.type.node.innermost with
  | none =>
      simp only [Executor.coerceVariable, known] at coerced
      cases coerced
  | some definition =>
      cases input : definition.isInput with
      | true => exact ⟨definition, known, input⟩
      | false =>
          simp only [Executor.coerceVariable, known, input, Bool.false_eq_true, if_false] at coerced
          cases coerced

section Variables

variable (accepted : executor.schema.Accepted) (policy : executor.isNullish = Value.isNull)

include accepted policy

/-- A variable that is given what was left of it, or nothing if it was left out, stays as it is. -/
theorem coerce_variable_again {inputs : Object} {declared : VariableDefinition}
    (unhooked : executor.Unhooked declared.type.node) {found : Option Value} {before after : σ}
    (coerced : executor.coerceVariable inputs declared before = some (.ok found, after))
    {bindings : Object} (held : bindings.get? declared.name.node = found) :
    executor.coerceVariable bindings declared = pure found := by
  have settled := (coerce_variable_settled policy accepted inputs unhooked).holds _ _ _ coerced
  rw [coerce_variable_eq (coerced_variable_input coerced), held]
  cases found with
  | none =>
      obtain ⟨optional, nothing⟩ := settled
      have absent : executor.givenOrDefault (executor.coerceLiteral []) declared.type.node
          declared.default none = pure .null := by
        rw [given_or_default_eq, Option.elim_none, pure_bind]
        cases written : declared.default with
        | none => rfl
        | some literal =>
            rw [Executor.orDefault, policy]
            exact nothing literal written
      rw [Option.map_none, absent, policy, optional]
      rfl
  | some value =>
      have there : executor.There executor.Settled declared.type.node value := settled
      rw [Option.map_some, given_stays unhooked there]
      change (if executor.isNullish value then _ else pure (some value) : Action σ InputError _) = _
      rw [if_neg (by simp [there.1])]

/-- Variables that are given what was left of them before are left as they are. -/
theorem coerce_variables_again {inputs : Object} {place : Position}
    {definitions : List VariableDefinition}
    (distinct : (definitions.map fun definition => definition.name.node).Nodup)
    (unhooked : ∀ definition ∈ definitions, executor.Unhooked definition.type.node)
    {values : Object} {journal later : Journal σ}
    (finished : executor.coerceVariables inputs place definitions journal =
      some (.ok values, later)) (clean : later.errors = journal.errors)
    {bindings : Object} (held : ∀ definition ∈ definitions,
      bindings.get? definition.name.node = values.get? definition.name.node)
    (again : Journal σ) :
    executor.coerceVariables bindings place definitions again = some (.ok values, again) := by
  induction definitions generalizing values journal with
  | nil =>
      cases finished
      rfl
  | cons definition rest ih =>
      obtain ⟨result, after, middle, others, coerced, noted, tail, rfl⟩ :=
        coerce_variables_cons finished
      obtain ⟨-, added, -, gained, -⟩ := coerce_variables_gains tail
      rw [Journal.Gains, noted, clean, List.append_assoc] at gained
      obtain ⟨no_error, none_added⟩ :=
        List.append_eq_nil_iff.mp (List.self_eq_append_right.mp gained)
      cases result with
      | error error => cases no_error
      | ok found =>
          obtain ⟨here, elsewhere⟩ := first_value_found distinct tail found
          have first := coerce_variable_again accepted policy
            (unhooked definition List.mem_cons_self) coerced
            ((held definition List.mem_cons_self).trans here)
          have same : executor.coerceVariables bindings place rest again =
              some (.ok others, again) :=
            ih (List.nodup_cons.mp distinct).2
              (fun other member => unhooked other (List.mem_cons_of_mem _ member)) tail
              (by rw [clean, noted]; simp [variableErrors])
              fun other member =>
                (held other (List.mem_cons_of_mem _ member)).trans (elsewhere other member)
          have observed : Completion.observe (executor.coerceVariable bindings definition) again =
              some (.ok (.ok found), again) := by
            rw [first]
            rfl
          rw [Executor.coerceVariables, Action.bind_apply, observed]
          cases found with
          | none => exact same
          | some value =>
              dsimp only
              rw [Action.bind_apply, same]
              rfl

end Variables

/-- The variables that an operation declares. -/
def Operation.declaredVariables (operation : Operation) : List VariableDefinition :=
  (operation.variableDefinitions.map (·.node)).getD []

/-- Each variable of an operation has a name of its own. -/
def Operation.DistinctVariables (operation : Operation) : Prop :=
  (operation.declaredVariables.map fun declared => declared.name.node).Nodup

/-- The variables of a definition have names of their own, if it is an operation. -/
def Definition.DistinctVariables : Definition → Prop
  | .operation located => located.node.DistinctVariables
  | _ => True

namespace Reader

theorem variable_definitions_distinct :
    Yields variableDefinitions fun list =>
      (((list.map (·.node)).getD []).map fun declared => declared.name.node).Nodup := by
  rw [variableDefinitions]
  apply Yields.after
  intro seen
  cases seen with
  | false => exact .pure List.nodup_nil
  | true =>
      apply Yields.after
      intro list
      apply (reject_repeats_yields _ _).bind
      intro _ distinct
      rw [List.map_map] at distinct
      exact .pure distinct

theorem keyword_operation_distinct (kind : OperationKind) :
    Yields (keywordOperation kind) fun operation => operation.node.DistinctVariables := by
  rw [keywordOperation]
  apply Yields.after
  intro keyword
  apply Yields.after
  intro operation
  apply variable_definitions_distinct.bind
  intro definitions distinct
  apply Yields.after
  intro marks
  apply Yields.after
  intro set
  exact .pure distinct

theorem definition_distinct_variables : Yields definition Definition.DistinctVariables := by
  have operation {reader : Reader (Located Operation)}
      (distinct : Yields reader fun operation => operation.node.DistinctVariables) :
      Yields (do
        let operation ← reader
        pure (.operation operation)) Definition.DistinctVariables :=
    distinct.bind fun _ nodup => .pure nodup
  rw [definition]
  apply Yields.after
  intro description
  apply Yields.after
  intro found
  split
  case h_1 =>
    apply operation
    rw [bareQuery]
    exact .after fun _ => .pure List.nodup_nil
  case h_2 => exact operation (keyword_operation_distinct .query)
  case h_3 => exact operation (keyword_operation_distinct .mutation)
  case h_12 => exact .fail
  case h_13 => exact .reject
  all_goals exact .after fun _ => .pure trivial

end Reader

theorem Document.distinct_variables {source : String} {document : Document}
    (read : Document.ofSource source = .ok document) {operation : Located Operation}
    (member : operation ∈ document.operations) : operation.node.DistinctVariables := by
  obtain ⟨definition, inside, operational⟩ := List.mem_filterMap.mp member
  have distinct := Document.of_text_yields Reader.definition_distinct_variables read _ inside
  cases definition with
  | operation located =>
      cases operational
      exact distinct
  | _ => cases operational

/--
Where no callback reads the variables of an operation, coercing what their coercion left, if no
error came of it, leaves the same variables and no error. So it is with single values: what a value
becomes at a type, it stays.
-/
theorem coerced_inputs_are_settled (accepted : executor.schema.Accepted)
    (policy : executor.isNullish = Value.isNull) :
    (∀ source document operation inputs values (journal later : Journal σ),
      Document.ofSource source = .ok document → operation ∈ document.operations →
      (∀ declared ∈ operation.node.declaredVariables, executor.Unhooked declared.type.node) →
      executor.coerceVariables inputs (operationPlace operation)
        operation.node.declaredVariables journal = some (.ok values, later) →
      later.errors = journal.errors →
      ∀ again, executor.coerceVariables values (operationPlace operation)
        operation.node.declaredVariables again = some (.ok values, again)) ∧
      ∀ type, executor.Unhooked type → ∀ values value context coerced later,
        executor.coerceInput values value type context = some (.ok coerced, later) →
        ∀ others, executor.coerceInput others coerced type = pure coerced := by
  constructor
  · intro source document operation inputs values journal later read member unhooked finished clean
    exact coerce_variables_again accepted policy (Document.distinct_variables read member) unhooked
      finished clean fun _ _ => rfl
  · intro type unhooked values value context coerced later ran
    exact (coerce_input_settled policy accepted values value type).holds _ _ _ ran unhooked

/-! A plan for walks that is sent as text in place of a list. -/

def walkRequest : String := "query($plan:Walk!){walk(plan:$plan)}"

def walkInputs : Object := [("plan", .object [("days", .string "3")])]

/-- What the variables of the request become, and a day by itself. -/
def walkValues? (schema : Schema) : Option (Document × Located Operation × Object × Value) :=
  match Document.ofSource walkRequest with
  | .ok document =>
      match document.operations with
      | [operation] =>
          match (walkExecutor schema).coerceVariables walkInputs (operationPlace operation)
              operation.node.declaredVariables ⟨(), []⟩ with
          | some (.ok values, ⟨_, []⟩) =>
              match (walkExecutor schema).coerceInput [] (.string "3") (.list (.named "Int")) () with
              | some (.ok days, _) =>
                  if values.keys = ["plan"] then some (document, operation, values, days) else none
              | _ => none
          | _ => none
      | _ => none
  | .error _ => none

theorem walk_values_found :
    ((Schema.ofSource walkSource "Kennel" none).toOption.bind walkValues?).isSome = true := by
  rw [Schema.of_source_spelled walkSource String.toList_ofList]
  decide +kernel

theorem plans_stay_as_coerced :
    ∃ (executor : Executor Unit) (document : Document) (operation : Located Operation)
      (values : Object) (days : Value),
      executor.schema.Accepted ∧ Document.ofSource walkRequest = .ok document ∧
        operation ∈ document.operations ∧ values.keys = ["plan"] ∧
        (∃ later, executor.coerceVariables walkInputs (operationPlace operation)
          operation.node.declaredVariables ⟨(), []⟩ = some (.ok values, later)) ∧
        executor.coerceVariables values (operationPlace operation)
          operation.node.declaredVariables ⟨(), []⟩ = some (.ok values, ⟨(), []⟩) ∧
        executor.coerceInput [] days (.list (.named "Int")) = pure days := by
  obtain ⟨schema, ⟨document, operation, values, days⟩, accepted, found⟩ :=
    Schema.accepted_of_found walk_values_found
  have unhooked (type : TypeRef) : (walkExecutor schema).Unhooked type := by
    intro name _
    rw [Executor.customScalar?]
    split <;> rfl
  unfold walkValues? at found
  split at found
  · rename_i document' read
    split at found
    · rename_i operation' only
      split at found
      · rename_i values' context bound
        split at found
        · rename_i days' later coerced
          split at found
          · rename_i keys
            cases found
            have member : operation ∈ document.operations := only ▸ List.mem_singleton_self _
            obtain ⟨operations, inputs⟩ :=
              @coerced_inputs_are_settled _ (walkExecutor schema) accepted rfl
            have again := operations walkRequest document operation walkInputs values _ _ read member
              (fun _ _ => unhooked _) bound rfl ⟨(), []⟩
            have stays := inputs (.list (.named "Int")) (unhooked _) [] _ _ days _ coerced []
            exact ⟨walkExecutor schema, document, operation, values, days, accepted, read, member,
              keys, ⟨_, bound⟩, again, stays⟩
          · cases found
        · cases found
      · cases found
    · cases found
  · cases found

end GraphQL
