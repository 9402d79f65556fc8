import GraphQL.Proofs.Nesting
import GraphQL.Proofs.TypePhrases

/-!
Definitions that begin in front of the introspection types and end among them.

The introspection types begin with the word for a scalar and a name. Where a definition is cut
outside of all brackets, hardly any goes on like that: there is no place in it where two names follow
one another, but for the interfaces of an object type.
-/

namespace GraphQL

/-- How the introspection types begin. -/
def Enters (tokens : List Token) : Prop :=
  ∃ rest, tokens = .keyword .scalar :: .name "String" :: rest

/-- Cut outside of all brackets, tokens never go on as the introspection types begin. -/
def Shut (tokens : List Token) : Prop :=
  ∀ before after, tokens = before ++ after → Balanced before → ¬ Enters after

/-- Tokens that are shut, also behind the word for a scalar. -/
structure Sealed (tokens : List Token) : Prop where
  shut : Shut tokens
  begins : tokens.head? ≠ some (.name "String")

/-- Tokens that are shut behind the first one. -/
def Impassable (tokens : List Token) : Prop :=
  ∀ before after, tokens = before ++ after → before ≠ [] → Balanced before → ¬ Enters after

section Rules

variable {rest : List Token}

theorem Shut.nil : Shut [] := by
  rintro before after cut - ⟨more, rfl⟩
  exact absurd (List.append_eq_nil_iff.mp cut.symm).2 (List.cons_ne_nil _ _)

/-- A cut that is not in front of a token is behind it. -/
theorem cut_behind {token : Token} {before after : List Token} (plain : token.flat = true)
    (apart : token = .keyword .scalar → rest.head? ≠ some (.name "String"))
    (cut : token :: rest = before ++ after) (balanced : Balanced before) (enters : Enters after) :
    ∃ passed, rest = passed ++ after ∧ Balanced passed := by
  cases before with
  | nil =>
      obtain ⟨more, rfl⟩ := enters
      obtain ⟨word, rfl⟩ := List.cons.inj cut
      exact absurd rfl (apart word)
  | cons head tail =>
      obtain ⟨rfl, later⟩ := List.cons.inj cut
      exact ⟨tail, later, balanced.behind_flat plain⟩

theorem Shut.behind {token : Token} (plain : token.flat = true)
    (apart : token = .keyword .scalar → rest.head? ≠ some (.name "String")) (shut : Shut rest) :
    Shut (token :: rest) := by
  intro before after cut balanced enters
  obtain ⟨passed, later, inner⟩ := cut_behind plain apart cut balanced enters
  exact shut passed after later inner enters

theorem Shut.named {name : Located String} {token : Located Token}
    (placed : (Phrase.named name token).Placed) (after : Sealed rest) :
    Shut (token.node :: rest) :=
  .behind (Token.named_flat placed.word) (fun _ => after.begins) after.shut

theorem Sealed.nil : Sealed [] := ⟨.nil, nofun⟩

/-- A token that is no part of how the introspection types begin. -/
theorem Sealed.marked {found mark : Token} (same : found = mark) (plain : mark.flat = true)
    (other : mark ≠ .keyword .scalar ∧ mark ≠ .name "String") (shut : Shut rest) :
    Sealed (found :: rest) := by
  subst same
  refine ⟨.behind plain (fun word => absurd word other.1) shut, fun first => other.2 ?_⟩
  exact Option.some.inj first

theorem Sealed.block {block : List Token} (whole : Block block) (shut : Shut rest) :
    Sealed (block ++ rest) := by
  cases whole with
  | @enclosed opening closing inside opens closes within =>
      have bracket {token : Token} (plain : token.flat = true) : opening ≠ token := by
        rintro rfl
        simp [Token.flat, opens] at plain
      refine ⟨?_, fun first => bracket rfl (Option.some.inj first)⟩
      rintro before after cut balanced enters
      cases balanced with
      | nil =>
          obtain ⟨more, rfl⟩ := enters
          exact bracket rfl (List.cons.inj cut).1
      | flat plain =>
          exact bracket plain (List.cons.inj cut).1
      | enclosed _ ends between others =>
          -- The block is passed as a whole, and the cut is behind it.
          simp only [List.cons_append, List.append_assoc, List.nil_append, List.cons.injEq] at cut
          obtain ⟨-, later⟩ := within.same_inside between closes ends cut.2
          exact shut _ _ (List.cons.inj later).2 others enters

theorem Sealed.optional {block : List Token} (whole : block = [] ∨ Block block)
    (after : Sealed rest) : Sealed (block ++ rest) := by
  rcases whole with rfl | whole
  · exact after
  · exact .block whole after.shut

theorem Block.sealed {block : List Token} (whole : Block block) : Sealed block := by
  have alone := Sealed.block whole .nil
  rwa [List.append_nil] at alone

theorem Shut.impassable (shut : Shut rest) : Impassable rest :=
  fun before after cut _ balanced => shut before after cut balanced

theorem impassable_behind {found mark : Token} (same : found = mark) (plain : mark.flat = true)
    (shut : Shut rest) : Impassable (found :: rest) := by
  subst same
  rintro before after cut filled balanced
  cases before with
  | nil => exact absurd rfl filled
  | cons head tail =>
      obtain ⟨rfl, later⟩ := List.cons.inj cut
      exact shut tail after later (balanced.behind_flat plain)

end Rules

section Parts

variable {rest : List Token} {parts : List Phrase}

theorem optional_block {α : Type} {form : Form α} {opening closing : Punctuator}
    (opens : (Token.punctuator opening).opens = true)
    (closes : (Token.punctuator closing).closes = true) (nests : AlwaysNests form)
    {found : Option (Located α)} (made : Maybe (Node (Enclosed opening closing form)) found parts)
    (placed : AllPlaced parts) : leafTokens parts = [] ∨ Block (leafTokens parts) := by
  cases made with
  | absent => exact .inl rfl
  | present there =>
      obtain ⟨inside⟩ := there
      have whole := AlwaysNests.block opens closes nests inside
        (placed _ List.mem_cons_self).inner
      simp only [leaf_tokens_node, leaf_tokens_nil, List.append_nil]
      exact .inr whole

theorem arguments_block {list : Option (Located (List Argument))} (made : ArgumentsForm list parts)
    (placed : AllPlaced parts) : leafTokens parts = [] ∨ Block (leafTokens parts) :=
  optional_block rfl rfl (fun limit => (argument_nests limit).each) made placed

theorem directives_sealed {marks : Directives} (made : DirectivesForm marks parts)
    (placed : AllPlaced parts) (after : Sealed rest) : Sealed (leafTokens parts ++ rest) := by
  rw [DirectivesForm] at made
  generalize marks.getD [] = list at made
  induction made with
  | nil => exact after
  | cons first others ih =>
      obtain ⟨own, behind⟩ := List.forall_mem_append.mp placed
      obtain ⟨⟨marked, arguments⟩⟩ := first
      have inside := (own _ List.mem_cons_self).inner
      simp only [List.forall_mem_cons] at inside
      obtain ⟨-, name, list⟩ := inside
      simp only [leaf_tokens_append, leaf_tokens_node, leaf_tokens_leaf, leaf_tokens_named,
        leaf_tokens_nil, List.cons_append, List.append_assoc]
      refine .marked marked rfl (by decide) (.named name ?_)
      exact .optional (arguments_block arguments list) (ih behind)

theorem set_block {selections : List Selection} (made : SelectionSetForm selections parts)
    (placed : AllPlaced parts) : Block (leafTokens parts) :=
  AlwaysNests.block rfl rfl (fun limit => (selection_nests limit).each) made placed

theorem fields_block {fields : List (Located FieldDefinition)} (made : FieldsForm fields parts)
    (placed : AllPlaced parts) : Block (leafTokens parts) :=
  AlwaysNests.block rfl rfl (fun limit => (field_definition_nests limit).node.each) made placed

end Parts

section Definitions

variable {parts : List Phrase}

theorem operation_impassable {operation : Operation} (made : OperationForm operation parts)
    (placed : AllPlaced parts) : Impassable (leafTokens parts) := by
  cases made with
  | bare set => exact (set_block set placed).sealed.shut.impassable
  | keyword word named inputs directives set =>
      simp only [List.forall_mem_append, List.forall_mem_cons] at placed
      obtain ⟨-, name, definitions, marks, selections⟩ := placed
      have body := directives_sealed directives marks (set_block set selections).sealed
      have behind := Sealed.optional (optional_block rfl rfl
        (fun limit => (variable_definition_nests limit).each) inputs definitions) body
      simp only [leaf_tokens_leaf, leaf_tokens_append]
      refine impassable_behind word rfl ?_
      cases named with
      | absent => exact behind.shut
      | present there =>
          cases there
          exact .named (name _ List.mem_cons_self) behind

theorem fragment_impassable {fragment : Fragment} (made : FragmentForm fragment parts)
    (placed : AllPlaced parts) : Impassable (leafTokens parts) := by
  obtain ⟨word, on_word, directives, set⟩ := made
  simp only [List.forall_mem_append, List.forall_mem_cons] at placed
  obtain ⟨-, name, -, condition, marks, selections⟩ := placed
  simp only [leaf_tokens_leaf, leaf_tokens_named, leaf_tokens_append]
  refine impassable_behind word rfl (.named name (.marked on_word rfl (by decide) ?_))
  exact .named condition (directives_sealed directives marks (set_block set selections).sealed)

/-- What is behind the keyword of a definition that is a name and a block. -/
theorem named_block_impassable {keyword token : Located Token} {word : Keyword}
    {name : Located String} (same : keyword.node = .keyword word)
    (placed : (Phrase.named name token).Placed) (block : Block (leafTokens parts)) :
    Impassable (leafTokens (.leaf keyword :: .named name token :: parts)) := by
  simp only [leaf_tokens_leaf, leaf_tokens_named]
  exact impassable_behind same rfl (.named placed block.sealed)

theorem members_sealed {members : List (Located String)} (made : Each MemberForm members parts)
    (placed : AllPlaced parts) : Sealed (leafTokens parts) := by
  induction made with
  | nil => exact .nil
  | cons first others ih =>
      obtain ⟨own, behind⟩ := List.forall_mem_append.mp placed
      obtain ⟨mark⟩ := first
      simp only [List.forall_mem_cons] at own
      simp only [leaf_tokens_leaf, leaf_tokens_named, List.cons_append, List.nil_append]
      exact .marked mark rfl (by decide) (.named own.2.1 (ih behind))

/-- Tokens that go on with names of interfaces and a block. -/
def Crossing (interfaces : List (Located String)) (tokens : List Token) : Prop :=
  ∃ words block, tokens = words ++ block ∧ Block block ∧
    ∀ word ∈ words, ∃ name ∈ interfaces, word.asName? = some name.node

theorem names_worded {names : List (Located String)} (made : Each Named names parts)
    (placed : AllPlaced parts) :
    ∀ word ∈ leafTokens parts, ∃ name ∈ names, word.asName? = some name.node := by
  induction made with
  | nil => exact List.forall_mem_nil _
  | cons first others ih =>
      obtain ⟨own, behind⟩ := List.forall_mem_append.mp placed
      cases first
      simp only [leaf_tokens_named, List.cons_append, List.nil_append, List.forall_mem_cons]
      refine ⟨⟨_, List.mem_cons_self, (own _ List.mem_cons_self).word⟩, fun word there => ?_⟩
      obtain ⟨name, among, same⟩ := ih behind word there
      exact ⟨name, List.mem_cons_of_mem _ among, same⟩

theorem Balanced.behind_words {words rest : List Token} (plain : ∀ word ∈ words, word.flat = true)
    (balanced : Balanced (words ++ rest)) : Balanced rest := by
  induction words with
  | nil => exact balanced
  | cons word more ih =>
      obtain ⟨first, others⟩ := List.forall_mem_cons.mp plain
      exact ih others (balanced.behind_flat first)

theorem object_begins {object : ObjectType} (made : ObjectForm object parts) :
    ∃ rest, leafTokens parts = .keyword .type :: rest := by
  obtain ⟨word, implemented, body⟩ := made
  simp only [leaf_tokens_leaf, word]
  exact ⟨_, rfl⟩

/-- An object type is crossed nowhere but between its interfaces. -/
theorem object_crossed {object : ObjectType} (made : ObjectForm object parts)
    (placed : AllPlaced parts) {before after : List Token}
    (cut : leafTokens parts = before ++ after) (within : before ≠ []) (balanced : Balanced before)
    (enters : Enters after) : Crossing object.interfaces after := by
  obtain @⟨keyword, _, token, _, _, _, interfaceParts, fieldParts, word, implemented, body⟩ := made
  simp only [List.forall_mem_append, List.forall_mem_cons] at placed
  obtain ⟨-, name, interfaces, fields⟩ := placed
  have block := fields_block body fields
  simp only [leaf_tokens_leaf, leaf_tokens_named, leaf_tokens_append] at cut
  -- A cut is behind the keyword in any case, and so behind the name, too.
  have behind_keyword : ∃ passed,
      token.node :: (leafTokens interfaceParts ++ leafTokens fieldParts) = passed ++ after ∧
        Balanced passed := by
    cases before with
    | nil => exact absurd rfl within
    | cons head tail =>
        obtain ⟨rfl, later⟩ := List.cons.inj cut
        exact ⟨tail, later, balanced.behind_flat (word ▸ rfl)⟩
  obtain ⟨passed, cut, balanced⟩ := behind_keyword
  cases implemented with
  | none => exact absurd enters (Shut.named name block.sealed passed after cut balanced)
  | some implements each =>
      have names := names_worded each fun part there =>
        interfaces part (List.mem_cons_of_mem _ there)
      simp only [leaf_tokens_leaf, List.cons_append] at cut
      obtain ⟨passed, cut, balanced⟩ := cut_behind (Token.named_flat name.word)
        (by simp [implements]) cut balanced enters
      obtain ⟨passed, cut, balanced⟩ := cut_behind (implements ▸ rfl) (by simp [implements]) cut
        balanced enters
      rcases List.append_eq_append_iff.mp cut with ⟨beyond, rfl, later⟩ | ⟨words, same, rfl⟩
      · -- Behind all names there is nothing but the block.
        have inner := Balanced.behind_words (fun word there => by
          obtain ⟨name, -, named⟩ := names word there
          exact Token.named_flat named) balanced
        exact absurd enters (block.sealed.shut beyond after later inner)
      · exact ⟨words, _, rfl, block, fun word there => names word
          (same ▸ List.mem_append_right _ there)⟩

/-- The object type that a definition or an extension holds. -/
def Definition.objectPart? : Definition → Option ObjectType
  | .type ⟨.object object, _⟩ => some object
  | .extension ⟨object, _⟩ => some object
  | _ => none

theorem type_definition_crossed {type : TypeDefinition} (made : TypeDefinitionForm type parts)
    (placed : AllPlaced parts) {before after : List Token}
    (cut : leafTokens parts = before ++ after) (within : before ≠ []) (balanced : Balanced before)
    (enters : Enters after) :
    ∃ object, type = .object object ∧ Crossing object.interfaces after := by
  cases made with
  | object inside =>
      exact ⟨_, rfl, object_crossed inside placed cut within balanced enters⟩
  | interface word body =>
      simp only [List.forall_mem_cons] at placed
      have whole := named_block_impassable word placed.2.1 (fields_block body placed.2.2)
      exact absurd enters (whole before after cut within balanced)
  | union word mark bar others =>
      simp only [List.forall_mem_append, List.forall_mem_cons] at placed
      obtain ⟨-, name, -, -, first, members⟩ := placed
      have named := Shut.named first (members_sealed others members)
      simp only [leaf_tokens_leaf, leaf_tokens_named, leaf_tokens_append] at cut
      refine absurd enters
        (impassable_behind word rfl (.named name ?_) before after cut within balanced)
      refine .marked mark rfl (by decide) ?_
      cases bar with
      | none => exact named
      | some mark =>
          simp only [leaf_tokens_leaf, leaf_tokens_nil]
          exact (Sealed.marked mark rfl (by decide) named).shut
  | scalar word =>
      simp only [List.forall_mem_cons] at placed
      simp only [leaf_tokens_leaf, leaf_tokens_named, leaf_tokens_nil] at cut
      have whole := impassable_behind word rfl (.named placed.2.1 .nil)
      exact absurd enters (whole before after cut within balanced)
  | enum word body =>
      simp only [List.forall_mem_cons] at placed
      have block := AlwaysNests.block rfl rfl (fun limit => (enum_value_nests limit).node.each)
        body placed.2.2
      have whole := named_block_impassable word placed.2.1 block
      exact absurd enters (whole before after cut within balanced)
  | inputObject word body =>
      simp only [List.forall_mem_cons] at placed
      have block := AlwaysNests.block rfl rfl
        (fun limit => (input_definition_nests limit).node.each) body placed.2.2
      have whole := named_block_impassable word placed.2.1 block
      exact absurd enters (whole before after cut within balanced)

/-- Only among the interfaces of an object type a definition goes on as introspection begins. -/
theorem definition_crossed {definition : Definition} (made : DefinitionForm definition parts)
    (placed : AllPlaced parts) {before after : List Token}
    (cut : leafTokens parts = before ++ after) (within : before ≠ []) (balanced : Balanced before)
    (enters : Enters after) :
    ∃ object, definition.objectPart? = some object ∧ Crossing object.interfaces after := by
  cases made with
  | operation inside =>
      obtain ⟨inside⟩ := inside
      have inner := (placed _ List.mem_cons_self).inner
      simp only [leaf_tokens_node, leaf_tokens_nil, List.append_nil] at cut
      exact absurd enters (operation_impassable inside inner before after cut within balanced)
  | fragment inside =>
      obtain ⟨inside⟩ := inside
      have inner := (placed _ List.mem_cons_self).inner
      simp only [leaf_tokens_node, leaf_tokens_nil, List.append_nil] at cut
      exact absurd enters (fragment_impassable inside inner before after cut within balanced)
  | type inside =>
      obtain ⟨inside⟩ := inside
      have inner := (placed _ List.mem_cons_self).inner
      simp only [leaf_tokens_node, leaf_tokens_nil, List.append_nil] at cut
      obtain ⟨object, rfl, crossing⟩ :=
        type_definition_crossed inside inner cut within balanced enters
      exact ⟨object, rfl, crossing⟩
  | extension inside =>
      obtain ⟨inside⟩ := inside
      have inner := (placed _ List.mem_cons_self).inner
      obtain ⟨word, inside⟩ := inside
      obtain ⟨-, later⟩ := List.forall_mem_cons.mp inner
      simp only [leaf_tokens_node, leaf_tokens_leaf, leaf_tokens_nil, List.append_nil] at cut
      obtain ⟨passed, cut, balanced⟩ := cut_behind (word ▸ rfl) (by simp [word]) cut balanced enters
      refine ⟨_, rfl, object_crossed inside later cut ?_ balanced enters⟩
      rintro rfl
      obtain ⟨rest, begins⟩ := object_begins inside
      obtain ⟨more, rfl⟩ := enters
      rw [begins] at cut
      cases cut

/-- A definition begins with a keyword or a brace, never with a name that is none. -/
theorem definition_opens {definition : Definition} (made : DefinitionForm definition parts) :
    ∃ token rest, leafTokens parts = token :: rest ∧ ∀ text, token ≠ .name text := by
  have keyword {found : Located Token} {word : Keyword} {rest : List Token}
      (same : found.node = .keyword word) :
      ∃ token others, found.node :: rest = token :: others ∧ ∀ text, token ≠ .name text := by
    refine ⟨_, _, rfl, fun text other => ?_⟩
    rw [same] at other
    cases other
  cases made with
  | operation inside =>
      obtain ⟨inside⟩ := inside
      simp only [leaf_tokens_node, leaf_tokens_nil, List.append_nil]
      cases inside with
      | bare set =>
          obtain ⟨opens, closes, each⟩ := set
          simp only [leaf_tokens_leaf, opens]
          exact ⟨_, _, rfl, nofun⟩
      | keyword word =>
          simp only [leaf_tokens_leaf]
          exact keyword word
  | fragment inside =>
      obtain ⟨⟨word⟩⟩ := inside
      simp only [leaf_tokens_node, leaf_tokens_leaf, List.cons_append]
      exact keyword word
  | type inside =>
      obtain ⟨inside⟩ := inside
      simp only [leaf_tokens_node, leaf_tokens_nil, List.append_nil]
      cases inside with
      | object inside =>
          obtain ⟨word⟩ := inside
          simp only [leaf_tokens_leaf]
          exact keyword word
      | _ word =>
          simp only [leaf_tokens_leaf]
          exact keyword word
  | extension inside =>
      obtain ⟨⟨word⟩⟩ := inside
      simp only [leaf_tokens_node, leaf_tokens_leaf, List.cons_append]
      exact keyword word

end Definitions

section Reading

/-- The tokens of a cursor, without places and descriptions. -/
def Cursor.nodes (cursor : Cursor) : List Token := cursor.tokens.map (·.node)

theorem Cursor.nodes_length (cursor : Cursor) : cursor.nodes.length = cursor.length := by
  rw [nodes, tokens, List.length_map, List.length_map]

/-- Tokens that begin as the introspection types do: with words, a block and something else. -/
structure Entrance (tokens words block others : List Token) : Prop where
  whole : tokens = words ++ (block ++ others)
  enters : Enters tokens
  plain : ∀ word ∈ words, word.flat = true
  block : Block block
  upright : (nesting 0 tokens).isSome = true
  visible : .endOfFile ∉ tokens
  goes_on : others ≠ []

variable {tokens words block others : List Token}

/-- Where two rows of words are followed by blocks, both are the same to the end of the blocks. -/
theorem words_block_same {names body rest more : List Token}
    (plain : ∀ word ∈ words, word.flat = true) (flat : ∀ word ∈ names, word.flat = true)
    (whole : Block block) (also : Block body)
    (same : words ++ (block ++ rest) = names ++ (body ++ more)) : words = names ∧ rest = more := by
  have apart {list inner behind : List Token} (word : Token) (opened : Block list)
      (same : list ++ inner = word :: behind) : word.flat = false := by
    cases opened with
    | enclosed opens =>
        obtain ⟨rfl, -⟩ := List.cons.inj same
        simp [Token.flat, opens]
  rcases List.append_eq_append_iff.mp same with ⟨between, rfl, left⟩ | ⟨between, rfl, left⟩
  · cases between with
    | nil => exact ⟨(List.append_nil _).symm, (whole.same also left).2⟩
    | cons word behind =>
        have flat := flat word (by simp)
        rw [apart word whole left] at flat
        cases flat
  · cases between with
    | nil => exact ⟨List.append_nil _, (also.same whole left).2.symm⟩
    | cons word behind =>
        have flat := plain word (by simp)
        rw [apart word also left] at flat
        cases flat

/-- A definition that is crossed takes the words and the block, and nothing else. -/
theorem Crossing.takes {interfaces : List (Located String)} {after left : List Token}
    (crossing : Crossing interfaces after) (entrance : Entrance tokens words block others)
    (same : after ++ left = tokens ++ [.endOfFile]) :
    (∀ word ∈ words, ∃ name ∈ interfaces, word.asName? = some name.node) ∧
      left = others ++ [.endOfFile] := by
  obtain ⟨names, body, rfl, also, named⟩ := crossing
  have flat : ∀ word ∈ names, word.flat = true := fun word there => by
    obtain ⟨name, -, same⟩ := named word there
    exact Token.named_flat same
  rw [entrance.whole] at same
  simp only [List.append_assoc] at same
  obtain ⟨rfl, rest⟩ := words_block_same flat entrance.plain also entrance.block same
  exact ⟨named, rest⟩

/-- Behind a definition the source ends, or there are other definitions. -/
theorem definitions_step {count : Nat} {cursor left : Cursor} {definitions : List Definition}
    (ran : (Reader.definitions (count + 1)).run cursor = .ok definitions left) :
    ∃ first middle, Reader.definition.run cursor = .ok first middle ∧
      ((∀ token ∈ middle.nodes.head?, token = .endOfFile) ∨
        ∃ rest inner, definitions = first :: rest ∧ inner.nodes = middle.nodes ∧
          (Reader.definitions count).run inner = .ok rest left) := by
  have ends := Reader.definitions_end ran
  obtain ⟨first, middle, begun, later⟩ := Reader.run_bind ran
  refine ⟨first, middle, begun, ?_⟩
  obtain ⟨flag, inner, looked, ended⟩ := Reader.run_bind later
  have same : inner.nodes = middle.nodes :=
    congrArg (List.map Located.node) ((Reader.Looks.sees _).run _ _ _ looked)
  cases flag with
  | true =>
      cases ended
      refine .inl fun token first => ?_
      rw [← same, Cursor.nodes, List.head?_map] at first
      obtain ⟨found, there, rfl⟩ := Option.map_eq_some_iff.mp first
      exact ends found there
  | false =>
      obtain ⟨rest, last, read, told⟩ := Reader.run_bind ended
      cases told
      exact .inr ⟨rest, inner, rfl, same, read⟩

/-- What a definition is read from: tokens of its form, in front of those that are left. -/
theorem definition_nodes {cursor left : Cursor} {definition : Definition}
    (ran : Reader.definition.run cursor = .ok definition left) (filled : cursor.nodes ≠ []) :
    ∃ parts, cursor.nodes = leafTokens parts ++ left.nodes ∧ AllPlaced parts ∧
      DefinitionForm definition parts ∧ left.nodes ≠ [] := by
  obtain ⟨parts, taken, placed, made, remains⟩ :=
    Reader.definition_builds.run cursor definition left (fun _ _ => trivial) ran
  refine ⟨parts, ?_, placed, made, fun absent => ?_⟩
  · rw [Cursor.nodes, taken, List.map_append]
    rfl
  · refine remains (fun none_there => filled ?_) (List.map_eq_nil_iff.mp absent)
    rw [Cursor.nodes, none_there, List.map_nil]

/-- How definitions enter: from the beginning, or behind an object type with certain interfaces. -/
inductive EntersFrom (tokens words others : List Token) (front : List Definition) :
    List Token → Prop where
  | start : EntersFrom tokens words others front (tokens ++ [.endOfFile])
  | behind {definition object} (among : definition ∈ front)
      (part : definition.objectPart? = some object)
      (named : ∀ word ∈ words, ∃ name ∈ object.interfaces, word.asName? = some name.node) :
      EntersFrom tokens words others front (others ++ [.endOfFile])

theorem EntersFrom.cons {front : List Definition} {held : List Token}
    (enters : EntersFrom tokens words others front held) (first : Definition) :
    EntersFrom tokens words others (first :: front) held := by
  cases enters with
  | start => exact .start
  | behind among part named => exact .behind (List.mem_cons_of_mem _ among) part named

/-- No definition begins with a name that is no keyword. -/
theorem definitions_need_keyword {count : Nat} {cursor left : Cursor}
    {definitions : List Definition} {text : String} {rest : List Token}
    (held : cursor.nodes = .name text :: rest) :
    (Reader.definitions count).run cursor ≠ .ok definitions left := by
  intro ran
  cases count with
  | zero =>
      obtain ⟨_, _, _, failed⟩ := Reader.run_bind ran
      cases failed
  | succ count =>
      obtain ⟨first, middle, begun, -⟩ := definitions_step ran
      obtain ⟨parts, taken, -, made, -⟩ := definition_nodes begun (by simp [held])
      obtain ⟨token, more, begins, no_name⟩ := definition_opens made
      rw [held, begins] at taken
      exact no_name text (List.cons.inj taken).1.symm

/-- In front of the entrance, and at its beginning, the source has not ended. -/
theorem Entrance.starts (entrance : Entrance tokens words block others) {behind : List Token}
    (visible : .endOfFile ∉ behind) :
    ∃ token ∈ (behind ++ (tokens ++ [Token.endOfFile])).head?, token ≠ .endOfFile := by
  obtain ⟨rest, rfl⟩ := entrance.enters
  cases behind with
  | nil => exact ⟨_, rfl, nofun⟩
  | cons token rest => exact ⟨token, rfl, fun final => visible (by simp [final])⟩

/-- Behind the block of the entrance the source has not ended. -/
theorem Entrance.goes_on_visible (entrance : Entrance tokens words block others) :
    ∃ token ∈ (others ++ [Token.endOfFile]).head?, token ≠ .endOfFile := by
  obtain ⟨token, rest, rfl⟩ := List.exists_cons_of_ne_nil entrance.goes_on
  refine ⟨token, rfl, fun final => entrance.visible ?_⟩
  simp [entrance.whole, final]

/-- A definition that takes some of the entrance, and leaves no name, holds an object type. -/
theorem definition_enters (entrance : Entrance tokens words block others)
    {definition : Definition} {parts : List Phrase} (made : DefinitionForm definition parts)
    (placed : AllPlaced parts) {before after left : List Token}
    (cut : leafTokens parts = before ++ after) (filled : before ≠ []) (taken : after ≠ [])
    (remains : left ≠ []) (no_name : ∀ text rest, left ≠ .name text :: rest)
    (same : after ++ left = tokens ++ [.endOfFile]) :
    ∃ object, definition.objectPart? = some object ∧
      (∀ word ∈ words, ∃ name ∈ object.interfaces, word.asName? = some name.node) ∧
      left = others ++ [.endOfFile] := by
  obtain ⟨rest, last, rfl⟩ := (List.eq_nil_or_concat' left).resolve_left remains
  have inside : after ++ rest = tokens := by
    rw [← List.append_assoc] at same
    exact (List.append_inj' same rfl).1
  have enters : Enters after := by
    obtain ⟨behind, entered⟩ := entrance.enters
    rw [entered] at inside
    cases after with
    | nil => exact absurd rfl taken
    | cons word more =>
        rw [List.cons_append] at inside
        obtain ⟨rfl, next⟩ := List.cons.inj inside
        cases more with
        | nil =>
            change rest = _ at next
            subst next
            exact absurd rfl (no_name "String" (behind ++ [last]))
        | cons name beyond =>
            obtain ⟨rfl, -⟩ := List.cons.inj next
            exact ⟨beyond, rfl⟩
  have upright : (nesting 0 after).isSome = true := by
    have whole := entrance.upright
    rw [← inside, nesting_append] at whole
    cases depth : nesting 0 after with
    | none => simp [depth] at whole
    | some _ => rfl
  obtain ⟨balanced, -⟩ := (definition_balanced made placed).split cut upright
  obtain ⟨object, part, crossing⟩ := definition_crossed made placed cut filled balanced enters
  exact ⟨object, part, crossing.takes entrance same⟩

/-- The definitions at the end of a source are read on their own, but for words and the block. -/
theorem definitions_enter (entrance : Entrance tokens words block others) {count : Nat}
    {cursor left : Cursor} {definitions : List Definition}
    (ran : (Reader.definitions count).run cursor = .ok definitions left)
    (enough : cursor.length ≤ count) {before : List Token} (visible : .endOfFile ∉ before)
    (held : cursor.nodes = before ++ (tokens ++ [.endOfFile])) :
    ∃ front back fewer inner, definitions = front ++ back ∧
      (Reader.definitions fewer).run inner = .ok back left ∧ inner.length ≤ fewer ∧
      EntersFrom tokens words others front inner.nodes := by
  induction count generalizing cursor definitions before with
  | zero =>
      obtain ⟨_, _, _, failed⟩ := Reader.run_bind ran
      cases failed
  | succ count ih =>
      by_cases filled : before = []
      · subst filled
        exact ⟨[], definitions, count + 1, cursor, rfl, ran, enough, held ▸ .start⟩
      obtain ⟨first, middle, begun, later⟩ := definitions_step ran
      obtain ⟨parts, taken, placed, made, remains⟩ := definition_nodes begun (by simp [held])
      have continues (more : ∃ token ∈ middle.nodes.head?, token ≠ .endOfFile) :
          ∃ rest inner, definitions = first :: rest ∧ inner.nodes = middle.nodes ∧
            inner.length ≤ count ∧ (Reader.definitions count).run inner = .ok rest left := by
        obtain ⟨token, there, other⟩ := more
        rcases later with ends | ⟨rest, inner, whole, same, read⟩
        · exact absurd (ends token there) other
        · refine ⟨rest, inner, whole, same, ?_, read⟩
          obtain ⟨word, behind, begins, -⟩ := definition_opens made
          have length := congrArg List.length taken
          rw [cursor.nodes_length, begins, ← same, List.length_append, List.length_cons,
            inner.nodes_length] at length
          omega
      rw [taken] at held
      by_cases passed : ∃ behind, before = leafTokens parts ++ behind
      · -- The definition is in front of the entrance.
        obtain ⟨behind, rfl⟩ := passed
        rw [List.append_assoc] at held
        have same := List.append_cancel_left held
        have unended : .endOfFile ∉ behind := fun there => visible (List.mem_append_right _ there)
        obtain ⟨rest, inner, rfl, kept, fits, read⟩ :=
          continues (same ▸ entrance.starts unended)
        obtain ⟨front, back, fewer, last, rfl, ended, enough, enters⟩ :=
          ih read fits unended (kept.trans same)
        exact ⟨first :: front, back, fewer, last, rfl, ended, enough, enters.cons first⟩
      · -- It takes a part of the entrance, and what is left begins with no name.
        rcases List.append_eq_append_iff.mp held with ⟨behind, whole, -⟩ | ⟨after, cut, same⟩
        · exact absurd ⟨behind, whole⟩ passed
        have taken : after ≠ [] := fun none_there => passed ⟨[], by simp [cut, none_there]⟩
        have no_name : ∀ text rest, middle.nodes ≠ .name text :: rest := by
          intro text rest held
          obtain ⟨_, inner, -, kept, -, read⟩ := continues (by
            rw [held]
            exact ⟨_, rfl, nofun⟩)
          exact definitions_need_keyword (kept.trans held) read
        obtain ⟨object, part, named, left_over⟩ := definition_enters entrance made placed cut filled
          taken remains no_name same.symm
        obtain ⟨rest, inner, rfl, kept, fits, read⟩ :=
          continues (left_over ▸ entrance.goes_on_visible)
        exact ⟨[first], rest, count, inner, rfl, read, fits,
          kept ▸ left_over ▸ .behind List.mem_cons_self part named⟩

end Reading

end GraphQL
