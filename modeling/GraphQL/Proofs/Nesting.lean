import GraphQL.Proofs.PhraseGrammar
import Mathlib.Data.Nat.PSub

/-!
Brackets in the tokens of a document.

Whatever has a form in the grammar has as many brackets that open as brackets that close, and none
closes in front of the one that opens. So where a text is cut in two, and no bracket of the second
part closes one of the first, the brackets of both parts belong together.
-/

namespace GraphQL

namespace Token

def opens : Token → Bool
  | .punctuator .parenOpen | .punctuator .bracketOpen | .punctuator .braceOpen => true
  | _ => false

def closes : Token → Bool
  | .punctuator .parenClose | .punctuator .bracketClose | .punctuator .braceClose => true
  | _ => false

/-- Tokens that are no brackets. -/
def flat (token : Token) : Bool := !token.opens && !token.closes

theorem named_flat {token : Token} {name : String} (named : token.asName? = some name) :
    token.flat = true := by
  cases token <;> first | rfl | cases named

end Token

/-- How deep a place is behind a token; nowhere if it closes a bracket that is not open. -/
def Token.behind (token : Token) (depth : Nat) : Option Nat :=
  if token.opens then some (depth + 1)
  else if token.closes then depth.ppred
  else some depth

/-- How deep a place is behind some tokens. -/
def nesting : Nat → List Token → Option Nat
  | depth, [] => some depth
  | depth, token :: rest => (token.behind depth).bind (nesting · rest)

/-- Each bracket that opens is closed behind it, and none closes without. -/
inductive Balanced : List Token → Prop where
  | nil : Balanced []
  | flat {token rest} (plain : token.flat = true) (others : Balanced rest) :
      Balanced (token :: rest)
  | enclosed {opening closing inside rest} (opens : opening.opens = true)
      (closes : closing.closes = true) (within : Balanced inside) (others : Balanced rest) :
      Balanced (opening :: (inside ++ closing :: rest))

section Lists

variable {first second : List Token}

theorem nesting_flat {token : Token} (plain : token.flat = true) (depth : Nat)
    (rest : List Token) : nesting depth (token :: rest) = nesting depth rest := by
  obtain ⟨opens, closes⟩ := Bool.and_eq_true_iff.mp plain
  rw [nesting, Token.behind, if_neg (by simpa using opens), if_neg (by simpa using closes),
    Option.bind_some]

theorem nesting_opens {token : Token} (opens : token.opens = true) (depth : Nat)
    (rest : List Token) : nesting depth (token :: rest) = nesting (depth + 1) rest := by
  rw [nesting, Token.behind, if_pos opens, Option.bind_some]

theorem Token.closes_no_opens {token : Token} (closes : token.closes = true) :
    token.opens = false := by
  cases token with
  | punctuator mark => cases mark <;> first | rfl | cases closes
  | _ => rfl

theorem nesting_closes {token : Token} (closes : token.closes = true) (rest : List Token) :
    nesting 0 (token :: rest) = none := by
  rw [nesting, Token.behind, if_neg (by simp [Token.closes_no_opens closes]), if_pos closes,
    Nat.ppred_zero, Option.bind_none]

theorem nesting_closes_one {token : Token} (closes : token.closes = true) (depth : Nat)
    (rest : List Token) : nesting (depth + 1) (token :: rest) = nesting depth rest := by
  rw [nesting, Token.behind, if_neg (by simp [Token.closes_no_opens closes]), if_pos closes,
    Nat.ppred_succ, Option.bind_some]

theorem nesting_append (depth : Nat) (first second : List Token) :
    nesting depth (first ++ second) = (nesting depth first).bind (nesting · second) := by
  induction first generalizing depth with
  | nil => rfl
  | cons token rest ih =>
      rw [List.cons_append, nesting, nesting, Option.bind_assoc]
      exact congrArg _ (funext ih)

namespace Balanced

/-- Behind tokens whose brackets belong together a place is as deep as before. -/
theorem keeps_depth (balanced : Balanced first) (depth : Nat) :
    nesting depth first = some depth := by
  induction balanced generalizing depth with
  | nil => rfl
  | flat plain _ ih => rw [nesting_flat plain, ih]
  | enclosed opens closes _ _ inside rest =>
      rw [nesting_opens opens, nesting_append, inside, Option.bind_some,
        nesting_closes_one closes, rest]

theorem append (balanced : Balanced first) (more : Balanced second) :
    Balanced (first ++ second) := by
  induction balanced with
  | nil => exact more
  | flat plain _ ih => exact .flat plain ih
  | enclosed opens closes within _ _ ih =>
      rw [List.cons_append, List.append_assoc, List.cons_append]
      exact .enclosed opens closes within ih

theorem behind_flat {token : Token} (plain : token.flat = true)
    (balanced : Balanced (token :: first)) : Balanced first := by
  cases balanced with
  | flat _ others => exact others
  | enclosed opens => simp [Token.flat, opens] at plain

/-- The bracket that closes another one is the only one at its depth. -/
theorem same_inside {closing other : Token} {rest more : List Token}
    (balanced : Balanced first) (also : Balanced second) (closes : closing.closes = true)
    (other_closes : other.closes = true)
    (same : first ++ closing :: rest = second ++ other :: more) :
    first = second ∧ closing :: rest = other :: more := by
  have no_further {inside between : List Token} {mark : Token} (whole : Balanced inside)
      (part : Balanced between) (ends : mark.closes = true) (beyond : List Token) :
      inside ≠ between ++ mark :: beyond := by
    rintro rfl
    have depth := whole.keeps_depth 0
    rw [nesting_append, part.keeps_depth, Option.bind_some, nesting_closes ends] at depth
    cases depth
  rcases List.append_eq_append_iff.mp same with ⟨between, longer, left⟩ | ⟨between, longer, left⟩
  · cases between with
    | nil =>
        rw [List.append_nil] at longer
        exact ⟨longer.symm, left⟩
    | cons mark beyond =>
        obtain ⟨rfl, -⟩ := List.cons.inj left
        exact absurd longer (no_further also balanced closes beyond)
  · cases between with
    | nil =>
        rw [List.append_nil] at longer
        exact ⟨longer, left.symm⟩
    | cons mark beyond =>
        obtain ⟨rfl, -⟩ := List.cons.inj left
        exact absurd longer (no_further balanced also other_closes beyond)

/-- Where a second part closes no bracket of the first one, both are balanced. -/
theorem split {whole : List Token} (balanced : Balanced whole) (same : whole = first ++ second)
    (upright : (nesting 0 second).isSome = true) : Balanced first ∧ Balanced second := by
  induction balanced generalizing first second with
  | nil =>
      obtain ⟨rfl, rfl⟩ := List.append_eq_nil_iff.mp same.symm
      exact ⟨.nil, .nil⟩
  | @flat token rest plain others ih =>
      cases first with
      | nil =>
          subst same
          exact ⟨.nil, .flat plain others⟩
      | cons head tail =>
          obtain ⟨rfl, rest⟩ := List.cons.inj same
          obtain ⟨before, after⟩ := ih rest upright
          exact ⟨.flat plain before, after⟩
  | @enclosed opening closing inside rest opens closes within others inside_ih rest_ih =>
      cases first with
      | nil =>
          subst same
          exact ⟨.nil, .enclosed opens closes within others⟩
      | cons head tail =>
          obtain ⟨rfl, split⟩ := List.cons.inj same
          rcases List.append_eq_append_iff.mp split with ⟨between, rfl, left⟩ | ⟨between, rfl, rfl⟩
          · cases between with
            | nil =>
                subst left
                simp [nesting_closes closes] at upright
            | cons mark beyond =>
                obtain ⟨rfl, rfl⟩ := List.cons.inj left
                obtain ⟨before, after⟩ := rest_ih rfl upright
                exact ⟨.enclosed opens closes within before, after⟩
          · -- The second part would begin within the brackets, and close the one that opened.
            have part : (nesting 0 between).isSome = true := by
              rw [nesting_append] at upright
              cases depth : nesting 0 between with
              | none => simp [depth] at upright
              | some _ => rfl
            obtain ⟨-, after⟩ := inside_ih rfl part
            rw [nesting_append, after.keeps_depth, Option.bind_some, nesting_closes closes]
              at upright
            cases upright

end Balanced

end Lists

/-- Inside of a bracket the tokens go on up to the one that closes it. -/
theorem closed_within {limit depth : Nat} {tokens : List Token} (fewer : tokens.length ≤ limit)
    (ends : nesting (depth + 1) tokens = some 0) :
    ∃ inside closing rest, tokens = inside ++ closing :: rest ∧ closing.closes = true ∧
      Balanced inside ∧ nesting depth rest = some 0 := by
  induction limit generalizing depth tokens with
  | zero =>
      rw [List.length_eq_zero_iff.mp (Nat.le_zero.mp fewer)] at ends
      cases ends
  | succ limit ih =>
      cases tokens with
      | nil => cases ends
      | cons token rest =>
          have shorter : rest.length ≤ limit := Nat.le_of_succ_le_succ fewer
          by_cases opens : token.opens = true
          · rw [nesting_opens opens] at ends
            obtain ⟨inner, closing, beyond, rfl, closes, within, behind⟩ := ih shorter ends
            simp only [List.length_append, List.length_cons] at shorter
            obtain ⟨more, last, others, rfl, ended, balanced, left⟩ := ih (by omega) behind
            exact ⟨token :: (inner ++ closing :: more), last, others, by simp, ended,
              .enclosed opens closes within balanced, left⟩
          · by_cases closes : token.closes = true
            · rw [nesting_closes_one closes] at ends
              exact ⟨[], token, rest, rfl, closes, .nil, ends⟩
            · have plain : token.flat = true := by simp [Token.flat, opens, closes]
              rw [nesting_flat plain] at ends
              obtain ⟨inner, closing, beyond, rfl, closed, within, behind⟩ := ih shorter ends
              exact ⟨token :: inner, closing, beyond, rfl, closed, .flat plain within, behind⟩

/-- Whether brackets belong together is seen from the depth behind them. -/
theorem balanced_iff {tokens : List Token} : Balanced tokens ↔ nesting 0 tokens = some 0 := by
  refine ⟨fun balanced => balanced.keeps_depth 0, fun ends => ?_⟩
  induction fewer : tokens.length using Nat.strong_induction_on generalizing tokens with
  | _ length ih =>
      subst fewer
      cases tokens with
      | nil => exact .nil
      | cons token rest =>
          by_cases opens : token.opens = true
          · rw [nesting_opens opens] at ends
            obtain ⟨inner, closing, beyond, rfl, closes, within, behind⟩ :=
              closed_within le_rfl ends
            exact .enclosed opens closes within (ih beyond.length (by simp; omega) behind rfl)
          · by_cases closes : token.closes = true
            · rw [nesting_closes closes] at ends
              cases ends
            · have plain : token.flat = true := by simp [Token.flat, opens, closes]
              rw [nesting_flat plain] at ends
              exact .flat plain (ih rest.length (Nat.lt_succ_self _) ends rfl)

instance (tokens : List Token) : Decidable (Balanced tokens) :=
  decidable_of_iff _ balanced_iff.symm

/-- A bracket, what it encloses, and the bracket that closes it. -/
inductive Block : List Token → Prop where
  | enclosed {opening closing inside} (opens : opening.opens = true)
      (closes : closing.closes = true) (within : Balanced inside) :
      Block (opening :: (inside ++ [closing]))

theorem Block.balanced {tokens : List Token} (block : Block tokens) : Balanced tokens := by
  cases block with
  | enclosed opens closes within => exact .enclosed opens closes within .nil

/-- Of two blocks at the beginning of the same tokens neither goes on behind the other. -/
theorem Block.same {block other rest more : List Token} (one : Block block) (also : Block other)
    (same : block ++ rest = other ++ more) : block = other ∧ rest = more := by
  cases one with
  | enclosed opens closes within =>
      cases also with
      | enclosed _ other_closes inside =>
          simp only [List.cons_append, List.append_assoc, List.nil_append, List.cons.injEq] at same
          obtain ⟨rfl, behind⟩ := same
          obtain ⟨rfl, ended⟩ := within.same_inside inside closes other_closes behind
          obtain ⟨rfl, rest⟩ := List.cons.inj ended
          exact ⟨rfl, rest⟩

/-- The tokens that phrases are made of. -/
def leafTokens (parts : List Phrase) : List Token := (Phrase.partLeaves parts).map (·.node)

section Leaves

variable {parts more : List Phrase}

@[simp] theorem leaf_tokens_nil : leafTokens [] = [] := rfl

@[simp] theorem leaf_tokens_append :
    leafTokens (parts ++ more) = leafTokens parts ++ leafTokens more := by
  simp [leafTokens]

@[simp] theorem leaf_tokens_leaf (token : Located Token) :
    leafTokens (.leaf token :: parts) = token.node :: leafTokens parts := by
  simp [leafTokens, Phrase.partLeaves, Phrase.leaves]

@[simp] theorem leaf_tokens_named (name : Located String) (token : Located Token) :
    leafTokens (.named name token :: parts) = token.node :: leafTokens parts := by
  simp [leafTokens, Phrase.partLeaves, Phrase.leaves]

@[simp] theorem leaf_tokens_dollar (name : Located String) (dollar word : Located Token) :
    leafTokens (.dollarNamed name dollar word :: parts) =
      dollar.node :: word.node :: leafTokens parts := by
  simp [leafTokens, Phrase.partLeaves, Phrase.leaves]

@[simp] theorem leaf_tokens_node (span : Span) :
    leafTokens (.node span parts :: more) = leafTokens parts ++ leafTokens more := by
  simp [leafTokens, Phrase.partLeaves, Phrase.leaves]

theorem Phrase.Placed.word {name : Located String} {token : Located Token}
    (placed : (Phrase.named name token).Placed) : token.node.asName? = some name.node := by
  cases placed with
  | named same => exact same

end Leaves

/-- The tokens of what has a form are balanced, as long as they are no more than so many. -/
def Nests {α : Type} (limit : Nat) (form : Form α) : Prop :=
  ∀ value parts, form value parts → AllPlaced parts → (leafTokens parts).length ≤ limit →
    Balanced (leafTokens parts)

theorem Balanced.marked {found mark : Token} {rest : List Token} (same : found = mark)
    (plain : mark.flat = true) (balanced : Balanced rest) : Balanced (found :: rest) :=
  .flat (same ▸ plain) balanced

theorem Balanced.named {name : Located String} {token : Located Token} {rest : List Token}
    (placed : (Phrase.named name token).Placed) (balanced : Balanced rest) :
    Balanced (token.node :: rest) :=
  .flat (Token.named_flat placed.word) balanced

section Forms

variable {α : Type} {limit : Nat} {form : Form α}

theorem Nests.zero : Nests 0 form := by
  intro value parts _ _ fewer
  rw [List.length_eq_zero_iff.mp (Nat.le_zero.mp fewer)]
  exact .nil

theorem Nests.node (nests : Nests limit form) : Nests limit (Node form) := by
  rintro value parts ⟨inside⟩ placed fewer
  simp only [leaf_tokens_node, leaf_tokens_nil, List.append_nil] at fewer ⊢
  exact nests _ _ inside (placed _ List.mem_cons_self).inner fewer

theorem Nests.maybe (nests : Nests limit form) : Nests limit (Maybe form) := by
  intro value parts made placed fewer
  cases made with
  | absent => exact .nil
  | present there => exact nests _ _ there placed fewer

theorem Nests.each (nests : Nests limit form) : Nests limit (Each form) := by
  intro values parts made placed fewer
  induction made with
  | nil => exact .nil
  | cons first others ih =>
      obtain ⟨own, rest⟩ := List.forall_mem_append.mp placed
      rw [leaf_tokens_append, List.length_append] at fewer
      rw [leaf_tokens_append]
      exact (nests _ _ first own (by omega)).append (ih rest (by omega))

/-- What is enclosed has fewer tokens than the brackets around it and itself. -/
theorem Nests.block {opening closing : Punctuator}
    (opens : (Token.punctuator opening).opens = true)
    (closes : (Token.punctuator closing).closes = true) (nests : Nests limit form) {value : α}
    {parts : List Phrase} (made : Enclosed opening closing form value parts)
    (placed : AllPlaced parts) (fewer : (leafTokens parts).length ≤ limit + 1) :
    Block (leafTokens parts) := by
  obtain ⟨first, last, there⟩ := made
  obtain ⟨-, within⟩ := List.forall_mem_cons.mp placed
  obtain ⟨inside, -⟩ := List.forall_mem_append.mp within
  simp only [leaf_tokens_leaf, leaf_tokens_append, leaf_tokens_nil, List.length_cons,
    List.length_append] at fewer ⊢
  exact .enclosed (first ▸ opens) (last ▸ closes) (nests _ _ there inside (by omega))

theorem Nests.enclosed {opening closing : Punctuator}
    (opens : (Token.punctuator opening).opens = true)
    (closes : (Token.punctuator closing).closes = true) (nests : Nests limit form) :
    Nests (limit + 1) (Enclosed opening closing form) :=
  fun _ _ made placed fewer => (nests.block opens closes made placed fewer).balanced

theorem Nests.fewer {most : Nat} (nests : Nests most form) (fits : limit ≤ most) :
    Nests limit form :=
  fun value parts made placed fewer => nests value parts made placed (fewer.trans fits)

/-- A form of which something is said of any number of tokens. -/
abbrev AlwaysNests (form : Form α) : Prop := ∀ limit, Nests limit form

theorem AlwaysNests.block {opening closing : Punctuator}
    (opens : (Token.punctuator opening).opens = true)
    (closes : (Token.punctuator closing).closes = true) (nests : AlwaysNests form) {value : α}
    {parts : List Phrase} (made : Enclosed opening closing form value parts)
    (placed : AllPlaced parts) : Block (leafTokens parts) :=
  (nests (leafTokens parts).length).block opens closes made placed (Nat.le_succ _)

theorem always_enclosed {opening closing : Punctuator}
    (opens : (Token.punctuator opening).opens = true)
    (closes : (Token.punctuator closing).closes = true) (nests : AlwaysNests form) :
    AlwaysNests (Enclosed opening closing form) :=
  fun limit => (Nests.enclosed opens closes (nests limit)).fewer (Nat.le_succ limit)

theorem named_nests : AlwaysNests Named := by
  rintro limit _ _ ⟨⟩ placed -
  simp only [leaf_tokens_named, leaf_tokens_nil]
  exact .named (placed _ List.mem_cons_self) .nil

end Forms

section Requests

theorem literal_field_nests {limit : Nat} {form : Form Literal} (nests : Nests limit form) :
    Nests limit (LiteralFieldForm form) := by
  rintro _ _ ⟨mark, content⟩ placed fewer
  obtain ⟨name, within⟩ := List.forall_mem_cons.mp placed
  obtain ⟨-, rest⟩ := List.forall_mem_cons.mp within
  simp only [leaf_tokens_named, leaf_tokens_leaf, List.length_cons] at fewer ⊢
  exact .named name (.marked mark rfl (nests.node _ _ content rest (by omega)))

theorem Token.Means.flat {token : Token} {literal : Literal} (means : token.Means literal) :
    token.flat = true := by
  cases means <;> rfl

theorem literal_nests : AlwaysNests LiteralForm := by
  intro limit
  induction limit with
  | zero => exact .zero
  | succ limit ih =>
      intro literal parts made placed fewer
      cases made with
      | scalar means =>
          simp only [leaf_tokens_leaf, leaf_tokens_nil]
          exact .flat means.flat .nil
      | «variable» mark =>
          obtain ⟨-, within⟩ := List.forall_mem_cons.mp placed
          simp only [leaf_tokens_leaf, leaf_tokens_named, leaf_tokens_nil]
          exact .marked mark rfl (.named (within _ List.mem_cons_self) .nil)
      | list each => exact ih.node.each.enclosed rfl rfl _ _ each placed fewer
      | object each => exact (literal_field_nests ih).each.enclosed rfl rfl _ _ each placed fewer

theorem type_nests : AlwaysNests TypeForm := by
  intro limit
  induction limit with
  | zero => exact .zero
  | succ limit ih =>
      intro type parts made placed fewer
      cases made with
      | named =>
          simp only [leaf_tokens_named, leaf_tokens_nil]
          exact .named (placed _ List.mem_cons_self) .nil
      | list inside => exact Nests.enclosed rfl rfl ih _ _ inside placed fewer
      | nonNull marked inside =>
          obtain ⟨own, -⟩ := List.forall_mem_append.mp placed
          simp only [leaf_tokens_append, leaf_tokens_leaf, leaf_tokens_nil,
            List.length_append, List.length_cons, List.length_nil] at fewer ⊢
          exact (ih _ _ inside own (by omega)).append (.marked marked rfl .nil)

theorem argument_nests : AlwaysNests ArgumentForm := by
  rintro limit _ _ ⟨mark, content⟩ placed fewer
  obtain ⟨name, within⟩ := List.forall_mem_cons.mp placed
  obtain ⟨-, rest⟩ := List.forall_mem_cons.mp within
  simp only [leaf_tokens_named, leaf_tokens_leaf, List.length_cons] at fewer ⊢
  exact .named name (.marked mark rfl ((literal_nests limit).node _ _ content rest (by omega)))

theorem arguments_nest : AlwaysNests ArgumentsForm := fun limit =>
  (always_enclosed rfl rfl (fun limit => (argument_nests limit).each) limit).node.maybe

theorem directive_nests : AlwaysNests DirectiveForm := by
  rintro limit _ _ ⟨marked, arguments⟩ placed fewer
  obtain ⟨-, within⟩ := List.forall_mem_cons.mp placed
  obtain ⟨name, rest⟩ := List.forall_mem_cons.mp within
  simp only [leaf_tokens_named, leaf_tokens_leaf, List.length_cons] at fewer ⊢
  exact .marked marked rfl (.named name (arguments_nest limit _ _ arguments rest (by omega)))

theorem directives_nest : AlwaysNests DirectivesForm :=
  fun limit _ _ made placed fewer => (directive_nests limit).node.each _ _ made placed fewer

theorem alias_nests : AlwaysNests AliasForm := by
  intro limit name parts made placed fewer
  cases made with
  | absent => exact .nil
  | present mark =>
      simp only [leaf_tokens_named, leaf_tokens_leaf, leaf_tokens_nil]
      exact .named (placed _ List.mem_cons_self) (.marked mark rfl .nil)

theorem condition_nests : AlwaysNests ConditionForm := by
  intro limit name parts made placed fewer
  cases made with
  | absent => exact .nil
  | present word =>
      obtain ⟨-, within⟩ := List.forall_mem_cons.mp placed
      simp only [leaf_tokens_named, leaf_tokens_leaf, leaf_tokens_nil]
      exact .marked word rfl (.named (within _ List.mem_cons_self) .nil)

theorem selection_nests : AlwaysNests SelectionForm := by
  intro limit
  induction limit with
  | zero => exact .zero
  | succ limit ih =>
      have sets : Nests (limit + 1) SelectionSetForm := Nests.enclosed rfl rfl ih.each
      intro selection parts made placed fewer
      cases made with
      | field before arguments directives set =>
          have within := (placed _ List.mem_cons_self).inner
          simp only [List.forall_mem_append, List.forall_mem_cons] at within
          obtain ⟨alias_placed, name, list, marks, inner⟩ := within
          simp only [leaf_tokens_node, leaf_tokens_append, leaf_tokens_named, leaf_tokens_nil,
            List.append_nil, List.length_append, List.length_cons] at fewer ⊢
          refine (alias_nests _ _ _ before alias_placed le_rfl).append (.named name ?_)
          refine (arguments_nest _ _ _ arguments list le_rfl).append ?_
          refine (directives_nest _ _ _ directives marks le_rfl).append ?_
          exact sets.maybe _ _ set inner (by omega)
      | spread mark directives =>
          have within := (placed _ List.mem_cons_self).inner
          simp only [List.forall_mem_cons] at within
          obtain ⟨-, name, marks⟩ := within
          simp only [leaf_tokens_node, leaf_tokens_leaf, leaf_tokens_named, leaf_tokens_nil,
            List.append_nil]
          exact .marked mark rfl (.named name (directives_nest _ _ _ directives marks le_rfl))
      | inline mark on directives set =>
          have within := (placed _ List.mem_cons_self).inner
          simp only [List.forall_mem_append, List.forall_mem_cons] at within
          obtain ⟨-, condition, marks, inner⟩ := within
          simp only [leaf_tokens_node, leaf_tokens_append, leaf_tokens_leaf, leaf_tokens_nil,
            List.append_nil, List.length_append, List.length_cons] at fewer ⊢
          refine .marked mark rfl ?_
          refine (condition_nests _ _ _ on condition le_rfl).append ?_
          refine (directives_nest _ _ _ directives marks le_rfl).append ?_
          exact sets _ _ set inner (by omega)

theorem selection_set_nests : AlwaysNests SelectionSetForm :=
  always_enclosed rfl rfl fun limit => (selection_nests limit).each

theorem default_nests : AlwaysNests DefaultForm := by
  intro limit value parts made placed fewer
  cases made with
  | absent => exact .nil
  | present mark content =>
      obtain ⟨-, within⟩ := List.forall_mem_cons.mp placed
      simp only [leaf_tokens_leaf]
      exact .marked mark rfl ((literal_nests _).node _ _ content within le_rfl)

theorem variable_definition_nests : AlwaysNests VariableDefinitionForm := by
  rintro limit _ _ ⟨mark, typed, defaulted⟩ placed fewer
  simp only [List.forall_mem_append, List.forall_mem_cons] at placed
  obtain ⟨variable_placed, -, type, value⟩ := placed
  simp only [leaf_tokens_dollar, leaf_tokens_leaf, leaf_tokens_append]
  cases variable_placed with
  | dollarNamed dollar word =>
      refine .marked dollar rfl (.flat (Token.named_flat word) (.marked mark rfl ?_))
      exact ((type_nests _).node _ _ typed type le_rfl).append
        (default_nests _ _ _ defaulted value le_rfl)

end Requests

section Definitions

theorem input_definition_nests : AlwaysNests InputDefinitionForm := by
  rintro limit _ _ ⟨mark, typed, defaulted, directives⟩ placed fewer
  simp only [List.forall_mem_append, List.forall_mem_cons] at placed
  obtain ⟨name, -, type, value, marks⟩ := placed
  simp only [leaf_tokens_named, leaf_tokens_leaf, leaf_tokens_append]
  refine .named name (.marked mark rfl (((type_nests _).node _ _ typed type le_rfl).append ?_))
  exact (default_nests _ _ _ defaulted value le_rfl).append
    (directives_nest _ _ _ directives marks le_rfl)

theorem inputs_nest : AlwaysNests InputsForm := by
  intro limit inputs parts made placed fewer
  cases made with
  | none => exact .nil
  | some each =>
      exact always_enclosed rfl rfl (fun limit => (input_definition_nests limit).node.each) limit
        _ _ each placed fewer

theorem field_definition_nests : AlwaysNests FieldDefinitionForm := by
  rintro limit _ _ ⟨arguments, mark, typed, directives⟩ placed fewer
  simp only [List.forall_mem_append, List.forall_mem_cons] at placed
  obtain ⟨name, inputs, -, type, marks⟩ := placed
  simp only [leaf_tokens_named, leaf_tokens_leaf, leaf_tokens_append]
  refine .named name ((inputs_nest _ _ _ arguments inputs le_rfl).append (.marked mark rfl ?_))
  exact ((type_nests _).node _ _ typed type le_rfl).append
    (directives_nest _ _ _ directives marks le_rfl)

theorem enum_value_nests : AlwaysNests EnumValueForm := by
  rintro limit _ _ ⟨directives⟩ placed fewer
  obtain ⟨name, marks⟩ := List.forall_mem_cons.mp placed
  simp only [leaf_tokens_named]
  exact .named name (directives_nest _ _ _ directives marks le_rfl)

theorem variable_definitions_nest :
    AlwaysNests (Enclosed .parenOpen .parenClose (Each VariableDefinitionForm)) :=
  always_enclosed rfl rfl fun limit => (variable_definition_nests limit).each

theorem fields_nest : AlwaysNests FieldsForm :=
  always_enclosed rfl rfl fun limit => (field_definition_nests limit).node.each

theorem enum_values_nest :
    AlwaysNests (Enclosed .braceOpen .braceClose (Each (Node EnumValueForm))) :=
  always_enclosed rfl rfl fun limit => (enum_value_nests limit).node.each

theorem input_fields_nest :
    AlwaysNests (Enclosed .braceOpen .braceClose (Each (Node InputDefinitionForm))) :=
  always_enclosed rfl rfl fun limit => (input_definition_nests limit).node.each

theorem operation_nests : AlwaysNests OperationForm := by
  intro limit operation parts made placed fewer
  cases made with
  | bare set => exact selection_set_nests _ _ _ set placed fewer
  | keyword word named inputs directives set =>
      simp only [List.forall_mem_append, List.forall_mem_cons] at placed
      obtain ⟨-, name, definitions, marks, selections⟩ := placed
      simp only [leaf_tokens_leaf, leaf_tokens_append]
      refine .marked word rfl (((named_nests _).maybe _ _ named name le_rfl).append ?_)
      refine ((variable_definitions_nest _).node.maybe _ _ inputs definitions le_rfl).append ?_
      exact (directives_nest _ _ _ directives marks le_rfl).append
        (selection_set_nests _ _ _ set selections le_rfl)

theorem fragment_nests : AlwaysNests FragmentForm := by
  rintro limit _ _ ⟨word, on_word, directives, set⟩ placed fewer
  simp only [List.forall_mem_append, List.forall_mem_cons] at placed
  obtain ⟨-, name, -, condition, marks, selections⟩ := placed
  simp only [leaf_tokens_leaf, leaf_tokens_named, leaf_tokens_append]
  refine .marked word rfl (.named name (.marked on_word rfl (.named condition ?_)))
  exact (directives_nest _ _ _ directives marks le_rfl).append
    (selection_set_nests _ _ _ set selections le_rfl)

theorem interfaces_nest : AlwaysNests InterfacesForm := by
  intro limit names parts made placed fewer
  cases made with
  | none => exact .nil
  | some word each =>
      obtain ⟨-, within⟩ := List.forall_mem_cons.mp placed
      simp only [leaf_tokens_leaf]
      exact .marked word rfl ((named_nests _).each _ _ each within le_rfl)

theorem object_nests : AlwaysNests ObjectForm := by
  rintro limit _ _ ⟨word, implemented, body⟩ placed fewer
  simp only [List.forall_mem_append, List.forall_mem_cons] at placed
  obtain ⟨-, name, interfaces, fields⟩ := placed
  simp only [leaf_tokens_leaf, leaf_tokens_named, leaf_tokens_append]
  exact .marked word rfl (.named name ((interfaces_nest _ _ _ implemented interfaces le_rfl).append
    (fields_nest _ _ _ body fields le_rfl)))

theorem member_nests : AlwaysNests MemberForm := by
  rintro limit _ _ ⟨mark⟩ placed fewer
  obtain ⟨-, within⟩ := List.forall_mem_cons.mp placed
  simp only [leaf_tokens_leaf, leaf_tokens_named, leaf_tokens_nil]
  exact .marked mark rfl (.named (within _ List.mem_cons_self) .nil)

theorem leading_bar_balanced {parts : List Phrase} (bar : LeadingBar parts) :
    Balanced (leafTokens parts) := by
  cases bar with
  | none => exact .nil
  | some mark => exact .marked mark rfl .nil

/-- A definition that is a keyword, a name and something that is balanced. -/
theorem named_definition_balanced {keyword token : Located Token} {word : Keyword}
    {name : Located String} {parts : List Phrase} (same : keyword.node = .keyword word)
    (placed : (Phrase.named name token).Placed) (body : Balanced (leafTokens parts)) :
    Balanced (leafTokens (.leaf keyword :: .named name token :: parts)) := by
  simp only [leaf_tokens_leaf, leaf_tokens_named]
  exact .marked same rfl (.named placed body)

theorem type_definition_nests : AlwaysNests TypeDefinitionForm := by
  intro limit type parts made placed fewer
  cases made with
  | object inside => exact object_nests _ _ _ inside placed fewer
  | interface word body =>
      simp only [List.forall_mem_cons] at placed
      exact named_definition_balanced word placed.2.1 (fields_nest _ _ _ body placed.2.2 le_rfl)
  | union word mark bar others =>
      simp only [List.forall_mem_append, List.forall_mem_cons] at placed
      obtain ⟨-, name, -, -, first, members⟩ := placed
      simp only [leaf_tokens_leaf, leaf_tokens_named, leaf_tokens_append]
      refine .marked word rfl (.named name (.marked mark rfl ?_))
      exact (leading_bar_balanced bar).append
        (.named first ((member_nests _).each _ _ others members le_rfl))
  | scalar word =>
      simp only [List.forall_mem_cons] at placed
      exact named_definition_balanced word placed.2.1 .nil
  | enum word body =>
      simp only [List.forall_mem_cons] at placed
      exact named_definition_balanced word placed.2.1
        (enum_values_nest _ _ _ body placed.2.2 le_rfl)
  | inputObject word body =>
      simp only [List.forall_mem_cons] at placed
      exact named_definition_balanced word placed.2.1
        (input_fields_nest _ _ _ body placed.2.2 le_rfl)

theorem extension_nests : AlwaysNests ExtensionForm := by
  rintro limit _ _ ⟨word, inside⟩ placed fewer
  obtain ⟨-, within⟩ := List.forall_mem_cons.mp placed
  simp only [leaf_tokens_leaf]
  exact .marked word rfl (object_nests _ _ _ inside within le_rfl)

/-- The brackets in a definition belong together. -/
theorem definition_balanced {definition : Definition} {parts : List Phrase}
    (made : DefinitionForm definition parts) (placed : AllPlaced parts) :
    Balanced (leafTokens parts) := by
  cases made with
  | operation inside => exact (operation_nests _).node _ _ inside placed le_rfl
  | fragment inside => exact (fragment_nests _).node _ _ inside placed le_rfl
  | type inside => exact (type_definition_nests _).node _ _ inside placed le_rfl
  | extension inside => exact (extension_nests _).node _ _ inside placed le_rfl

end Definitions

end GraphQL
