import GraphQL.Proofs.TokenPlaces

/-!
Trees over the tokens of a source.

What is read from tokens has a phrase, a tree with these tokens as leaves. Something located is a
node of it; a name is a leaf of one token, or of two where a dollar sign belongs to it. In a phrase
that is placed, a node begins with its first part and ends with its last one, so in the end with its
first and last tokens. As tokens follow one another in the source, so do the parts of a node.
-/

namespace GraphQL

inductive Phrase where
  | leaf (token : Located Token)
  | named (name : Located String) (token : Located Token)
  | dollarNamed (name : Located String) (dollar word : Located Token)
  | node (span : Span) (parts : List Phrase)

namespace Phrase

def span : Phrase → Span
  | .leaf token => token.span
  | .named name _ => name.span
  | .dollarNamed name _ _ => name.span
  | .node span _ => span

def parts : Phrase → List Phrase
  | .node _ parts => parts
  | .leaf _ | .named _ _ | .dollarNamed _ _ _ => []

mutual

def leaves : Phrase → List (Located Token)
  | .leaf token => [token]
  | .named _ token => [token]
  | .dollarNamed _ dollar word => [dollar, word]
  | .node _ parts => partLeaves parts

def partLeaves : List Phrase → List (Located Token)
  | [] => []
  | part :: rest => part.leaves ++ partLeaves rest

end

/-- A phrase is part of another one, a part of a part of it or the other one itself. -/
inductive Inside : Phrase → Phrase → Prop where
  | whole {phrase} : Inside phrase phrase
  | part {phrase part span parts} (member : part ∈ parts) (inside : Inside phrase part) :
      Inside phrase (.node span parts)

end Phrase

/-- Where the last of some parts ends, or another place if there are none. -/
def partsStop (otherwise : Position) (parts : List Phrase) : Position :=
  parts.foldl (fun _ part => part.span.stop) otherwise

/-- A span begins with the first of some parts and ends with the last one. -/
def Hull (span : Span) : List Phrase → Prop
  | [] => False
  | first :: more => span = ⟨first.span.start, partsStop first.span.stop more⟩

/-- Names are where their tokens are, and nodes where their parts are. -/
inductive Phrase.Placed : Phrase → Prop where
  | leaf {token} : Placed (.leaf token)
  | named {name token} (same : token.node.asName? = some name.node)
      (there : name.span = token.span) : Placed (.named name token)
  | dollarNamed {name dollar word} (mark : dollar.node = .punctuator .dollar)
      (same : word.node.asName? = some name.node)
      (there : name.span = ⟨dollar.span.start, word.span.stop⟩) :
      Placed (.dollarNamed name dollar word)
  | node {span parts} (hull : Hull span parts) (each : ∀ part ∈ parts, Placed part) :
      Placed (.node span parts)

/-- Phrases that are placed, one behind the other. -/
abbrev AllPlaced (parts : List Phrase) : Prop := ∀ part ∈ parts, part.Placed

theorem Phrase.Placed.inner {span : Span} {parts : List Phrase}
    (placed : (Phrase.node span parts).Placed) : AllPlaced parts := by
  cases placed with
  | node _ each => exact each

/-- Tokens one behind the other. -/
structure InOrder (tokens : List (Located Token)) : Prop where
  forward : ∀ token ∈ tokens, token.span.start.index ≤ token.span.stop.index
  apart : tokens.Pairwise fun first second => first.span.stop.index ≤ second.span.start.index

/-- A span begins where the first of some tokens does, and ends where the last one does. -/
def Covering (span : Span) (tokens : List (Located Token)) : Prop :=
  ∃ first ∈ tokens.head?, ∃ last ∈ tokens.getLast?, span = ⟨first.span.start, last.span.stop⟩

section Parts

variable {span : Span} {parts more : List Phrase}

theorem part_leaves (parts : List Phrase) :
    Phrase.partLeaves parts = parts.flatMap Phrase.leaves := by
  induction parts with
  | nil => rw [Phrase.partLeaves, List.flatMap_nil]
  | cons part rest ih => rw [Phrase.partLeaves, ih, List.flatMap_cons]

@[simp] theorem part_leaves_append :
    Phrase.partLeaves (parts ++ more) = Phrase.partLeaves parts ++ Phrase.partLeaves more := by
  rw [part_leaves, part_leaves, part_leaves, List.flatMap_append]

@[simp] theorem parts_stop_nil (otherwise : Position) : partsStop otherwise [] = otherwise := rfl

@[simp] theorem parts_stop_cons (otherwise : Position) (part : Phrase) :
    partsStop otherwise (part :: more) = partsStop part.span.stop more := rfl

@[simp] theorem parts_stop_append (otherwise : Position) :
    partsStop otherwise (parts ++ more) = partsStop (partsStop otherwise parts) more :=
  List.foldl_append

/-- Where parts have a hull, they end with it. -/
theorem Hull.stop (hull : Hull span parts) (otherwise : Position) :
    partsStop otherwise parts = span.stop := by
  cases parts with
  | nil => exact hull.elim
  | cons first more =>
      cases hull
      rfl

/-- With more parts behind the others, a span ends where the last of them does. -/
theorem Hull.append (hull : Hull span parts) :
    Hull ⟨span.start, partsStop span.stop more⟩ (parts ++ more) := by
  cases parts with
  | nil => exact hull.elim
  | cons first others =>
      cases hull
      rw [List.cons_append, Hull, parts_stop_append]

/-- Behind some tokens, the tokens of more parts end where the last of these does. -/
theorem last_leaf {tokens : List (Located Token)} {stop : Position}
    (last : ∃ token ∈ tokens.getLast?, token.span.stop = stop)
    (each : ∀ part ∈ parts, Covering part.span part.leaves) :
    ∃ token ∈ (tokens ++ Phrase.partLeaves parts).getLast?,
      token.span.stop = partsStop stop parts := by
  induction parts generalizing tokens stop with
  | nil => simpa [Phrase.partLeaves] using last
  | cons part rest ih =>
      obtain ⟨own, others⟩ := List.forall_mem_cons.mp each
      obtain ⟨first, -, token, ends, same⟩ := own
      have behind : ∃ token ∈ (tokens ++ part.leaves).getLast?,
          token.span.stop = part.span.stop := by
        refine ⟨token, ?_, by rw [same]⟩
        rw [List.getLast?_append, Option.mem_def.mp ends]
        rfl
      have final := ih behind others
      rwa [List.append_assoc] at final

theorem Hull.covering (hull : Hull span parts)
    (each : ∀ part ∈ parts, Covering part.span part.leaves) :
    Covering span (Phrase.partLeaves parts) := by
  cases parts with
  | nil => exact hull.elim
  | cons first more =>
      obtain ⟨own, others⟩ := List.forall_mem_cons.mp each
      obtain ⟨token, begins, last, ends, same⟩ := own
      obtain ⟨final, final_ends, stop⟩ := last_leaf ⟨last, ends, rfl⟩ others
      refine ⟨token, ?_, final, final_ends, ?_⟩
      · rw [Phrase.partLeaves, List.head?_append, Option.mem_def.mp begins]
        rfl
      · rw [hull, stop, same]

end Parts

section Placing

variable {phrase : Phrase}

/-- A phrase that is placed begins with its first token and ends with its last one. -/
theorem Phrase.Placed.covering (placed : phrase.Placed) : Covering phrase.span phrase.leaves := by
  induction placed with
  | @leaf token => exact ⟨token, rfl, token, rfl, rfl⟩
  | @named name token same there => exact ⟨token, rfl, token, rfl, there⟩
  | @dollarNamed name dollar word mark same there => exact ⟨dollar, rfl, word, rfl, there⟩
  | node hull each ih =>
      rw [Phrase.leaves]
      exact hull.covering ih

theorem Phrase.Placed.inside {outer : Phrase} (placed : outer.Placed)
    (inside : phrase.Inside outer) : phrase.Placed := by
  induction inside with
  | whole => exact placed
  | part member _ ih =>
      cases placed with
      | node hull each => exact ih (each _ member)

/-- The tokens of a phrase are next to each other in any phrase around it. -/
theorem Phrase.Inside.leaves {outer : Phrase} (inside : phrase.Inside outer) :
    phrase.leaves <:+: outer.leaves := by
  induction inside with
  | whole => exact List.infix_rfl
  | @part part span parts member _ ih =>
      obtain ⟨before, after, rfl⟩ := List.append_of_mem member
      refine ih.trans ⟨Phrase.partLeaves before, Phrase.partLeaves after, ?_⟩
      rw [Phrase.leaves, part_leaves_append, Phrase.partLeaves, List.append_assoc]

variable {tokens some : List (Located Token)}

theorem InOrder.sublist (ordered : InOrder tokens) (fewer : some.Sublist tokens) : InOrder some :=
  ⟨fun token member => ordered.forward token (fewer.subset member), ordered.apart.sublist fewer⟩

/-- Nothing is in front of the first of some tokens or behind the last one. -/
theorem InOrder.bounds (ordered : InOrder tokens) {span : Span} (covers : Covering span tokens) :
    ∀ token ∈ tokens, span.start.index ≤ token.span.start.index ∧
      token.span.stop.index ≤ span.stop.index := by
  obtain ⟨first, begins, last, ends, rfl⟩ := covers
  intro token member
  constructor
  · obtain ⟨more, rfl⟩ := List.head?_eq_some_iff.mp begins
    rcases List.mem_cons.mp member with rfl | later
    · exact le_rfl
    · have behind := (List.pairwise_cons.mp ordered.apart).1 token later
      exact (ordered.forward first List.mem_cons_self).trans behind
  · obtain ⟨before, rfl⟩ := List.getLast?_eq_some_iff.mp ends
    rcases List.mem_append.mp member with earlier | same
    · have behind := (List.pairwise_append.mp ordered.apart).2.2 token earlier last
        (List.mem_singleton.mpr rfl)
      exact behind.trans (ordered.forward last (by simp))
    · rw [List.mem_singleton.mp same]

theorem Covering.ends {span : Span} (covers : Covering span tokens) :
    ∃ first ∈ tokens, ∃ last ∈ tokens, span = ⟨first.span.start, last.span.stop⟩ := by
  obtain ⟨first, begins, last, ends, same⟩ := covers
  exact ⟨first, List.mem_of_mem_head? begins, last, List.mem_of_mem_getLast? ends, same⟩

/-- The parts of a phrase lie inside of it. -/
theorem Phrase.Placed.parts_inside (placed : phrase.Placed) (ordered : InOrder phrase.leaves) :
    ∀ part ∈ phrase.parts, phrase.span.start.index ≤ part.span.start.index ∧
      part.span.stop.index ≤ phrase.span.stop.index := by
  intro part member
  have bounds := ordered.bounds placed.covering
  cases placed with
  | @node span parts hull each =>
      obtain ⟨first, begins, last, ends, same⟩ := (each part member).covering.ends
      have among := (@Phrase.Inside.part part part span parts member .whole).leaves.subset
      rw [same]
      exact ⟨(bounds first (among begins)).1, (bounds last (among ends)).2⟩
  | _ => cases member

/-- The parts of a phrase follow one another. -/
theorem Phrase.Placed.parts_apart (placed : phrase.Placed) (ordered : InOrder phrase.leaves) :
    phrase.parts.Pairwise fun first second =>
      first.span.stop.index ≤ second.span.start.index := by
  cases placed with
  | @node span parts hull each =>
      have apart := ordered.apart
      rw [Phrase.leaves, part_leaves, List.pairwise_flatMap] at apart
      refine apart.2.imp_of_mem fun {first second} one other between => ?_
      obtain ⟨_, _, last, ends, first_span⟩ := (each first one).covering.ends
      obtain ⟨next, begins, _, _, second_span⟩ := (each second other).covering.ends
      rw [first_span, second_span]
      exact between last ends next begins
  | _ => exact .nil

end Placing

end GraphQL
