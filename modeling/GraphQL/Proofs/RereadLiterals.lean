import GraphQL.Proofs.PrintedFloats
import GraphQL.Proofs.PrintedLiterals

/-!
Literals as they come back from their printed text.

A float that is no whole number comes back as it is. One that is written like an integer comes back as
that integer, and infinity as the enum value that its text spells. Whole numbers that do not fit 32
bits come back as other numbers, and negative zero loses its sign.
-/

namespace GraphQL

/-- What the text of a float is read as: a number, an integer or else a word. -/
def Single.reread (x : Single) : Literal :=
  if x.isFraction then .float x
  else
    match integerLiteral? (DecimalStyle.plain.write x).toList with
    | some n => .int (Int32.ofInt n)
    | none => .enum (DecimalStyle.plain.write x)

/-- No whole number, or one whose text is an integer of 32 bits, or infinity. -/
def Single.Legible (x : Single) : Prop :=
  x.isFraction = true ∨ (∃ n : Int32, DecimalStyle.plain.write x = toString n.toInt) ∨
    x = .infinity .single false

/-- No whole number, or one whose text is the integer that it is truncated to. -/
def Single.Exact (x : Single) : Prop :=
  x.isFraction = true ∨
    ∃ n : Int32, DecimalStyle.plain.write x = toString n.toInt ∧ x.truncate64 = n.toInt

mutual

/-- What the text of a literal is read as, with places that do not matter. -/
def Literal.reread : Literal → Literal
  | .float x => x.reread
  | .list items => .list (rereadItems items)
  | .object fields => .object (rereadFields fields)
  | literal => literal

def rereadItems : List (Located Literal) → List (Located Literal)
  | [] => []
  | ⟨item, span⟩ :: rest => ⟨item.reread, span⟩ :: rereadItems rest

def rereadFields :
    List (Located String × Located Literal) → List (Located String × Located Literal)
  | [] => []
  | (name, ⟨value, span⟩) :: rest => (name, ⟨value.reread, span⟩) :: rereadFields rest

end

mutual

/-- The floats in a literal. -/
def Literal.floats : Literal → List Single
  | .float x => [x]
  | .list items => itemFloats items
  | .object fields => fieldFloats fields
  | _ => []

def itemFloats : List (Located Literal) → List Single
  | [] => []
  | ⟨item, _⟩ :: rest => item.floats ++ itemFloats rest

def fieldFloats : List (Located String × Located Literal) → List Single
  | [] => []
  | (_, ⟨value, _⟩) :: rest => value.floats ++ fieldFloats rest

end

section Floats

variable {x : Single}

/-- In one of three ways a legible float is read back. -/
theorem Single.Legible.cases (legible : x.Legible) :
    x.isFraction = true ∧ x.reread = .float x ∨
      x.isFraction = false ∧
        ((∃ n : Int32, DecimalStyle.plain.write x = toString n.toInt ∧ x.reread = .int n) ∨
          x = .infinity .single false ∧ x.reread = .enum "inf") := by
  cases fraction : x.isFraction with
  | true => exact .inl ⟨rfl, by rw [Single.reread, if_pos fraction]⟩
  | false =>
      refine .inr ⟨rfl, ?_⟩
      rw [Single.reread, fraction, if_neg Bool.false_ne_true]
      rcases legible with impossible | ⟨n, shown⟩ | rfl
      · rw [fraction] at impossible
        cases impossible
      · refine .inl ⟨n, shown, ?_⟩
        rw [shown, int_read_back]
        exact congrArg Literal.int (Int32.ofInt_toInt n)
      · have text : DecimalStyle.plain.write (.infinity .single false : Single) = "inf" := rfl
        rw [text]
        exact .inr ⟨rfl, rfl⟩

theorem written_in_range {n : Int} (shown : DecimalStyle.plain.write x = toString n)
    (least : -2 ^ 31 ≤ n) (most : n < 2 ^ 31) :
    ∃ m : Int32, DecimalStyle.plain.write x = toString m.toInt ∧ m.toInt = n :=
  have same := Int32.toInt_ofInt_of_le least most
  ⟨.ofInt n, by rw [same, shown], same⟩

/-- Whole numbers with 24 bits are legible and exact. -/
theorem Single.small_integer_legible {n : Int} (small : n.natAbs < 2 ^ 24) :
    Single.Legible (.ofInt .single n) ∧ Single.Exact (.ofInt .single n) := by
  have shown := small_integer_written small
  obtain ⟨m, written, same⟩ := written_in_range shown (by omega) (by omega)
  exact ⟨.inr (.inl ⟨m, written⟩),
    .inr ⟨m, written, (small_integer_truncated small).trans same.symm⟩⟩

/-- What is not legible: no number, negative infinity, negative zero, and whole numbers whose digits
do not fit. -/
theorem Single.not_legible (illegible : ¬ x.Legible) :
    x = .nan ∨ x = .infinity .single true ∨ x = .ofRank .single true 0 ∨
      ∃ n : Int, DecimalStyle.plain.write x = toString n ∧ (n < -2 ^ 31 ∨ 2 ^ 31 ≤ n) := by
  rw [Single.Legible, not_or, not_or] at illegible
  obtain ⟨uneven, unfit, bounded⟩ := illegible
  by_cases finite : x.isFinite = true
  · rcases finite_written finite with fraction | zero | ⟨n, shown⟩
    · exact absurd fraction uneven
    · exact .inr (.inr (.inl zero))
    · refine .inr (.inr (.inr ⟨n, shown, ?_⟩))
      by_contra inside
      obtain ⟨m, written, -⟩ := written_in_range shown (by omega) (by omega)
      exact unfit ⟨m, written⟩
  · cases x with
    | nan => exact .inl rfl
    | number negative rank =>
        have infinite : rank.val = Format.single.infinityRank := by
          by_contra inside
          simp [Binary.isFinite, Binary.ratio?, inside] at finite
        have same : (Binary.number negative rank : Single) = .infinity .single negative := by
          rw [Binary.infinity, Binary.ofRank]
          congr 1
          exact Fin.ext (by simp [infinite])
        cases negative with
        | false => exact absurd same bounded
        | true => exact .inr (.inl same)

theorem Single.Legible.print (legible : x.Legible) :
    x.reread.print = DecimalStyle.plain.write x := by
  rcases legible.cases with ⟨-, same⟩ | ⟨-, ⟨n, shown, same⟩ | ⟨rfl, same⟩⟩
  · rw [same, Literal.print]
  · rw [same, Literal.print, shown]
  · rw [same]
    rfl

theorem Single.Legible.spelled (legible : x.Legible) : x.reread.Spelled true := by
  rcases legible.cases with ⟨fraction, same⟩ | ⟨-, ⟨n, -, same⟩ | ⟨-, same⟩⟩
  · obtain ⟨token, read⟩ := fraction_read_back fraction
    rw [same]
    exact .float ⟨token, read⟩
  · rw [same]
    exact .int n
  · rw [same]
    refine .enum ⟨?_, ?_⟩ <;> decide

end Floats

section Literals

theorem reread_items (items : List (Located Literal)) :
    rereadItems items = items.map fun item => ⟨item.node.reread, item.span⟩ := by
  induction items with
  | nil => rw [rereadItems, List.map_nil]
  | cons item rest ih => rw [rereadItems, ih, List.map_cons]

theorem reread_fields (fields : List (Located String × Located Literal)) :
    rereadFields fields =
      fields.map fun field => (field.1, ⟨field.2.node.reread, field.2.span⟩) := by
  induction fields with
  | nil => rw [rereadFields, List.map_nil]
  | cons field rest ih => rw [rereadFields, ih, List.map_cons]

theorem item_floats (items : List (Located Literal)) :
    itemFloats items = items.flatMap fun item => item.node.floats := by
  induction items with
  | nil => rw [itemFloats, List.flatMap_nil]
  | cons item rest ih => rw [itemFloats, ih, List.flatMap_cons]

theorem field_floats (fields : List (Located String × Located Literal)) :
    fieldFloats fields = fields.flatMap fun field => field.2.node.floats := by
  induction fields with
  | nil => rw [fieldFloats, List.flatMap_nil]
  | cons field rest ih => rw [fieldFloats, ih, List.flatMap_cons]

/-- Where its floats are legible, a literal is printed as what it is read back as. -/
theorem Literal.Formed.reread {float : Single → Prop} {literal : Literal}
    (formed : literal.Formed float true) (legible : ∀ x ∈ literal.floats, x.Legible) :
    literal.reread.print = literal.print ∧ literal.reread.Spelled true := by
  induction formed with
  | float =>
      rw [Literal.floats] at legible
      have own := legible _ List.mem_cons_self
      rw [Literal.reread, Literal.print]
      exact ⟨own.print, own.spelled⟩
  | «variable» free => cases free
  | @list items each ih =>
      rw [Literal.floats, item_floats] at legible
      have same := fun item member => ih item member fun x inside =>
        legible x (List.mem_flatMap_of_mem member inside)
      have texts : (items.map fun item => item.node.reread.print) =
          items.map fun item => item.node.print :=
        List.map_congr_left fun item member => (same item member).1
      rw [Literal.reread, reread_items, Literal.print, Literal.print, print_items, print_items,
        List.map_map]
      refine ⟨congrArg (fun texts => "[" ++ String.intercalate ", " texts ++ "]") texts,
        .list fun item member => ?_⟩
      obtain ⟨own, there, rfl⟩ := List.mem_map.mp member
      exact (same own there).2
  | @object fields distinct named each ih =>
      rw [Literal.floats, field_floats] at legible
      have same := fun field member => ih field member fun x inside =>
        legible x (List.mem_flatMap_of_mem member inside)
      have texts : (fields.map fun field => printField
          (field.1, ⟨field.2.node.reread, field.2.span⟩)) = fields.map printField :=
        List.map_congr_left fun field member => by
          rw [printField, printField, (same field member).1]
      rw [Literal.reread, reread_fields, Literal.print, Literal.print, print_fields, print_fields,
        List.map_map]
      refine ⟨congrArg (fun texts => "\x7b" ++ String.intercalate ", " texts ++ "\x7d") texts,
        .object ?_ ?_ ?_⟩
      · simpa [Function.comp_def] using distinct
      · intro field member
        obtain ⟨own, there, rfl⟩ := List.mem_map.mp member
        exact named own there
      · intro field member
        obtain ⟨own, there, rfl⟩ := List.mem_map.mp member
        exact (same own there).2
  | null => exact ⟨rfl, .null⟩
  | int value => exact ⟨rfl, .int value⟩
  | string text => exact ⟨rfl, .string text⟩
  | bool value => exact ⟨rfl, .bool value⟩
  | enum allowed => exact ⟨rfl, .enum allowed⟩

end Literals

section Texts

/-- The constant literal that is written as a text of its own. -/
def Literal.ofText? (text : List Char) : Option Literal :=
  match Cursor.ofStream (.ofText text) with
  | .error _ => none
  | .ok cursor =>
      match (Reader.literal true).run cursor with
      | .ok literal [_] => some literal.node
      | _ => none

/-- Printed as its own tokens, a literal is read back. -/
theorem Literal.Formed.read_back {literal : Literal} (spelled : literal.Spelled true) :
    ∃ found, Literal.ofText? literal.print.toList = some found ∧
      found.placeless = literal.placeless := by
  have stops : literal.StopsAt [] := NumberStops.literal (fun _ absent => by cases absent) literal
  have laid := spelled.prints_tokens [] stops
  rw [List.append_nil] at laid
  have proper := literal_proper spelled
  have scanned := stream_laid (laid.mono fun token _ rest fits => fits.1.cut_off fits.2)
  rw [pieceTokens, List.flatMap_def] at scanned
  obtain ⟨cursor, found, held⟩ := cursor_spelled (pieces_spelled proper) proper scanned
  obtain ⟨value, left, ran, remains, same⟩ :=
    (Reader.literal_takes spelled (List.cons_ne_nil _ _)).run cursor held
  obtain ⟨last, rfl, -⟩ := List.map_eq_singleton_iff.mp remains
  refine ⟨value.node, ?_, same⟩
  rw [Literal.ofText?, found]
  simp only [ran]

end Texts

end GraphQL
