/-
Module: FlatDae.Proofs.ExpressionLayout
Purpose: How the text of an expression is made up of the texts of its operands. What a node writes around its
  children is its `Shape`, and from the shape one learns everything about a node but its identity and its
  children: numbers are not written as names, and no built-in function, derivative or stack is written as a
  call, which ends with its output.
Main exports: IsIdentifier, Expr.SameTree, Expr.WellNamed, Expr.Shape, Expr.shape, Expr.print_layout,
  Expr.alike_of_shape_eq, Expr.Laid, Expr.laid
-/
import FlatDae.Expr.Print
import FlatDae.Proofs.NumberText
import FlatDae.Proofs.SubstitutionGraph

namespace FlatDae

open Source (isNameChar isAtomChar)

/-- Characters of names and numbers, at least one. -/
structure IsRun (w : List Char) : Prop where
  atoms : ∀ c ∈ w, isAtomChar c
  ne_nil : w ≠ []

theorem IsRun.exists_cons {w : List Char} (h : IsRun w) : ∃ c cs, w = c :: cs ∧ isAtomChar c := by
  rcases List.exists_cons_of_ne_nil h.ne_nil with ⟨c, cs, rfl⟩
  exact ⟨c, cs, rfl, h.atoms c List.mem_cons_self⟩

/-- A name as it can be declared: letters, digits and underscores, with no digit at the front. -/
structure IsIdentifier (n : String) : Prop where
  chars : ∀ c ∈ n.toList, isNameChar c
  head : ∃ c ∈ n.toList.head?, c.isDigit = false

theorem IsIdentifier.isRun {n : String} (h : IsIdentifier n) : IsRun n.toList where
  atoms := fun c hc => Source.isAtomChar_of_isNameChar (h.chars c hc)
  ne_nil := by
    rcases h.head with ⟨c, hc, -⟩
    intro hnil
    rw [hnil] at hc
    cases hc

namespace Expr

/-- Two expressions that differ at most in the identities of their nodes. -/
inductive SameTree : Expr → Expr → Prop where
  | node {a b : Expr} (alike : Alike a b) (children : List.Forall₂ SameTree a.children b.children) :
      SameTree a b

/-- The names in an expression are identifiers, and no symbol has the name of a number. -/
structure WellNamed (e : Expr) : Prop where
  symbols : ∀ id name, Within (.symbol id name) e → IsIdentifier name ∧ name ≠ "inf" ∧ name ≠ "NaN"
  calls : ∀ id function args output, Within (.call id function args output) e → IsIdentifier function

theorem WellNamed.child {e c : Expr} (h : e.WellNamed) (hc : c ∈ e.children) : c.WellNamed where
  symbols := fun id name hwithin => h.symbols id name (hwithin.trans (.child hc))
  calls := fun id function args output hwithin => h.calls id function args output (hwithin.trans (.child hc))

/-- An expression is well named if its topmost node and its operands are. -/
theorem WellNamed.of_children {e : Expr} (hchildren : ∀ c ∈ e.children, c.WellNamed)
    (hsymbol : ∀ id name, e = .symbol id name → IsIdentifier name ∧ name ≠ "inf" ∧ name ≠ "NaN")
    (hcall : ∀ id function args output, e = .call id function args output → IsIdentifier function) :
    e.WellNamed where
  symbols := by
    intro id name hwithin
    cases hwithin with
    | self => exact hsymbol id name rfl
    | deeper child within => exact (hchildren _ child).symbols id name within
  calls := by
    intro id function args output hwithin
    cases hwithin with
    | self => exact hcall id function args output rfl
    | deeper child within => exact (hchildren _ child).calls id function args output within

/-! ### Shapes -/

/-- What a node writes around its children. -/
inductive Shape where
  | word (text : List Char)
  | applied (name : List Char) (output : Option Nat)
  | prefixed (mark : Char)
  | infixed (op : BinaryOp)

/-- The shape of an operation on one operand. -/
def unaryShape : UnaryOp → Shape
  | .negate => .prefixed '-'
  | .not => .prefixed '!'
  | op => .applied op.opening.toList.dropLast none

/-- The shape of the topmost node. -/
def shape : Expr → Shape
  | .constant _ value => .word (Decimal.text value).toList
  | .symbol _ name => .word name.toList
  | .unary _ op _ => unaryShape op
  | .binary _ op _ _ => .infixed op
  | .der _ _ => .applied "der".toList none
  | .call _ function _ output => .applied function.toList (some output)
  | .vertcat _ _ => .applied "vertcat".toList none

/-- Further texts with a comma before each. -/
def furtherTexts : List (List Char) → List Char
  | [] => []
  | t :: ts => ',' :: (t ++ furtherTexts ts)

/-- Texts with commas between them. -/
def listedTexts : List (List Char) → List Char
  | [] => []
  | t :: ts => t ++ furtherTexts ts

/-- The output that a call selects. -/
def outputText : Option Nat → List Char
  | none => []
  | some k => '{' :: ((toString k).toList ++ ['}'])

/-- What a shape makes of the texts of the children. -/
def Shape.layout : Shape → List (List Char) → List Char
  | .word text, _ => text
  | .applied name output, args => name ++ '(' :: (listedTexts args ++ ')' :: outputText output)
  | .prefixed mark, [operand] => '(' :: mark :: (operand ++ [')'])
  | .infixed op, [left, right] => '(' :: (left ++ (op.symbol.toList ++ (right ++ [')'])))
  | _, _ => []

/-! ### Pieces -/

theorem writePieces_append (known : Expr → Option Float) (ps qs : List Piece) (written : String) :
    writePieces known (ps ++ qs) written = writePieces known qs (writePieces known ps written) := by
  fun_induction writePieces known ps written with
  | case1 => rfl
  | case2 s rest written ih => rw [List.cons_append, writePieces.eq_2, ih]
  | case3 e rest written value hvalue ih =>
      rw [List.cons_append, writePieces.eq_3, hvalue]
      exact ih
  | case4 e rest written hvalue ih =>
      rw [List.cons_append, writePieces.eq_3, hvalue, ← ih, List.append_assoc]

theorem writePieces_behind (known : Expr → Option Float) (ps : List Piece) (before written : String) :
    writePieces known ps (before ++ written) = before ++ writePieces known ps written := by
  fun_induction writePieces known ps written with
  | case1 => rw [writePieces.eq_1]
  | case2 s rest written ih => rw [writePieces.eq_2, String.append_assoc, ih]
  | case3 e rest written value hvalue ih =>
      rw [writePieces.eq_3, hvalue, ← ih, ← String.append_assoc]
  | case4 e rest written hvalue ih => rw [writePieces.eq_3, hvalue, ← ih]

/-- The text of a piece. -/
def Piece.chars : Piece → List Char
  | .text s => s.toList
  | .expr e => e.print.toList

/-- The pieces are written one after the other. -/
theorem writePieces_toList (ps : List Piece) (written : String) :
    (writePieces (fun _ => none) ps written).toList = written.toList ++ ps.flatMap Piece.chars := by
  induction ps generalizing written with
  | nil => rw [writePieces.eq_1, List.flatMap_nil, List.append_nil]
  | cons p ps ih =>
      have hfirst : writePieces (fun _ => none) [p] written =
          written ++ writePieces (fun _ => none) [p] "" := by
        rw [← writePieces_behind, String.append_empty]
      have hchars : (writePieces (fun _ => none) [p] "").toList = p.chars := by
        cases p with
        | text s => rw [writePieces.eq_2, writePieces.eq_1, String.empty_append]; rfl
        | expr e => rfl
      rw [← List.singleton_append, writePieces_append, ih, hfirst, String.toList_append, hchars,
        List.append_assoc]
      rfl

/-- An expression is written as its pieces. -/
theorem print_toList (e : Expr) : e.print.toList = e.pieces.flatMap Piece.chars := by
  have h := writePieces_toList (e.pieces ++ []) ""
  rw [List.append_nil] at h
  rw [print, printWith, writePieces.eq_3]
  exact (congrArg (fun ps => (writePieces _ ps "").toList) (List.append_nil _)).trans h

theorem flatMap_commaSeparated_cons (e : Expr) (es : List Expr) :
    (commaSeparated (e :: es)).flatMap Piece.chars =
      e.print.toList ++ furtherTexts (es.map fun e => e.print.toList) := by
  induction es generalizing e with
  | nil => rfl
  | cons e' es ih =>
      rw [commaSeparated, List.flatMap_cons, List.flatMap_cons, ih, List.map_cons, furtherTexts]
      · rfl
      · exact List.cons_ne_nil _ _

theorem flatMap_commaSeparated (es : List Expr) :
    (commaSeparated es).flatMap Piece.chars = listedTexts (es.map fun e => e.print.toList) := by
  cases es with
  | nil => rfl
  | cons e es => exact flatMap_commaSeparated_cons e es

/-- A node is written as its shape around its children. -/
theorem print_layout (e : Expr) :
    e.print.toList = e.shape.layout (e.children.map fun c => c.print.toList) := by
  rw [print_toList]
  cases e with
  | constant => simp [pieces, shape, Shape.layout, Piece.chars]
  | symbol => simp [pieces, shape, Shape.layout, Piece.chars]
  | unary _ op =>
      cases op <;>
        simp [pieces, shape, unaryShape, Shape.layout, Piece.chars, children, UnaryOp.opening, listedTexts,
          furtherTexts, outputText]
  | binary => simp [pieces, shape, Shape.layout, Piece.chars, children]
  | der =>
      simp [pieces, shape, Shape.layout, Piece.chars, children, listedTexts, furtherTexts, outputText]
  | call => simp [pieces, shape, Shape.layout, Piece.chars, children, flatMap_commaSeparated, outputText]
  | vertcat => simp [pieces, shape, Shape.layout, Piece.chars, children, flatMap_commaSeparated, outputText]

/-! ### From the shape to the node -/

/-- The operator of an operation on one operand, told from its shape. -/
def Shape.operator? : Shape → Option UnaryOp
  | .prefixed '-' => some .negate
  | .prefixed '!' => some .not
  | .applied name none => UnaryOp.ofName? (String.ofList name)
  | _ => none

/-- The operator of an operation on one operand. -/
def operator? : Expr → Option UnaryOp
  | .unary _ op _ => some op
  | _ => none

theorem operator?_shape (e : Expr) : e.shape.operator? = e.operator? := by
  cases e with
  | unary _ op => cases op <;> rfl
  | _ => rfl

/-- A number is not written as a name. -/
theorem text_ne_name {value : Float} {name : String} (hname : IsIdentifier name) (hinf : name ≠ "inf")
    (hnan : name ≠ "NaN") : (Decimal.text value).toList ≠ name.toList := by
  intro h
  rcases Decimal.text_isWord value with ⟨w, hw, htext⟩
  rcases hname.head with ⟨c, hc, hdigit⟩
  rw [← h, htext] at hc
  cases hsign : (Binary64.ofFloat value).isNegative with
  | true =>
      rw [hsign] at hc
      cases hc
      exact absurd (hname.chars '-' (h ▸ htext ▸ hsign ▸ List.mem_cons_self)) (by decide)
  | false =>
      rw [hsign] at hc htext
      rcases hw.cases_word with rfl | rfl | hmantissa
      · exact hnan (String.toList_inj.1 (h.symm.trans htext))
      · exact hinf (String.toList_inj.1 (h.symm.trans htext))
      · rcases hmantissa.exists_cons with ⟨d, ds, rfl, hd⟩
        cases hc
        rw [hdigit] at hd
        cases hd

/-- A node is known from its shape, its identity and its children aside. -/
theorem alike_of_shape_eq {a b : Expr} (ha : a.WellNamed) (hb : b.WellNamed) (h : a.shape = b.shape) :
    Alike a b := by
  have hop : a.operator? = b.operator? := by rw [← operator?_shape, h, operator?_shape]
  cases a <;> cases b <;> simp only [operator?, reduceCtorEq, Option.some.injEq] at hop <;>
    simp only [shape, Shape.word.injEq, Shape.applied.injEq, Shape.infixed.injEq, reduceCtorEq, and_false]
      at h
  case constant.constant =>
    rw [Decimal.text_injective (String.toList_inj.1 h)]
    exact .constant _ _ _
  case constant.symbol =>
    rcases hb.symbols _ _ (.self _) with ⟨hname, hinf, hnan⟩
    exact absurd h (text_ne_name hname hinf hnan)
  case symbol.constant =>
    rcases ha.symbols _ _ (.self _) with ⟨hname, hinf, hnan⟩
    exact absurd h.symm (text_ne_name hname hinf hnan)
  case symbol.symbol =>
    rw [String.toList_inj.1 h]
    exact .symbol _ _ _
  case unary.unary => rw [hop]; exact .unary _ _ _ _ _
  case binary.binary => rw [h]; exact .binary _ _ _ _ _ _ _
  case der.der => exact .der _ _ _ _
  case der.vertcat => exact absurd h.1 (by decide)
  case call.call =>
    rw [String.toList_inj.1 h.1, Option.some.inj h.2]
    exact .call _ _ _ _ _ _
  case vertcat.der => exact absurd h.1 (by decide)
  case vertcat.vertcat => exact .vertcat _ _ _ _

/-- Nodes that are alike have one shape. -/
theorem Alike.shape_eq {a b : Expr} (h : Alike a b) : a.shape = b.shape := by
  cases h <;> rfl

/-- `Laid s cs`: a node over the children `cs` can have the shape `s`. -/
inductive Laid : Shape → List Expr → Prop where
  | word {w : List Char} (hw : IsRun w) : Laid (.word w) []
  | negative {w : List Char} (hw : IsRun w) : Laid (.word ('-' :: w)) []
  | applied {w : List Char} (hw : IsRun w) (output : Option Nat) (cs : List Expr) :
      Laid (.applied w output) cs
  | marked {mark : Char} (hmark : mark = '-' ∨ mark = '!') (c : Expr) : Laid (.prefixed mark) [c]
  | infixed (op : BinaryOp) (l r : Expr) : Laid (.infixed op) [l, r]

theorem laid {e : Expr} (he : e.WellNamed) : Laid e.shape e.children := by
  cases e with
  | constant _ value =>
      rcases Decimal.text_isWord value with ⟨w, hw, htext⟩
      have hrun : IsRun w := ⟨hw.atomChars, hw.ne_nil⟩
      rw [shape, htext]
      cases (Binary64.ofFloat value).isNegative with
      | true => exact .negative hrun
      | false => exact .word hrun
  | symbol => exact .word (he.symbols _ _ (.self _)).1.isRun
  | unary _ op =>
      cases op with
      | negate => exact .marked (Or.inl rfl) _
      | not => exact .marked (Or.inr rfl) _
      | _ => exact .applied ⟨List.all_eq_true.1 rfl, List.cons_ne_nil _ _⟩ _ _
  | binary => exact .infixed _ _ _
  | der => exact .applied ⟨List.all_eq_true.1 rfl, List.cons_ne_nil _ _⟩ _ _
  | call => exact .applied (he.calls _ _ _ _ (.self _)).isRun _ _
  | vertcat => exact .applied ⟨List.all_eq_true.1 rfl, List.cons_ne_nil _ _⟩ _ _

end Expr

end FlatDae
