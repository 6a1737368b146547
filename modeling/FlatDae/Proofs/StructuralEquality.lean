/-
Module: FlatDae.Proofs.StructuralEquality
Purpose: What it means that two expressions are structurally equal. The list of pairs that are still to be
  compared is worked off in any order, so two nodes are equal if they are one node or if they match at the
  top and their children are equal pair by pair. Sharing decides what a constant that is no number equals:
  the one node of it equals itself, so do all expressions over it, and two nodes of it are different.
Main exports: Expr.Matches, Expr.equal_eq_true_iff, Expr.equal_symm, Expr.equal_trans, Expr.equal_structural
-/
import FlatDae.Expr.Equality
import FlatDae.Proofs.SymbolOccurrences

namespace FlatDae.Expr

/-! ### The pending pairs -/

theorem allEqual_append (ps qs : List (Expr × Expr)) :
    allEqual (ps ++ qs) = (allEqual ps && allEqual qs) := by
  fun_induction allEqual ps with
  | case1 => simp
  | case2 a b rest hsame ih => rw [List.cons_append, allEqual, if_pos hsame, ih]
  | case3 a b rest hsame hagree ih =>
      rw [List.cons_append, allEqual, if_neg hsame, if_pos hagree, ← List.append_assoc, ih]
  | case4 a b rest hsame hagree =>
      rw [List.cons_append, allEqual, if_neg hsame, if_neg hagree, Bool.false_and]

/-- The answer does not depend on the order of the pairs. -/
theorem allEqual_eq_all (ps : List (Expr × Expr)) : allEqual ps = ps.all fun p => p.1.equal p.2 := by
  induction ps with
  | nil => simp [allEqual]
  | cons p ps ih => rw [← List.singleton_append, allEqual_append, ih, List.all_append]; simp [equal]

/-- `Matches R a b`: two nodes of one kind that carry the same, with children that correspond by `R`. Two
    symbols never match, and constants match if their values are equal as doubles. -/
inductive Matches (R : Expr → Expr → Prop) : Expr → Expr → Prop where
  | constant (i j : NodeId) {x y : Float} (value : (x == y) = true) :
      Matches R (.constant i x) (.constant j y)
  | unary (i j : NodeId) (op : UnaryOp) {c d : Expr} (child : R c d) :
      Matches R (.unary i op c) (.unary j op d)
  | binary (i j : NodeId) (op : BinaryOp) {c c' d d' : Expr} (left : R c d) (right : R c' d') :
      Matches R (.binary i op c c') (.binary j op d d')
  | der (i j : NodeId) {c d : Expr} (child : R c d) : Matches R (.der i c) (.der j d)
  | call (i j : NodeId) (function : String) (output : Nat) {cs ds : List Expr}
      (args : List.Forall₂ R cs ds) : Matches R (.call i function cs output) (.call j function ds output)
  | vertcat (i j : NodeId) {cs ds : List Expr} (rows : List.Forall₂ R cs ds) :
      Matches R (.vertcat i cs) (.vertcat j ds)

/-- Matching is agreement at the top and between the children. -/
theorem matches_iff {R : Expr → Expr → Prop} (a b : Expr) :
    Matches R a b ↔ a.agreeAtTop b = true ∧ List.Forall₂ R a.children b.children := by
  constructor
  · intro h
    cases h with
    | call i j function output args => simp [agreeAtTop, children, args, args.length_eq]
    | vertcat i j rows => simp [agreeAtTop, children, rows, rows.length_eq]
    | constant i j value => simpa [agreeAtTop, children] using value
    | unary i j op child => simpa [agreeAtTop, children] using child
    | binary i j op left right => simpa [agreeAtTop, children] using ⟨left, right⟩
    | der i j child => simpa [agreeAtTop, children] using child
  · rintro ⟨hagree, hchildren⟩
    unfold agreeAtTop at hagree
    split at hagree
    · exact .constant _ _ hagree
    · obtain rfl := eq_of_beq hagree
      exact .unary _ _ _ (by simpa [children] using hchildren)
    · obtain rfl := eq_of_beq hagree
      have hpair := by simpa [children] using hchildren
      exact .binary _ _ _ hpair.1 hpair.2
    · exact .der _ _ (by simpa [children] using hchildren)
    · simp only [Bool.and_eq_true, beq_iff_eq] at hagree
      obtain ⟨⟨rfl, rfl⟩, -⟩ := hagree
      exact .call _ _ _ _ hchildren
    · exact .vertcat _ _ hchildren
    · cases hagree

/-- Nodes that agree at the top have equally many children. -/
theorem length_children_of_agreeAtTop {a b : Expr} (h : a.agreeAtTop b = true) :
    a.children.length = b.children.length := by
  unfold agreeAtTop at h
  split at h <;> simp_all [children]

/-- Two nodes are equal if they are one node, or if they match and their children are equal. -/
theorem equal_eq_true_iff (a b : Expr) :
    a.equal b = true ↔ a.id = b.id ∨ Matches (fun c d => c.equal d = true) a b := by
  rw [matches_iff, equal, allEqual]
  by_cases hsame : a.same b
  · simp_all [same, allEqual]
  · have hid : a.id ≠ b.id := by simpa [same] using hsame
    rw [if_neg hsame, or_iff_right hid]
    by_cases hagree : a.agreeAtTop b
    · rw [if_pos hagree, List.append_nil, allEqual_eq_all, childPairs, List.all_reverse, List.all_eq_true,
        List.forall₂_iff_zip, Prod.forall]
      exact ⟨fun h => ⟨hagree, length_children_of_agreeAtTop hagree, fun hmem => h _ _ hmem⟩,
        fun h c d hmem => h.2.2 hmem⟩
    · simp [hagree]

/-! ### An equivalence -/

theorem float_beq_symm {x y : Float} (h : (x == y) = true) : (y == x) = true := by
  rw [Float.beq_iff_ne_nan_and_eq] at h ⊢
  grind

theorem float_beq_trans {x y z : Float} (hxy : (x == y) = true) (hyz : (y == z) = true) :
    (x == z) = true := by
  rw [Float.beq_iff_ne_nan_and_eq] at hxy hyz ⊢
  grind

namespace Matches

variable {P Q R S : Expr → Expr → Prop} {a b c : Expr}

/-- Matching looks at the children only. -/
theorem imp (h : Matches R a b) (himp : ∀ c ∈ a.children, ∀ d ∈ b.children, R c d → S c d) :
    Matches S a b := by
  rw [matches_iff] at h ⊢
  exact ⟨h.1, forall₂_imp_mem h.2 himp⟩

theorem symm (h : Matches R a b) : Matches (flip R) b a := by
  cases h with
  | constant i j value => exact .constant j i (float_beq_symm value)
  | unary i j op child => exact .unary j i op child
  | binary i j op left right => exact .binary j i op left right
  | der i j child => exact .der j i child
  | call i j function output args => exact .call j i function output args.flip
  | vertcat i j rows => exact .vertcat j i rows.flip

theorem trans (hab : Matches P a b) (hbc : Matches Q b c) (himp : ∀ d e f, P d e → Q e f → R d f) :
    Matches R a c := by
  have hlists {cs ds es : List Expr} (hcd : List.Forall₂ P cs ds) (hde : List.Forall₂ Q ds es) :
      List.Forall₂ R cs es :=
    forall₂_of_left (R := flip P) hcd.flip hde fun d _ c _ e hcd hde => himp c d e hcd hde
  cases hab with
  | constant i _ value =>
      cases hbc with
      | constant _ k value' => exact .constant i k (float_beq_trans value value')
  | unary i _ op child =>
      cases hbc with
      | unary _ k _ child' => exact .unary i k op (himp _ _ _ child child')
  | binary i _ op left right =>
      cases hbc with
      | binary _ k _ left' right' => exact .binary i k op (himp _ _ _ left left') (himp _ _ _ right right')
  | der i _ child =>
      cases hbc with
      | der _ k child' => exact .der i k (himp _ _ _ child child')
  | call i _ function output args =>
      cases hbc with
      | call _ k _ _ args' => exact .call i k function output (hlists args args')
  | vertcat i _ rows =>
      cases hbc with
      | vertcat _ k rows' => exact .vertcat i k (hlists rows rows')

end Matches

section Graph

variable {g : Graph} {a b c : Expr}

/-- What holds of every node with itself, and of nodes that match whenever it holds between their children,
    holds of equal nodes. -/
theorem equal_induction {P : Expr → Expr → Prop} (same : ∀ a ∈ g, P a a)
    (alike : ∀ a ∈ g, ∀ b ∈ g, Matches P a b → P a b) (ha : a ∈ g) (hb : b ∈ g) (h : a.equal b = true) :
    P a b := by
  induction a using children_induction generalizing b with
  | step a ih =>
      rcases (equal_eq_true_iff a b).1 h with hid | hmatches
      · rw [Graph.eq_of_id_eq ha hb hid]
        exact same b hb
      · exact alike a ha b hb (hmatches.imp fun c hc d hd hequal =>
          ih c hc (Graph.mem_children ha hc) (Graph.mem_children hb hd) hequal)

theorem equal_refl (a : Expr) : a.equal a = true := (equal_eq_true_iff a a).2 (Or.inl rfl)

theorem equal_symm (ha : a ∈ g) (hb : b ∈ g) (h : a.equal b = true) : b.equal a = true := by
  refine equal_induction (P := fun a b => b.equal a = true) (fun a _ => equal_refl a) ?_ ha hb h
  exact fun a _ b _ hmatches => (equal_eq_true_iff b a).2 (Or.inr hmatches.symm)

/-- Equality is transitive. If one of the two pairs is a single node then the other pair is what is asked
    for; otherwise all three nodes match, and the children are compared. -/
theorem equal_trans (ha : a ∈ g) (hb : b ∈ g) (hc : c ∈ g) (hab : a.equal b = true)
    (hbc : b.equal c = true) : a.equal c = true := by
  suffices h : a.equal b = true ∧ ∀ c ∈ g, b.equal c = true → a.equal c = true from h.2 c hc hbc
  refine equal_induction (P := fun a b => a.equal b = true ∧ ∀ c ∈ g, b.equal c = true → a.equal c = true)
    (fun a _ => ⟨equal_refl a, fun c _ h => h⟩) ?_ ha hb hab
  intro a _ b hb hmatches
  have hequal : a.equal b = true :=
    (equal_eq_true_iff a b).2 (Or.inr (hmatches.imp fun _ _ _ _ h => h.1))
  refine ⟨hequal, fun c hc hbc => ?_⟩
  rcases (equal_eq_true_iff b c).1 hbc with hid | hmatches'
  · rw [← Graph.eq_of_id_eq hb hc hid]
    exact hequal
  · have hmem : Matches (fun d e => d.equal e = true ∧ e ∈ g) b c :=
      hmatches'.imp fun d _ e he h => ⟨h, Graph.mem_children hc he⟩
    exact (equal_eq_true_iff a c).2 (Or.inr (hmatches.trans hmem fun d e f hde hef => hde.2 f hef.2 hef.1))

/-! ### What equal expressions have in common -/

theorem map_eq_of_forall₂ {α β : Type} {f : α → β} {as bs : List α}
    (h : List.Forall₂ (fun a b => f a = f b) as bs) : as.map f = bs.map f := by
  rwa [← List.forall₂_eq_eq_eq, List.forall₂_map_left_iff, List.forall₂_map_right_iff]

/-- Equal expressions have the same nodes at the leaves. -/
theorem symbolLeaves_eq_of_equal (ha : a ∈ g) (hb : b ∈ g) (h : a.equal b = true) :
    a.symbolLeaves = b.symbolLeaves := by
  refine equal_induction (P := fun a b => a.symbolLeaves = b.symbolLeaves) (fun _ _ => rfl) ?_ ha hb h
  intro a _ b _ hmatches
  cases hmatches with
  | constant => rfl
  | unary i j op child => exact child
  | binary i j op left right => rw [symbolLeaves, left, right, symbolLeaves]
  | der i j child => exact child
  | call i j function output args =>
      simp only [symbolLeaves, symbolLeavesOfAll_eq_flatMap, List.flatMap_def, map_eq_of_forall₂ args]
  | vertcat i j rows =>
      simp only [symbolLeaves, symbolLeavesOfAll_eq_flatMap, List.flatMap_def, map_eq_of_forall₂ rows]

theorem rowsOfAll_eq_sum (es : List Expr) : rowsOfAll es = (es.map rows).sum := by
  induction es with
  | nil => rfl
  | cons e es ih => rw [rowsOfAll, ih, List.map_cons, List.sum_cons]

theorem rows_eq_of_equal (ha : a ∈ g) (hb : b ∈ g) (h : a.equal b = true) : a.rows = b.rows := by
  refine equal_induction (P := fun a b => a.rows = b.rows) (fun _ _ => rfl) ?_ ha hb h
  intro a _ b _ hmatches
  cases hmatches with
  | vertcat i j rows => simp only [Expr.rows, rowsOfAll_eq_sum, map_eq_of_forall₂ rows]
  | _ => rfl

end Graph

/-- Comparing always comes to an answer. It says that two nodes of a graph are equal if they are one node,
    if they are constants that are equal as doubles, or if they are of one kind and carry the same over
    equally many children that are equal pair by pair. Even over constants that are no numbers this is an
    equivalence, and equal expressions have the same symbols in the same order and equally many rows. -/
theorem equal_structural (g : Graph) :
    (∀ a ∈ g, ∀ b ∈ g, a.equal b = true ↔ a = b ∨ Matches (fun c d => c.equal d = true) a b) ∧
    (∀ a ∈ g, a.equal a = true) ∧
    (∀ a ∈ g, ∀ b ∈ g, a.equal b = true → b.equal a = true) ∧
    (∀ a ∈ g, ∀ b ∈ g, ∀ c ∈ g, a.equal b = true → b.equal c = true → a.equal c = true) ∧
    ∀ a ∈ g, ∀ b ∈ g, a.equal b = true → a.symbols = b.symbols ∧ a.rows = b.rows := by
  refine ⟨?_, fun a _ => equal_refl a, fun a ha b hb => equal_symm ha hb,
    fun a ha b hb c hc => equal_trans ha hb hc, ?_⟩
  · intro a ha b hb
    have hid : a.id = b.id ↔ a = b := ⟨Graph.eq_of_id_eq ha hb, congrArg Expr.id⟩
    rw [equal_eq_true_iff, hid]
  · intro a ha b hb h
    refine ⟨?_, rows_eq_of_equal ha hb h⟩
    rw [symbols_eq_eraseDupsBy ha, symbols_eq_eraseDupsBy hb, symbolLeaves_eq_of_equal ha hb h]

/-- The node `i` is the sum of `x` and of the node `j`, a constant that is no number. -/
def noNumberSum (i j : NodeId) : Expr :=
  .binary i .add (.constant j (0.0 / 0.0)) (.symbol 4 "x")

/-- Two nodes over one constant that is no number, and a third over another. -/
def noNumberNodes : List Expr :=
  [.symbol 4 "x", .constant 5 (0.0 / 0.0), .constant 6 (0.0 / 0.0), noNumberSum 7 5, noNumberSum 8 5,
    noNumberSum 9 6]

def noNumberGraph : Graph :=
  .ofList noNumberNodes (by simp [noNumberNodes, noNumberSum, children]) (by decide)

/-- Sums that share a constant that is no number are equal, in either order and with the same symbol; a sum
    over another such constant equals neither. -/
theorem equal_structural_noNumber :
    (noNumberSum 7 5 ≠ noNumberSum 8 5 ∧ (noNumberSum 7 5).equal (noNumberSum 8 5) = true) ∧
    (noNumberSum 8 5).equal (noNumberSum 7 5) = true ∧
    ((noNumberSum 7 5).symbols = (noNumberSum 8 5).symbols ∧
      (noNumberSum 7 5).rows = (noNumberSum 8 5).rows) ∧
    (noNumberSum 7 5).equal (noNumberSum 9 6) = false := by
  rcases equal_structural noNumberGraph with ⟨hiff, hrefl, hsymm, -, hsame⟩
  have hnode {n : Expr} (h : n ∈ noNumberNodes) : n ∈ noNumberGraph := h
  have hx : symbol 4 "x" ∈ noNumberGraph := hnode (by simp [noNumberNodes])
  have hfive : constant 5 (0.0 / 0.0) ∈ noNumberGraph := hnode (by simp [noNumberNodes])
  have hsix : constant 6 (0.0 / 0.0) ∈ noNumberGraph := hnode (by simp [noNumberNodes])
  have h75 : noNumberSum 7 5 ∈ noNumberGraph := hnode (by simp [noNumberNodes])
  have h85 : noNumberSum 8 5 ∈ noNumberGraph := hnode (by simp [noNumberNodes])
  have h96 : noNumberSum 9 6 ∈ noNumberGraph := hnode (by simp [noNumberNodes])
  have hequal : (noNumberSum 7 5).equal (noNumberSum 8 5) = true :=
    (hiff _ h75 _ h85).2 (Or.inr (.binary 7 8 .add (hrefl _ hfive) (hrefl _ hx)))
  refine ⟨⟨by simp [noNumberSum], hequal⟩, hsymm _ h75 _ h85 hequal, hsame _ h75 _ h85 hequal, ?_⟩
  rw [Bool.eq_false_iff, ne_eq, hiff _ h75 _ h96]
  rintro (h | h)
  · simp [noNumberSum] at h
  · cases h with
    | binary _ _ _ left _ =>
        rcases (hiff _ hfive _ hsix).1 left with h | h
        · cases h
        · cases h with
          | constant _ _ value => exact absurd value (by decide)

end FlatDae.Expr
