/-
Module: FlatDae.Proofs.SymbolOccurrences
Purpose: The symbols of an expression as they stand in the tree that it unfolds to. The walk over the shared
  graph enters every node once, yet it lists the symbols in the order in which they first stand in the tree
  from left to right: when it skips a node, everything below that node has been seen. Substitution for
  symbols takes each of these leaves for the leaves of its replacement.
Main exports: Expr.symbolLeaves, Expr.SeenInOrder, Expr.symbols_eq_eraseDupsBy, Expr.find?_symbols,
  Expr.Shares.symbolLeaves_became, Expr.symbols_firstOccurrences
-/
import FlatDae.Proofs.SubstitutionSharing

namespace FlatDae.Expr

/-! ### The leaves of a tree -/

mutual

/-- The symbols at the leaves of the unfolded tree from left to right, each as often as it stands there. -/
def symbolLeaves : Expr → List Expr
  | .constant _ _ => []
  | .symbol id name => [.symbol id name]
  | .unary _ _ child => child.symbolLeaves
  | .binary _ _ left right => left.symbolLeaves ++ right.symbolLeaves
  | .der _ child => child.symbolLeaves
  | .call _ _ args _ => symbolLeavesOfAll args
  | .vertcat _ rows => symbolLeavesOfAll rows

/-- The leaves of all the trees one after the other. -/
def symbolLeavesOfAll : List Expr → List Expr
  | [] => []
  | e :: es => e.symbolLeaves ++ symbolLeavesOfAll es

end

theorem symbolLeavesOfAll_eq_flatMap (es : List Expr) : symbolLeavesOfAll es = es.flatMap symbolLeaves := by
  induction es with
  | nil => rfl
  | cons e es ih => rw [symbolLeavesOfAll, ih, List.flatMap_cons]

/-- A symbol is its own leaf. -/
theorem symbolLeaves_of_isSymbol {e : Expr} (h : e.isSymbol = true) : e.symbolLeaves = [e] := by
  cases e with
  | symbol id name => rfl
  | _ => cases h

/-- The leaves of any other node are those of its children. -/
theorem symbolLeaves_of_children {e : Expr} (h : e.isSymbol = false) :
    e.symbolLeaves = e.children.flatMap symbolLeaves := by
  cases e with
  | symbol id name => cases h
  | call id function args output => exact symbolLeavesOfAll_eq_flatMap args
  | vertcat id rows => exact symbolLeavesOfAll_eq_flatMap rows
  | _ => simp [symbolLeaves, children]

/-- Symbols have nothing below them. -/
theorem children_of_isSymbol {e : Expr} (h : e.isSymbol = true) : e.children = [] := by
  cases e with
  | symbol id name => rfl
  | _ => cases h

theorem within_iff {n e : Expr} : n.Within e ↔ n = e ∨ ∃ c ∈ e.children, n.Within c := by
  constructor
  · intro h
    cases h with
    | self => exact Or.inl rfl
    | deeper child within => exact Or.inr ⟨_, child, within⟩
  · rintro (rfl | ⟨c, hc, hn⟩)
    · exact .self n
    · exact .deeper hc hn

/-- The leaves are the symbols in the expression. -/
theorem mem_symbolLeaves {s : Expr} (e : Expr) : s ∈ e.symbolLeaves ↔ s.isSymbol = true ∧ s.Within e := by
  induction e using children_induction with
  | step e ih =>
      cases hsymbol : e.isSymbol with
      | true =>
          rw [symbolLeaves_of_isSymbol hsymbol, List.mem_singleton, within_iff, children_of_isSymbol hsymbol]
          constructor
          · rintro rfl
            exact ⟨hsymbol, Or.inl rfl⟩
          · rintro ⟨-, rfl | ⟨c, hc, -⟩⟩
            · rfl
            · cases hc
      | false =>
          rw [symbolLeaves_of_children hsymbol, List.mem_flatMap, within_iff]
          constructor
          · rintro ⟨c, hc, hs⟩
            have hwithin := (ih c hc).1 hs
            exact ⟨hwithin.1, Or.inr ⟨c, hc, hwithin.2⟩⟩
          · rintro ⟨hs, rfl | ⟨c, hc, hwithin⟩⟩
            · rw [hsymbol] at hs
              cases hs
            · exact ⟨c, hc, (ih c hc).2 ⟨hs, hwithin⟩⟩

/-! ### The order of the walk -/

/-- What stands in two lists together stands in the second or in the first. -/
theorem append_eq_append_cons {α : Type} {as bs before after : List α} {a : α}
    (h : as ++ bs = before ++ a :: after) :
    (∃ later, before = as ++ later ∧ bs = later ++ a :: after) ∨ ∃ others, as = before ++ a :: others := by
  rcases List.append_eq_append_iff.1 h with ⟨later, hbefore, hbs⟩ | ⟨middle, has, hmiddle⟩
  · exact Or.inl ⟨later, hbefore, hbs⟩
  · cases middle with
    | nil => exact Or.inl ⟨[], by simp [has], by simp [hmiddle]⟩
    | cons a' others =>
        rw [List.cons_append, List.cons.injEq] at hmiddle
        exact Or.inr ⟨others, by rw [has, hmiddle.1]⟩

/-- What the walk has seen half way through. If a node of a pending expression is seen, then everything below
    it is seen or is still to come in an expression that is pending earlier. -/
structure SeenInOrder (g : Graph) (pending : List Expr) (seen : Std.HashSet NodeId) : Prop where
  pending_mem : ∀ e ∈ pending, e ∈ g
  settled : ∀ (before : List Expr) (e : Expr) (after : List Expr), pending = before ++ e :: after →
    ∀ n : Expr, n.Within e → n.id ∈ seen → ∀ m : Expr, m.Within n → m.id ∈ seen ∨ ∃ b ∈ before, m.Within b

namespace SeenInOrder

variable {g : Graph} {e : Expr} {rest : List Expr} {seen : Std.HashSet NodeId}

theorem start (he : e ∈ g) : SeenInOrder g [e] ∅ where
  pending_mem := by simpa using he
  settled := fun _ _ _ _ _ _ hseen => absurd hseen Std.HashSet.not_mem_empty

/-- Of the first pending expression, a node that is seen has everything below it seen. -/
theorem below_seen (inv : SeenInOrder g (e :: rest) seen) {n : Expr} (hn : n.Within e)
    (hseen : n.id ∈ seen) {m : Expr} (hm : m.Within n) : m.id ∈ seen :=
  (inv.settled [] e rest rfl n hn hseen m hm).resolve_right (by simp)

theorem skip (inv : SeenInOrder g (e :: rest) seen) (hseen : e.id ∈ seen) : SeenInOrder g rest seen where
  pending_mem := fun n hn => inv.pending_mem n (List.mem_cons_of_mem _ hn)
  settled := by
    intro before x after hsplit n hn hnseen m hm
    rcases inv.settled (e :: before) x after (by rw [hsplit]; rfl) n hn hnseen m hm with hmseen | ⟨b, hb, hmb⟩
    · exact Or.inl hmseen
    · rcases List.mem_cons.1 hb with rfl | hbefore
      · exact Or.inl (inv.below_seen (.self b) hseen hmb)
      · exact Or.inr ⟨b, hbefore, hmb⟩

theorem enter (inv : SeenInOrder g (e :: rest) seen) :
    SeenInOrder g (e.children ++ rest) (seen.insert e.id) := by
  have he : e ∈ g := inv.pending_mem e List.mem_cons_self
  have hrest {x : Expr} (hx : x ∈ rest) : x ∈ g := inv.pending_mem x (List.mem_cons_of_mem _ hx)
  have hchild {x : Expr} (hx : x ∈ e.children) : x ∈ g := Graph.mem_children he hx
  -- below `e` there is `e` itself, which is seen from now on, and what its children are still to bring
  have hbelow {m : Expr} (hm : m.Within e) : m.id ∈ seen.insert e.id ∨ ∃ b ∈ e.children, m.Within b := by
    rcases within_iff.1 hm with rfl | hdeeper
    · exact Or.inl Std.HashSet.mem_insert_self
    · exact Or.inr hdeeper
  have hkept {i : NodeId} (hi : i ∈ seen) : i ∈ seen.insert e.id := Std.HashSet.mem_insert.2 (Or.inr hi)
  refine ⟨fun x hx => (List.mem_append.1 hx).elim hchild hrest, ?_⟩
  intro before x after hsplit n hn hnseen m hm
  rcases append_eq_append_cons hsplit with ⟨later, rfl, hlater⟩ | ⟨others, hchildren⟩
  · -- `x` is pending behind the children of `e`
    have hx : x ∈ rest := by simp [hlater]
    have hearlier (hme : m.Within e) :
        m.id ∈ seen.insert e.id ∨ ∃ b ∈ e.children ++ later, m.Within b :=
      (hbelow hme).imp_right fun ⟨b, hb, hmb⟩ => ⟨b, List.mem_append_left _ hb, hmb⟩
    rcases Std.HashSet.mem_insert.1 hnseen with hid | hold
    · have hsame : e = n := Graph.eq_of_id_eq he (Graph.mem_of_within (hrest hx) hn) (by simpa using hid)
      exact hearlier (hsame ▸ hm)
    · rcases inv.settled (e :: later) x after (by rw [hlater]; rfl) n hn hold m hm with hmseen | ⟨b, hb, hmb⟩
      · exact Or.inl (hkept hmseen)
      · rcases List.mem_cons.1 hb with rfl | hb
        · exact hearlier hmb
        · exact Or.inr ⟨b, List.mem_append_right _ hb, hmb⟩
  · -- `x` is a child of `e`, and `e` does not lie below it
    have hx : x ∈ e.children := by simp [hchildren]
    rcases Std.HashSet.mem_insert.1 hnseen with hid | hold
    · have hsame : e = n := Graph.eq_of_id_eq he (Graph.mem_of_within (hchild hx) hn) (by simpa using hid)
      exact absurd (hsame ▸ hn).sizeOf_le (Nat.not_le.2 (sizeOf_lt_of_mem_children hx))
    · exact Or.inl (hkept (inv.below_seen (hn.trans (.child hx)) hold hm))

end SeenInOrder

/-- The walk goes on with the leaves not seen yet, each at its first occurrence. -/
theorem foldNodes_collectSymbol {g : Graph} (pending : List Expr) (seen : Std.HashSet NodeId)
    (found : Array Expr) (inv : SeenInOrder g pending seen) :
    (foldNodes collectSymbol pending seen found).toList = found.toList ++
      ((pending.flatMap symbolLeaves).filter fun s => !seen.contains s.id).eraseDupsBy same := by
  fun_induction foldNodes collectSymbol pending seen found with
  | case1 => simp
  | case2 e rest seen found hseen ih =>
      have hleaves : e.symbolLeaves.filter (fun s => !seen.contains s.id) = [] := by
        rw [List.filter_eq_nil_iff]
        intro s hs
        simpa using inv.below_seen (.self e) hseen ((mem_symbolLeaves e).1 hs).2
      rw [ih (inv.skip hseen), List.flatMap_cons, List.filter_append, hleaves, List.nil_append]
  | case3 e rest seen found hnew ih =>
      have he : e ∈ g := inv.pending_mem e List.mem_cons_self
      rw [ih inv.enter]
      cases hsymbol : e.isSymbol with
      | true =>
          rw [collectSymbol, if_pos hsymbol, children_of_isSymbol hsymbol, List.flatMap_cons,
            symbolLeaves_of_isSymbol hsymbol]
          have hlater (s : Expr) : (!(seen.insert e.id).contains s.id) =
              (decide (s.same e = false) && !seen.contains s.id) := by
            simp only [Std.HashSet.contains_insert, same]
            grind
          rw [List.singleton_append, List.filter_cons, if_pos (by simpa using hnew), List.eraseDupsBy_cons,
            List.filter_filter, List.filter_congr fun s _ => hlater s]
          simp
      | false =>
          -- no leaf is the node that has been entered
          have hleaf : ∀ s ∈ (e.children ++ rest).flatMap symbolLeaves, s.id ≠ e.id := by
            intro s hs hid
            rcases List.mem_flatMap.1 hs with ⟨c, hc, hsc⟩
            rcases (mem_symbolLeaves c).1 hsc with ⟨hs, hwithin⟩
            have hc := inv.enter.pending_mem c hc
            rw [Graph.eq_of_id_eq (Graph.mem_of_within hc hwithin) he hid, hsymbol] at hs
            cases hs
          rw [collectSymbol, if_neg (by simp [hsymbol]), List.flatMap_cons, symbolLeaves_of_children hsymbol,
            ← List.flatMap_append]
          congr 2
          refine List.filter_congr fun s hs => ?_
          simp [Std.HashSet.contains_insert, (hleaf s hs).symm]

/-- The symbols are the leaves of the tree, each at its first occurrence. -/
theorem symbols_eq_eraseDupsBy {g : Graph} {e : Expr} (he : e ∈ g) :
    e.symbols = e.symbolLeaves.eraseDupsBy same := by
  have h := foldNodes_collectSymbol [e] ∅ #[] (.start he)
  simpa [symbols] using h

/-- What is looked for is found first where it first stands, if it is the same for related members. -/
theorem find?_eraseDupsBy {α : Type} {r : α → α → Bool} {p : α → Bool} (as : List α)
    (h : ∀ a ∈ as, ∀ b ∈ as, r a b = true → p a = p b) : (as.eraseDupsBy r).find? p = as.find? p := by
  induction hlength : as.length using Nat.strongRecOn generalizing as with
  | ind length ih =>
      cases as with
      | nil => simp
      | cons a as =>
          rw [List.eraseDupsBy_cons]
          cases hp : p a with
          | true => rw [List.find?_cons_of_pos hp, List.find?_cons_of_pos hp]
          | false =>
              rw [List.find?_cons_of_neg (by simp [hp]), List.find?_cons_of_neg (by simp [hp])]
              have hsmaller : (as.filter fun b => decide (r b a = false)).length < length :=
                hlength ▸ Nat.lt_succ_of_le (List.length_filter_le _ as)
              rw [ih _ hsmaller _ ?_ rfl, List.find?_filter]
              · -- what is left out is related to `a`, which is not looked for
                refine List.find?_congr fun b hb => ?_
                cases hrelated : r b a with
                | false => simp
                | true => simp [h b (List.mem_cons_of_mem _ hb) a List.mem_cons_self hrelated, hp]
              · intro b hb c hc
                exact h b (List.mem_cons_of_mem _ (List.mem_filter.1 hb).1) c
                  (List.mem_cons_of_mem _ (List.mem_filter.1 hc).1)

/-- The first symbol of some kind is the first such leaf. -/
theorem find?_symbols {g : Graph} {e : Expr} (he : e ∈ g) (p : Expr → Bool) :
    e.symbols.find? p = e.symbolLeaves.find? p := by
  rw [symbols_eq_eraseDupsBy he]
  refine find?_eraseDupsBy _ fun a ha b hb hsame => ?_
  have hnode {s : Expr} (hs : s ∈ e.symbolLeaves) : s ∈ g :=
    Graph.mem_of_within he ((mem_symbolLeaves e).1 hs).2
  rw [Graph.eq_of_id_eq (hnode ha) (hnode hb) (by simpa [same] using hsame)]

/-! ### Substitution for symbols -/

theorem Alike.isSymbol_eq {e t : Expr} (h : Alike e t) : t.isSymbol = e.isSymbol := by
  cases h <;> rfl

/-- When symbols are replaced, every leaf becomes the leaves of its replacement. -/
theorem Shares.symbolLeaves_became {r : Replacements} {g after : Graph} {e : Expr} {became : Expr → Expr}
    {made : List Expr} {start supply : Supply} (h : Shares r g after e became made start supply)
    (hsources : ∀ n t, Reached r n e → r[n.id]? = some t → n.isSymbol = true) (n : Expr)
    (hn : Reached r n e) :
    (became n).symbolLeaves = n.symbolLeaves.flatMap fun s => (r[s.id]?.getD s).symbolLeaves := by
  induction n using children_induction with
  | step n ih =>
      cases hknown : r[n.id]? with
      | some t =>
          rw [h.target n t hn hknown, symbolLeaves_of_isSymbol (hsources n t hn hknown),
            List.flatMap_singleton, hknown, Option.getD_some]
      | none =>
          rcases h.rebuilt n hn hknown with ⟨halike, hchildren⟩
          cases hsymbol : n.isSymbol with
          | true =>
              have hsame : became n = n := by
                refine (h.same_iff n hn).2 fun m t hm hm' => ?_
                cases hm with
                | self => simp [hknown] at hm'
                | deeper _ child => simp [children_of_isSymbol hsymbol] at child
              rw [hsame, symbolLeaves_of_isSymbol hsymbol, List.flatMap_singleton, hknown, Option.getD_none,
                symbolLeaves_of_isSymbol hsymbol]
          | false =>
              rw [symbolLeaves_of_children (halike.isSymbol_eq.trans hsymbol), hchildren,
                symbolLeaves_of_children hsymbol, List.flatMap_map, List.flatMap_assoc]
              refine List.flatMap_congr fun c hc => ?_
              exact ih c hc ((Reached.deeper hknown hc (.self c)).trans hn)

section Lists

variable {sources targets : List Expr} {r : Replacements} {g : Graph} {n : Expr}

/-- Of a graph just the sources are replaced. -/
theorem getElem?_eq_none_iff (h : Replacements.ofLists? sources targets = some r)
    (hlength : sources.length = targets.length) (hsources : ∀ n ∈ sources, n ∈ g) (hn : n ∈ g) :
    r[n.id]? = none ↔ n ∉ sources := by
  constructor
  · intro hunknown hmem
    rw [← List.map_fst_zip (Nat.le_of_eq hlength), List.mem_map] at hmem
    rcases hmem with ⟨p, hp, rfl⟩
    rw [ofLists?_getElem? h, Option.map_eq_none_iff, List.find?_eq_none] at hunknown
    exact hunknown p (List.mem_reverse.2 hp) (beq_self_eq_true _)
  · intro hnot
    cases hknown : r[n.id]? with
    | none => rfl
    | some t =>
        rcases exists_source h hknown with ⟨a, ha, hid⟩
        exact absurd (Graph.eq_of_id_eq (hsources a ha) hn hid ▸ ha) hnot

/-- The leaves that stand in the place of a symbol: the symbol itself or the symbols of its replacement. -/
theorem mem_leaves_replaced_iff (h : Replacements.ofLists? sources targets = some r)
    (hlength : sources.length = targets.length) (hsources : ∀ n ∈ sources, n ∈ g)
    (htargets : ∀ n ∈ targets, n ∈ g) (hn : n ∈ g) (hsymbol : n.isSymbol = true) (s : Expr) :
    s ∈ (r[n.id]?.getD n).symbolLeaves ↔ (s = n ∧ n ∉ sources) ∨
      ∃ target, LastBeside sources targets n target ∧ s ∈ target.symbols := by
  have hknown_iff := ofLists?_eq_some_iff h n
  rw [← getElem?_eq_none_iff h hlength hsources hn]
  simp only [← hknown_iff]
  cases hknown : r[n.id]? with
  | none => simp [symbolLeaves_of_isSymbol hsymbol]
  | some t => simp [mem_symbolLeaves, mem_symbols (htargets t (mem_targets h hknown))]

end Lists

section Occurrences

variable {g : Graph} {e : Expr}

theorem dependsOn_iff (he : e ∈ g) {s : Expr} (hs : s ∈ g) : e.dependsOn s = true ↔ s ∈ e.symbols := by
  simp only [dependsOn, same, List.any_eq_true, beq_iff_eq]
  constructor
  · rintro ⟨n, hn, hid⟩
    have hnode := Graph.mem_of_within he ((mem_symbols he).1 hn).2
    exact Graph.eq_of_id_eq hnode hs hid ▸ hn
  · exact fun hmem => ⟨s, hmem, rfl⟩

/-- What substituting for symbols makes of the symbols: each leads to those that stand in its place. -/
theorem exists_substitute_symbols (he : e ∈ g) {sources targets : List Expr} {supply : Supply}
    {r : Replacements} (hr : Replacements.ofLists? sources targets = some r)
    (hsources : ∀ n ∈ sources, n ∈ g ∧ n.isSymbol = true) (htargets : ∀ n ∈ targets, n ∈ g)
    (hbelow : g.Below supply) : ∃ t supply', e.substitute? r supply = some (t, supply') ∧
      ∀ s, s ∈ t.symbols ↔ ∃ n ∈ e.symbols, s ∈ (r[n.id]?.getD n).symbolLeaves := by
  have hknown {n t : Expr} (ht : r[n.id]? = some t) : t ∈ g := htargets t (mem_targets hr ht)
  rcases substitute?_shares he (fun n _ t ht => hknown ht) hbelow with
    ⟨became, made, supply', after, hrun, -, hafter, -, hshares⟩
  have hreplaced : ∀ n t, Reached r n e → r[n.id]? = some t → n.isSymbol = true := by
    intro n t hn ht
    rcases exists_source hr ht with ⟨a, ha, hid⟩
    rw [← Graph.eq_of_id_eq (hsources a ha).1 (Graph.mem_of_within he hn.within) hid]
    exact (hsources a ha).2
  refine ⟨became e, supply', hrun, fun s => ?_⟩
  rw [mem_symbols hafter, ← mem_symbolLeaves, hshares.symbolLeaves_became hreplaced e (.self e),
    List.mem_flatMap]
  simp only [mem_symbols he, mem_symbolLeaves]

/-- The symbols are the leaves of the unfolded tree from left to right, each node at its first occurrence,
    and the expression depends on just these. Substituting for symbols leaves the symbols that are not
    replaced, and brings those of the replacements of the symbols that occur; the last entry for a symbol
    counts. -/
theorem symbols_firstOccurrences (he : e ∈ g) :
    e.symbols = e.symbolLeaves.eraseDupsBy same ∧
    (∀ s ∈ g, e.dependsOn s = true ↔ s ∈ e.symbols) ∧
    ∀ (sources targets : List Expr) (supply : Supply), sources.length = targets.length →
      (∀ n ∈ sources, n ∈ g ∧ n.isSymbol = true) → (∀ n ∈ targets, n ∈ g) → g.Below supply →
      ∃ r t supply', Replacements.ofLists? sources targets = some r ∧
        e.substitute? r supply = some (t, supply') ∧
        ∀ s, s ∈ t.symbols ↔ (s ∈ e.symbols ∧ s ∉ sources) ∨
          ∃ n target, n ∈ e.symbols ∧ LastBeside sources targets n target ∧ s ∈ target.symbols := by
  refine ⟨symbols_eq_eraseDupsBy he, fun s hs => dependsOn_iff he hs, ?_⟩
  intro sources targets supply hlength hsources htargets hbelow
  have hlists : ∃ r, Replacements.ofLists? sources targets = some r := by
    simp [Replacements.ofLists?, hlength]
  rcases hlists with ⟨r, hr⟩
  rcases exists_substitute_symbols he hr hsources htargets hbelow with ⟨t, supply', hrun, hsymbols⟩
  refine ⟨r, t, supply', hr, hrun, fun s => ?_⟩
  have hplace {n : Expr} (hn : n ∈ e.symbols) :=
    mem_leaves_replaced_iff hr hlength (fun n hn => (hsources n hn).1) htargets
      (Graph.mem_of_within he ((mem_symbols he).1 hn).2) ((mem_symbols he).1 hn).1 s
  rw [hsymbols]
  constructor
  · rintro ⟨n, hn, hs⟩
    rcases (hplace hn).1 hs with ⟨rfl, hnot⟩ | ⟨target, hbeside, hs⟩
    · exact Or.inl ⟨hn, hnot⟩
    · exact Or.inr ⟨n, target, hn, hbeside, hs⟩
  · rintro (⟨hs, hnot⟩ | ⟨n, target, hn, hbeside, hs⟩)
    · exact ⟨s, hs, (hplace hs).2 (Or.inl ⟨rfl, hnot⟩)⟩
    · exact ⟨n, hn, (hplace hn).2 (Or.inr ⟨target, hbeside, hs⟩)⟩

end Occurrences

/-- The quotient `(x + y) * (x + y) / sin(y)` has the symbols `x` and `y` in this order, though `y` stands
    in it five times. When `x` is to become `y` and, in a later entry, `z`, it is left with `y` and `z`. -/
theorem symbols_firstOccurrences_quotient :
    quotientOver 8 (.symbol 4 "x") ∈ quotientGraph ∧ quotientGraph.Below { next := 11 } ∧
    (quotientOver 8 (.symbol 4 "x")).symbols = [.symbol 4 "x", .symbol 5 "y"] ∧
    ((quotientOver 8 (.symbol 4 "x")).dependsOn (.symbol 6 "z") = true ↔
      symbol 6 "z" ∈ (quotientOver 8 (.symbol 4 "x")).symbols) ∧
    ∃ r t supply',
      Replacements.ofLists? [.symbol 4 "x", .symbol 4 "x"] [.symbol 5 "y", .symbol 6 "z"] = some r ∧
      (quotientOver 8 (.symbol 4 "x")).substitute? r { next := 11 } = some (t, supply') ∧
      ∀ s, s ∈ t.symbols ↔ s = .symbol 5 "y" ∨ s = .symbol 6 "z" := by
  have hnode {n : Expr} (h : n ∈ quotientNodes) : n ∈ quotientGraph := h
  have hmem : quotientOver 8 (.symbol 4 "x") ∈ quotientGraph := hnode (by simp [quotientNodes])
  have hbelow : quotientGraph.Below { next := 11 } := by
    change ∀ n ∈ quotientNodes, n.id < 11
    decide
  rcases symbols_firstOccurrences hmem with ⟨hsymbols, hdepends, hsubstitute⟩
  have hlist : (quotientOver 8 (.symbol 4 "x")).symbols = [.symbol 4 "x", .symbol 5 "y"] := hsymbols.trans rfl
  rcases hsubstitute [.symbol 4 "x", .symbol 4 "x"] [.symbol 5 "y", .symbol 6 "z"] { next := 11 } rfl
    (fun n hn => by simp at hn; exact ⟨hnode (by simp [quotientNodes, hn]), by simp [hn, isSymbol]⟩)
    (fun n hn => hnode (by simp at hn; rcases hn with rfl | rfl <;> simp [quotientNodes])) hbelow with
    ⟨r, t, supply, hr, hrun, hmem_iff⟩
  refine ⟨hmem, hbelow, hlist, hdepends _ (hnode (by simp [quotientNodes])), r, t, supply, hr, hrun, ?_⟩
  have hbeside : LastBeside [.symbol 4 "x", .symbol 4 "x"] [.symbol 5 "y", .symbol 6 "z"] (.symbol 4 "x")
      (.symbol 6 "z") := ⟨[(.symbol 4 "x", .symbol 5 "y")], .symbol 4 "x", [], rfl, rfl, by simp⟩
  have hlast := (ofLists?_eq_some_iff hr (.symbol 4 "x") (.symbol 6 "z")).2 hbeside
  intro s
  rw [hmem_iff, hlist]
  constructor
  · rintro (⟨hs, hnot⟩ | ⟨n, target, hn, hother, hs⟩)
    · exact Or.inl (by simpa using (List.mem_cons.1 hs).resolve_left fun h => hnot (by simp [h]))
    · have hknown := (ofLists?_eq_some_iff hr n target).2 hother
      rcases exists_source hr hknown with ⟨a, ha, hid⟩
      have hfour : n.id = 4 := by
        rw [← hid]
        rcases (by simpa using ha : a = .symbol 4 "x") with rfl
        rfl
      rw [hfour] at hknown
      obtain rfl : target = .symbol 6 "z" := Option.some.inj (hknown.symm.trans hlast)
      exact Or.inr (by simpa using hs)
  · rintro (rfl | rfl)
    · exact Or.inl (by simp)
    · exact Or.inr ⟨_, _, by simp, hbeside, by simp⟩

end FlatDae.Expr
