/-
Module: FlatDae.Proofs.SubstitutionSharing
Purpose: What substitution does to the nodes of a graph, node by node. Every node that is reached becomes
  one node, however often it occurs: its replacement, itself if nothing below it is exchanged for another
  node, and otherwise a node made for it alone. All nodes that were there stay what they were. When no
  node to be replaced occurs in a replacement, a second substitution therefore finds nothing to do.
Main exports: Expr.LastBeside, Expr.Shares, Expr.substitute?_shares, Expr.substitute?_sharing
-/
import FlatDae.Proofs.SubstitutionGraph
import Mathlib

namespace FlatDae.Expr

/-- `t` stands beside the last of the sources that is the node `n`. -/
def LastBeside (sources targets : List Expr) (n t : Expr) : Prop :=
  ∃ before source after, sources.zip targets = before ++ (source, t) :: after ∧ source.id = n.id ∧
    ∀ p ∈ after, p.1.id ≠ n.id

/-- Of several entries for one node the last counts. -/
theorem ofLists?_eq_some_iff {sources targets : List Expr} {r : Replacements}
    (h : Replacements.ofLists? sources targets = some r) (n t : Expr) :
    r[n.id]? = some t ↔ LastBeside sources targets n t := by
  rw [ofLists?_getElem? h, Option.map_eq_some_iff]
  constructor
  · rintro ⟨⟨source, t⟩, hfind, rfl⟩
    rcases List.find?_eq_some_iff_append.1 hfind with ⟨hid, front, back, hsplit, hfront⟩
    refine ⟨back.reverse, source, front.reverse, ?_, by simpa using hid, fun p hp => ?_⟩
    · rw [← List.reverse_reverse (sources.zip targets), hsplit]
      simp
    · simpa using hfront p (List.mem_reverse.1 hp)
  · rintro ⟨before, source, after, hsplit, hid, hafter⟩
    refine ⟨(source, t), List.find?_eq_some_iff_append.2 ⟨by simpa using hid, after.reverse, before.reverse,
      by simp [hsplit], fun p hp => ?_⟩, rfl⟩
    simpa using hafter p (List.mem_reverse.1 hp)

/-- What substitution in the expression `e` of the graph `g` does: `became` says what has become of every
    node, `made` lists the nodes for which a new one was made, and `after` is the graph then. In it a node
    is the very node it was exactly if it is equal to it, since no two nodes share an identity. -/
structure Shares (r : Replacements) (g after : Graph) (e : Expr) (became : Expr → Expr) (made : List Expr)
    (start supply : Supply) : Prop where
  target : ∀ n t, Reached r n e → r[n.id]? = some t → became n = t
  rebuilt : ∀ n, Reached r n e → r[n.id]? = none →
    Alike n (became n) ∧ (became n).children = n.children.map became
  same_iff : ∀ n, Reached r n e →
    (became n = n ↔ ∀ m t, Reached r m n → r[m.id]? = some t → t = m)
  made_iff : ∀ n, n ∈ made ↔ Reached r n e ∧ r[n.id]? = none ∧ became n ≠ n
  nodup : made.Nodup
  after_iff : ∀ n, n ∈ after ↔ n ∈ g ∨ ∃ m ∈ made, became m = n
  identities : made.map (fun n => (became n).id) = List.range' start.next made.length
  supply_eq : supply.next = start.next + made.length

section Walk

variable {r : Replacements} {g after : Graph} {start supply : Supply} {e : Expr}
  {done : Std.HashMap NodeId Expr} {made : List Expr}

/-- What the walk has recorded for a node, and the node itself if that is nothing. -/
def recorded (done : Std.HashMap NodeId Expr) (n : Expr) : Expr := done[n.id]?.getD n

theorem getElem?_eq_recorded {n : Expr} (h : n.id ∈ done) : done[n.id]? = some (recorded done n) := by
  simp [recorded, h]

/-- Children that are all recorded have become what is recorded for them. -/
theorem eq_map_recorded {cs ds : List Expr} (h : List.Forall₂ (fun c d => done[c.id]? = some d) cs ds) :
    ds = cs.map (recorded done) := by
  induction h with
  | nil => rfl
  | cons hhead _ ih => rw [List.map_cons, ← ih, recorded, hhead, Option.getD_some]

/-- What is recorded for a node is what has become of it. -/
theorem Rewriting.became_recorded (inv : Rewriting r g g after start done made supply) {n : Expr}
    (hn : n ∈ g) (hdone : n.id ∈ done) :
    recorded done n ∈ after ∧ Became r done made n (recorded done n) :=
  inv.results n hn _ (getElem?_eq_recorded hdone)

/-- A node stays what it is exactly if no node reached from it is exchanged for another. -/
theorem Rewriting.recorded_eq_iff (inv : Rewriting r g g after start done made supply)
    (hdone : ∀ n ∈ g, n.id ∈ done ↔ Reached r n e) (n : Expr) (hn : n ∈ g) (hreached : Reached r n e) :
    recorded done n = n ↔ ∀ m t, Reached r m n → r[m.id]? = some t → t = m := by
  induction n using children_induction with
  | step n ih =>
      have hbecame := (inv.became_recorded hn ((hdone n hn).2 hreached)).2
      generalize recorded done n = t at hbecame
      cases hbecame with
      | target known =>
          constructor
          · rintro rfl m t hm hknown
            rw [hm.eq_of_known known, known] at hknown
            rw [hm.eq_of_known known, Option.some.inj hknown]
          · exact fun h => h n t (.self n) known
      | rebuilt unknown alike children new =>
          have hchildren := eq_map_recorded children
          have hchild : ∀ c ∈ n.children, recorded done c = c ↔
              ∀ m t, Reached r m c → r[m.id]? = some t → t = m := fun c hc =>
            ih c hc (Graph.mem_children hn hc) ((Reached.deeper unknown hc (.self c)).trans hreached)
          -- nothing is exchanged below `n` exactly if nothing is exchanged below a child
          have hbelow : (∀ m t, Reached r m n → r[m.id]? = some t → t = m) ↔ t.children = n.children := by
            have hsame : n.children.map (recorded done) = n.children ↔
                ∀ c ∈ n.children, recorded done c = c := by
              simpa using List.map_inj_left (f := recorded done) (g := fun c => c)
            rw [hchildren, hsame]
            constructor
            · exact fun h c hc => (hchild c hc).2 fun m t hm => h m t (.deeper unknown hc hm)
            · intro h m t hm hknown
              cases hm with
              | self => simp [unknown] at hknown
              | deeper _ child reached => exact (hchild _ child).1 (h _ child) m t reached hknown
          rw [hbelow]
          rcases new with rfl | ⟨hchanged, -⟩
          · simp
          · exact ⟨fun h => absurd (h ▸ rfl) hchanged, fun h => absurd h hchanged⟩

/-- Substitution in an expression of a graph makes one node of every node that it reaches. -/
theorem substitute?_shares (he : e ∈ g) (htargets : ∀ n ∈ g, ∀ t, r[n.id]? = some t → t ∈ g)
    (hbelow : g.Below start) :
    ∃ became made supply after, e.substitute? r start = some (became e, supply) ∧ Replaced r e (became e) ∧
      became e ∈ after ∧ after.Below supply ∧ Shares r g after e became made start supply := by
  rcases substitute?_rewriting he (fun _ h => h) htargets hbelow with
    ⟨t, done, made, supply, after, hrun, ht, inv, hdone⟩
  have hrecorded : recorded done e = t := by simp [recorded, ht]
  have hg {n : Expr} (hn : Reached r n e) : n ∈ g := Graph.mem_of_within he hn.within
  have hresult {n : Expr} (hn : Reached r n e) := inv.became_recorded (hg hn) ((hdone n (hg hn)).2 hn)
  have hmade {n : Expr} (hn : n ∈ made) : start.next ≤ (recorded done n).id := by
    rcases inv.exists_made hn with ⟨t, ht, hid⟩
    simpa [recorded, ht] using hid
  refine ⟨recorded done, made, supply, after, by rw [hrecorded, hrun], ?_, ?_, inv.below, ?_, ?_, ?_, ?_,
    inv.nodup, ?_, ?_, inv.supply_eq⟩
  · exact hrecorded ▸ inv.replaced e he ht
  · exact hrecorded ▸ (inv.results e he t ht).1
  · intro n t hn hknown
    have hbecame := (hresult hn).2
    generalize recorded done n = d at hbecame
    cases hbecame with
    | target known => exact Option.some.inj (known.symm.trans hknown)
    | rebuilt unknown => simp [unknown] at hknown
  · intro n hn hunknown
    have hbecame := (hresult hn).2
    generalize recorded done n = d at hbecame
    cases hbecame with
    | target known => simp [known] at hunknown
    | rebuilt _ alike children _ => exact ⟨alike, eq_map_recorded children⟩
  · exact fun n hn => inv.recorded_eq_iff hdone n (hg hn) hn
  · intro n
    constructor
    · intro hn
      have hreached := (hdone n (inv.made_mem n hn)).1 (inv.made_done hn)
      have hnew := hmade hn
      refine ⟨hreached, ?_, ?_⟩
      · -- a replacement is an old node, and the node made is a new one
        cases hknown : r[n.id]? with
        | none => rfl
        | some t =>
            have hbecame := (hresult hreached).2
            generalize recorded done n = d at hbecame hnew
            cases hbecame with
            | target known => exact absurd (hbelow d (htargets n (hg hreached) d known)) (Nat.not_lt.2 hnew)
            | rebuilt unknown => simp [unknown] at hknown
      · intro hsame
        rw [hsame] at hnew
        exact absurd (hbelow n (hg hreached)) (Nat.not_lt.2 hnew)
    · rintro ⟨hreached, hunknown, hchanged⟩
      have hbecame := (hresult hreached).2
      generalize recorded done n = d at hbecame hchanged
      cases hbecame with
      | target known => simp [known] at hunknown
      | rebuilt _ _ _ new => exact (new.resolve_left hchanged).2
  · intro n
    rw [inv.after_iff]
    refine or_congr_right (exists_congr fun m => and_congr_right fun hm => ?_)
    rw [getElem?_eq_recorded (inv.made_done hm), Option.some.injEq]
  · apply List.map_injective_iff.2 fun _ _ => Option.some.inj
    rw [← inv.identities, List.map_map]
    refine List.map_congr_left fun n hn => ?_
    rw [getElem?_eq_recorded (inv.made_done hn)]
    rfl

end Walk

/-! ### Substituting again -/

section Again

variable {r : Replacements} {g after : Graph} {start supply : Supply} {e : Expr} {became : Expr → Expr}
  {made : List Expr}

/-- One node at most is made of each, so no more are made than the expression has. -/
theorem Shares.length_le (h : Shares r g after e became made start supply) (he : e ∈ g) :
    made.length ≤ e.nodeList.length := by
  have hnodes : made ⊆ e.nodeList := fun n hn => (mem_nodeList he).2 ((h.made_iff n).1 hn).1.within
  exact (List.subperm_of_subset h.nodup hnodes).length_le

/-- The nodes to be replaced are nodes of the graph, and there is none of them in a replacement. -/
structure Apart (r : Replacements) (g : Graph) : Prop where
  sources : ∀ (i : NodeId) (t : Expr), r[i]? = some t → ∃ n ∈ g, n.id = i
  apart : ∀ (i : NodeId) (t : Expr), r[i]? = some t → ∀ m, Within m t → r[m.id]? = none

/-- After the substitution there is nothing left to be replaced. -/
theorem Shares.unknown_of_within (h : Shares r g after e became made start supply) (hapart : Apart r g)
    (hbelow : g.Below start) (n : Expr) (hn : Reached r n e) {m : Expr} (hm : m.Within (became n)) :
    r[m.id]? = none := by
  induction n using children_induction generalizing m with
  | step n ih =>
      cases hknown : r[n.id]? with
      | some t =>
          rw [h.target n t hn hknown] at hm
          exact hapart.apart _ t hknown m hm
      | none =>
          cases hm with
          | self =>
              by_cases hsame : became n = n
              · rw [hsame, hknown]
              · -- a node was made, and no identity to be replaced is a new one
                have hid : (became n).id ∈ made.map fun n => (became n).id :=
                  List.mem_map.2 ⟨n, (h.made_iff n).2 ⟨hn, hknown, hsame⟩, rfl⟩
                rw [h.identities, List.mem_range'_1] at hid
                cases hreplaced : r[(became n).id]? with
                | none => rfl
                | some t =>
                    rcases hapart.sources _ t hreplaced with ⟨a, ha, haid⟩
                    exact absurd (haid ▸ hbelow a ha) (Nat.not_lt.2 hid.1)
          | deeper child within =>
              rw [(h.rebuilt n hn hknown).2] at child
              rcases List.mem_map.1 child with ⟨c, hc, rfl⟩
              exact ih c hc ((Reached.deeper hknown hc (.self c)).trans hn) within

/-- Nothing is made where nothing is replaced. -/
theorem substitute?_of_unknown (he : e ∈ g) (htargets : ∀ n ∈ g, ∀ t, r[n.id]? = some t → t ∈ g)
    (hbelow : g.Below start) (hunknown : ∀ m, Within m e → r[m.id]? = none) :
    e.substitute? r start = some (e, start) := by
  rcases substitute?_shares he htargets hbelow with ⟨became, made, supply, after, hrun, -, -, -, h⟩
  have hsame {n : Expr} (hn : Reached r n e) : became n = n := by
    refine (h.same_iff n hn).2 fun m t hm hknown => ?_
    rw [hunknown m (hm.trans hn).within] at hknown
    cases hknown
  have hmade : made = [] :=
    List.eq_nil_iff_forall_not_mem.2 fun n hn =>
      ((h.made_iff n).1 hn).2.2 (hsame ((h.made_iff n).1 hn).1)
  have hsupply : supply.next = start.next := by
    rw [h.supply_eq, hmade]
    rfl
  rw [hrun, hsame (.self e)]
  cases supply
  cases start
  cases hsupply
  rfl

end Again

/-- Substituting nodes of a graph for others replaces them all at once from the top down, the last entry
    for a node counting. Every node that is reached becomes one node, which is the node itself exactly if
    no other node takes the place of one reached from it; at most one new node is made for each node
    reached, so no more than the expression has, and none that was there changes. Where no node to be
    replaced occurs in a replacement, a second substitution gives back its own input and makes nothing. -/
theorem substitute?_sharing {g : Graph} {e : Expr} (he : e ∈ g) {sources targets : List Expr}
    (hlength : sources.length = targets.length) (hsources : ∀ n ∈ sources, n ∈ g)
    (htargets : ∀ n ∈ targets, n ∈ g) {supply : Supply} (hbelow : g.Below supply) :
    ∃ r, Replacements.ofLists? sources targets = some r ∧
      (∀ n t, r[n.id]? = some t ↔ LastBeside sources targets n t) ∧
      ∃ became made supply' after, e.substitute? r supply = some (became e, supply') ∧
        Replaced r e (became e) ∧ Shares r g after e became made supply supply' ∧
        made.length ≤ e.nodeList.length ∧
        ((∀ a ∈ sources, ∀ t ∈ targets, ¬ a.Within t) →
          (became e).substitute? r supply' = some (became e, supply')) := by
  have hlists : ∃ r, Replacements.ofLists? sources targets = some r := by
    simp [Replacements.ofLists?, hlength]
  rcases hlists with ⟨r, hr⟩
  have htarget {id : NodeId} {t : Expr} (ht : r[id]? = some t) : t ∈ g := htargets t (mem_targets hr ht)
  rcases substitute?_shares he (fun n _ t ht => htarget ht) hbelow with
    ⟨became, made, supply', after, hrun, hreplaced, hmem, hbelow', hshares⟩
  refine ⟨r, hr, ofLists?_eq_some_iff hr, became, made, supply', after, hrun, hreplaced, hshares,
    hshares.length_le he, ?_⟩
  intro hfree
  have hapart : Apart r g := by
    refine ⟨fun id t ht => ?_, fun id t ht m hm => ?_⟩
    · rcases exists_source hr ht with ⟨a, ha, hid⟩
      exact ⟨a, hsources a ha, hid⟩
    · cases hknown : r[m.id]? with
      | none => rfl
      | some t' =>
          rcases exists_source hr hknown with ⟨a, ha, hid⟩
          have hsame := Graph.eq_of_id_eq (hsources a ha) (Graph.mem_of_within (htarget ht) hm) hid
          exact absurd (hsame ▸ hm) (hfree a ha t (mem_targets hr ht))
  have hafter {n : Expr} (hn : n ∈ g) : n ∈ after := (hshares.after_iff n).2 (Or.inl hn)
  exact substitute?_of_unknown hmem (fun n _ t ht => hafter (htarget ht)) hbelow' fun m hm =>
    hshares.unknown_of_within hapart hbelow e (.self e) hm

/-! ### A shared sum -/

/-- The quotient `(w + y) * (w + y) / sin(y)`, with the nodes over `w` numbered from `i`. -/
def quotientOver (i : NodeId) (w : Expr) : Expr :=
  let sum := .binary i .add w (.symbol 5 "y")
  .binary (i + 2) .div (.binary (i + 1) .mul sum sum) (.unary 7 .sin (.symbol 5 "y"))

/-- The nodes `x`, `y`, `z` and those of the quotient over `x`. -/
def quotientNodes : List Expr :=
  let sum := .binary 8 .add (.symbol 4 "x") (.symbol 5 "y")
  [.symbol 4 "x", .symbol 5 "y", .symbol 6 "z", .unary 7 .sin (.symbol 5 "y"), sum,
    .binary 9 .mul sum sum, quotientOver 8 (.symbol 4 "x")]

def quotientGraph : Graph :=
  .ofList quotientNodes (by simp [quotientNodes, quotientOver, children]) (by decide)

/-- When `x` is to become `y` and, in a later entry, `z`, it becomes `z`. The sum is made once though it
    occurs twice, the sine stays the node it was, and a second substitution finds nothing to do. -/
theorem substitute?_sharing_quotient :
    quotientOver 8 (.symbol 4 "x") ∈ quotientGraph ∧ quotientGraph.Below { next := 11 } ∧
    ∃ r, Replacements.ofLists? [.symbol 4 "x", .symbol 4 "x"] [.symbol 5 "y", .symbol 6 "z"] = some r ∧
      (quotientOver 8 (.symbol 4 "x")).substitute? r { next := 11 } =
        some (quotientOver 11 (.symbol 6 "z"), { next := 14 }) ∧
      (quotientOver 11 (.symbol 6 "z")).substitute? r { next := 14 } =
        some (quotientOver 11 (.symbol 6 "z"), { next := 14 }) := by
  have hnode {n : Expr} (h : n ∈ quotientNodes) : n ∈ quotientGraph := h
  have hmem : quotientOver 8 (.symbol 4 "x") ∈ quotientGraph := hnode (by simp [quotientNodes])
  have hbelow : quotientGraph.Below { next := 11 } := by
    change ∀ n ∈ quotientNodes, n.id < 11
    decide
  have hlength : [symbol 4 "x", symbol 4 "x"].length = [symbol 5 "y", symbol 6 "z"].length := rfl
  rcases substitute?_sharing hmem hlength (fun n hn => hnode (by simp at hn; simp [quotientNodes, hn]))
    (fun n hn => hnode (by simp at hn; rcases hn with rfl | rfl <;> simp [quotientNodes])) hbelow with
    ⟨r, hr, -, became, made, supply, after, hrun, -, -, -, hagain⟩
  have hresult : (Replacements.ofLists? [.symbol 4 "x", .symbol 4 "x"] [.symbol 5 "y", .symbol 6 "z"]).bind
      (fun r => (quotientOver 8 (.symbol 4 "x")).substitute? r { next := 11 }) =
      some (quotientOver 11 (.symbol 6 "z"), { next := 14 }) := by
    cbv
  rw [hr, Option.bind_some, hrun, Option.some.injEq, Prod.mk.injEq] at hresult
  rw [hresult.1, hresult.2] at hrun hagain
  refine ⟨hmem, hbelow, r, hr, hrun, hagain ?_⟩
  -- neither `y` nor `z` contains `x`
  have hleaf {a t : Expr} (ht : t.children = []) (hne : a ≠ t) : ¬ a.Within t := by
    intro h
    cases h with
    | self => exact hne rfl
    | deeper child => simp [ht] at child
  simp only [List.mem_cons, List.not_mem_nil, or_false, or_self, forall_eq_or_imp, forall_eq]
  exact ⟨hleaf rfl (by simp), hleaf rfl (by simp)⟩

end FlatDae.Expr
