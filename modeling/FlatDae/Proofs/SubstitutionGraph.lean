/-
Module: FlatDae.Proofs.SubstitutionGraph
Purpose: What substitution makes of an expression of a graph. The walk never looks up a node it has not
  treated; its result is a node of a larger graph and unfolds to the tree in which every replaced node
  is exchanged from the top down. `Replaced` says what that tree is without the walk, and `Rewriting` what
  the walk keeps: it makes at most one node for each node that it reaches, and treats no other nodes.
Main exports: Expr.Alike, Expr.Replaced, Expr.Reached, Expr.rebuild_spec, Expr.Became, Expr.Rewriting,
  Expr.treats_visit, Expr.substitute?_rewriting, Expr.substitute?_spec, Expr.ofLists?_getElem?,
  Expr.mem_targets
-/
import FlatDae.Expr.Substitution
import FlatDae.Proofs.ExpressionGraph
import FlatDae.Proofs.FallibleLists

namespace FlatDae.Expr

/-- Two nodes that differ at most in their identities and children. -/
inductive Alike : Expr → Expr → Prop where
  | constant (i j : NodeId) (value : Float) : Alike (.constant i value) (.constant j value)
  | symbol (i j : NodeId) (name : String) : Alike (.symbol i name) (.symbol j name)
  | unary (i j : NodeId) (op : UnaryOp) (c d : Expr) : Alike (.unary i op c) (.unary j op d)
  | binary (i j : NodeId) (op : BinaryOp) (c c' d d' : Expr) :
      Alike (.binary i op c c') (.binary j op d d')
  | der (i j : NodeId) (c d : Expr) : Alike (.der i c) (.der j d)
  | call (i j : NodeId) (function : String) (cs ds : List Expr) (output : Nat) :
      Alike (.call i function cs output) (.call j function ds output)
  | vertcat (i j : NodeId) (cs ds : List Expr) : Alike (.vertcat i cs) (.vertcat j ds)

theorem Alike.refl (e : Expr) : Alike e e := by
  cases e <;> constructor

/-- `Replaced r e t`: the tree `t` is `e` with the nodes of `r` replaced from the top down. A replacement
    is not searched again, and every other node stays what it is over its rewritten children. -/
inductive Replaced (r : Replacements) : Expr → Expr → Prop where
  | target {e t : Expr} (known : r[e.id]? = some t) : Replaced r e t
  | rebuilt {e t : Expr} (unknown : r[e.id]? = none) (alike : Alike e t)
      (length : t.children.length = e.children.length)
      (children : ∀ p ∈ e.children.zip t.children, Replaced r p.1 p.2) : Replaced r e t

/-- `Reached r n e`: on the way down from `e`, and not below a node that is replaced, there is `n`. -/
inductive Reached (r : Replacements) : Expr → Expr → Prop where
  | self (e : Expr) : Reached r e e
  | deeper {n c e : Expr} (unknown : r[e.id]? = none) (child : c ∈ e.children)
      (reached : Reached r n c) : Reached r n e

namespace Reached

variable {r : Replacements} {n e : Expr}

theorem within (h : Reached r n e) : n.Within e := by
  induction h with
  | self => exact .self _
  | deeper _ child _ ih => exact .deeper child ih

/-- Below a node that is replaced nothing is reached. -/
theorem eq_of_known {t : Expr} (h : Reached r n e) (hknown : r[e.id]? = some t) : n = e := by
  cases h with
  | self => rfl
  | deeper unknown => simp [unknown] at hknown

theorem trans {m : Expr} (hmn : Reached r m n) (hne : Reached r n e) : Reached r m e := by
  induction hne with
  | self => exact hmn
  | deeper unknown child _ ih => exact .deeper unknown child ih

end Reached

/-! ### Single steps -/

/-- Children that are each the very node they were have the identities they had. -/
theorem all_same_iff (new old : List Expr) (hlength : new.length = old.length) :
    (new.zip old).all (fun (n, o) => n.same o) ↔ new.map id = old.map id := by
  induction new generalizing old with
  | nil =>
      cases old with
      | nil => simp
      | cons o old => simp at hlength
  | cons n new ih =>
      cases old with
      | nil => simp at hlength
      | cons o old =>
          have htail := ih old (by simpa using hlength)
          rw [List.zip_cons_cons, List.all_cons, Bool.and_eq_true, htail]
          simp [same]

/-- Rebuilding gives the node itself if the children are the very nodes they were, and otherwise a new
    node of the same kind over the new children. -/
theorem rebuild_spec (e : Expr) (newChildren : List Expr) (supply : Supply)
    (hlength : newChildren.length = e.children.length) :
    (newChildren.map id = e.children.map id ∧ (e.rebuild newChildren).run supply = (e, supply)) ∨
    (newChildren.map id ≠ e.children.map id ∧
      ∃ t, (e.rebuild newChildren).run supply = (t, { next := supply.next + 1 }) ∧
        t.id = supply.next ∧ Alike e t ∧ t.children = newChildren) := by
  by_cases hsame : (newChildren.zip e.children).all (fun (n, o) => n.same o)
  · refine Or.inl ⟨(all_same_iff _ _ hlength).1 hsame, ?_⟩
    unfold rebuild
    rw [if_pos hsame]
    rfl
  · refine Or.inr ⟨fun hids => hsame ((all_same_iff _ _ hlength).2 hids), ?_⟩
    unfold rebuild
    rw [if_neg hsame]
    match e, newChildren, hlength with
    | .constant _ _, [], _ => simp at hsame
    | .symbol _ _, [], _ => simp at hsame
    | .unary _ _ _, [_], _ => exact ⟨_, rfl, rfl, by constructor, rfl⟩
    | .binary _ _ _ _, [_, _], _ => exact ⟨_, rfl, rfl, by constructor, rfl⟩
    | .der _ _, [_], _ => exact ⟨_, rfl, rfl, by constructor, rfl⟩
    | .call _ _ _ _, _, _ => exact ⟨_, rfl, rfl, by constructor, rfl⟩
    | .vertcat _ _, _, _ => exact ⟨_, rfl, rfl, by constructor, rfl⟩

/-- Looking up every member of a list succeeds if each lookup does. -/
theorem mapM_eq_some_of_forall {α β : Type} {f : α → Option β} (as : List α)
    (h : ∀ a ∈ as, ∃ b, f a = some b) :
    ∃ bs, as.mapM f = some bs ∧ List.Forall₂ (fun a b => f a = some b) as bs := by
  induction as with
  | nil => exact ⟨[], rfl, .nil⟩
  | cons a as ih =>
      rcases h a List.mem_cons_self with ⟨b, hb⟩
      rcases ih fun a' ha' => h a' (List.mem_cons_of_mem _ ha') with ⟨bs, hbs, hpairs⟩
      exact ⟨b :: bs, by simp [List.mapM_cons, hb, hbs], .cons hb hpairs⟩

/-- A result that is added for a new identity leaves the others as they are. -/
theorem getElem?_insert_of_mem {done : Std.HashMap NodeId Expr} {new id : NodeId} (t : Expr)
    (hnew : new ∉ done) (hid : id ∈ done) : (done.insert new t)[id]? = done[id]? := by
  have hne : new ≠ id := by
    rintro rfl
    exact hnew hid
  simp [Std.HashMap.getElem?_insert, hne]

/-! ### The walk -/

/-- What has become of a node whose children are treated: its replacement, or a node of its kind over
    what has become of its children. This is the node itself, or it was made because a child changed. -/
inductive Became (r : Replacements) (done : Std.HashMap NodeId Expr) (made : List Expr) :
    Expr → Expr → Prop where
  | target {n t : Expr} (known : r[n.id]? = some t) : Became r done made n t
  | rebuilt {n t : Expr} (unknown : r[n.id]? = none) (alike : Alike n t)
      (children : List.Forall₂ (fun c d => done[c.id]? = some d) n.children t.children)
      (new : t = n ∨ (t.children ≠ n.children ∧ n ∈ made)) : Became r done made n t

/-- What has become of a node does not depend on what is treated later. -/
theorem Became.mono {r : Replacements} {done done' : Std.HashMap NodeId Expr} {made made' : List Expr}
    {n t : Expr} (h : Became r done made n t) (hdone : ∀ id ∈ done, done'[id]? = done[id]?)
    (hmade : ∀ m ∈ made, m ∈ made') : Became r done' made' n t := by
  cases h with
  | target known => exact .target known
  | rebuilt unknown alike children new =>
      refine .rebuilt unknown alike (children.imp fun c d hcd => ?_)
        (new.imp_right fun h => ⟨h.1, hmade n h.2⟩)
      rw [hdone _ (Std.HashMap.mem_iff_isSome_getElem?.2 (by simp [hcd])), hcd]

/-- What holds half way through rewriting the graph `g`, whose nodes and replacements are nodes of
    `before`. One node was made for each node in `made`, with the identities that follow `start` in turn,
    and there are no other new nodes in `after`. -/
structure Rewriting (r : Replacements) (g before after : Graph) (start : Supply)
    (done : Std.HashMap NodeId Expr) (made : List Expr) (supply : Supply) : Prop where
  nodes : ∀ n ∈ g, n ∈ before
  targets : ∀ n ∈ g, ∀ t, r[n.id]? = some t → t ∈ before
  after_iff : ∀ n, n ∈ after ↔ n ∈ before ∨ ∃ m ∈ made, done[m.id]? = some n
  below : after.Below supply
  results : ∀ n ∈ g, ∀ t, done[n.id]? = some t → t ∈ after ∧ Became r done made n t
  made_mem : ∀ n ∈ made, n ∈ g
  identities : made.map (fun n => done[n.id]?.map id) = (List.range' start.next made.length).map some
  supply_eq : supply.next = start.next + made.length

namespace Rewriting

variable {r : Replacements} {g before after : Graph} {start supply : Supply}
  {done : Std.HashMap NodeId Expr} {made : List Expr}

/-- A node was made for a node that is treated, and its identity is a new one. -/
theorem exists_made (inv : Rewriting r g before after start done made supply) {n : Expr} (hn : n ∈ made) :
    ∃ t, done[n.id]? = some t ∧ start.next ≤ t.id := by
  have hid : done[n.id]?.map id ∈ (List.range' start.next made.length).map some :=
    inv.identities ▸ List.mem_map.2 ⟨n, hn, rfl⟩
  rcases List.mem_map.1 hid with ⟨i, hi, hsome⟩
  rcases Option.map_eq_some_iff.1 hsome.symm with ⟨t, ht, rfl⟩
  exact ⟨t, ht, (List.mem_range'_1.1 hi).1⟩

theorem made_done (inv : Rewriting r g before after start done made supply) {n : Expr} (hn : n ∈ made) :
    n.id ∈ done := by
  rcases inv.exists_made hn with ⟨t, ht, -⟩
  exact Std.HashMap.mem_iff_isSome_getElem?.2 (by simp [ht])

/-- No two nodes were made for one. -/
theorem nodup (inv : Rewriting r g before after start done made supply) : made.Nodup := by
  have hidentities : (made.map fun n => done[n.id]?.map id).Nodup := by
    rw [inv.identities]
    exact List.Nodup.map (fun _ _ => Option.some.inj) (List.nodup_range' 1)
  exact hidentities.of_map

/-- What was known before a result is added for a new identity is known afterwards. -/
theorem results_insert (inv : Rewriting r g before after start done made supply) {e t : Expr}
    {after' : Graph} {made' : List Expr} (he : e ∈ g) (hnew : e.id ∉ done)
    (hafter : ∀ n ∈ after, n ∈ after') (hmade : ∀ n ∈ made, n ∈ made') (ht : t ∈ after')
    (hbecame : Became r done made' e t) {n : Expr} (hn : n ∈ g) {t' : Expr}
    (ht' : (done.insert e.id t)[n.id]? = some t') :
    t' ∈ after' ∧ Became r (done.insert e.id t) made' n t' := by
  have hkeep : ∀ id ∈ done, (done.insert e.id t)[id]? = done[id]? := fun id hid =>
    getElem?_insert_of_mem t hnew hid
  rw [Std.HashMap.getElem?_insert] at ht'
  by_cases hid : e.id = n.id
  · rw [if_pos (by simpa using hid), Option.some.injEq] at ht'
    rw [← Graph.eq_of_id_eq he hn hid, ← ht']
    exact ⟨ht, hbecame.mono hkeep fun _ h => h⟩
  · rw [if_neg (by simpa using hid)] at ht'
    rcases inv.results n hn t' ht' with ⟨hmem, hresult⟩
    exact ⟨hafter t' hmem, hresult.mono hkeep hmade⟩

/-- A node that is there already may be recorded as a result. -/
theorem record (inv : Rewriting r g before after start done made supply) {e t : Expr} (he : e ∈ g)
    (hnew : e.id ∉ done) (ht : t ∈ after) (hbecame : Became r done made e t) :
    Rewriting r g before after start (done.insert e.id t) made supply where
  nodes := inv.nodes
  targets := inv.targets
  after_iff := by
    intro n
    rw [inv.after_iff]
    refine or_congr_right (exists_congr fun m => and_congr_right fun hm => ?_)
    rw [getElem?_insert_of_mem t hnew (inv.made_done hm)]
  below := inv.below
  results := fun _ hn _ ht' =>
    inv.results_insert he hnew (fun _ h => h) (fun _ h => h) ht hbecame hn ht'
  made_mem := inv.made_mem
  identities := by
    rw [← inv.identities]
    refine List.map_congr_left fun n hn => ?_
    rw [getElem?_insert_of_mem t hnew (inv.made_done hn)]
  supply_eq := inv.supply_eq

/-- A node made with the next identity may be recorded as the result of the node it was made for. -/
theorem recordNew (inv : Rewriting r g before after start done made supply) {e t : Expr} (he : e ∈ g)
    (hnew : e.id ∉ done) (hid : t.id = supply.next) (hchildren : ∀ c ∈ t.children, c ∈ after)
    (hbecame : Became r done (made ++ [e]) e t) :
    ∃ after', Rewriting r g before after' start (done.insert e.id t) (made ++ [e])
      { next := supply.next + 1 } := by
  have hfresh : ∀ m ∈ after, m.id ≠ t.id := fun m hm => hid ▸ Nat.ne_of_lt (inv.below m hm)
  have hself : (done.insert e.id t)[e.id]? = some t := by simp
  refine ⟨after.insert t hchildren hfresh, inv.nodes, inv.targets, ?_, ?_, ?_, ?_, ?_, ?_⟩
  · intro n
    have hold : (∃ m ∈ made, (done.insert e.id t)[m.id]? = some n) ↔ ∃ m ∈ made, done[m.id]? = some n :=
      exists_congr fun m => and_congr_right fun hm => by
        rw [getElem?_insert_of_mem t hnew (inv.made_done hm)]
    have hmem : n ∈ after.insert t hchildren hfresh ↔ n = t ∨ n ∈ after := Iff.rfl
    simp only [hmem, inv.after_iff, List.mem_append, List.mem_singleton, or_and_right, exists_or, hold,
      exists_eq_left, hself, Option.some.injEq]
    rw [or_comm, or_assoc, eq_comm]
  · intro n hn
    rcases hn with rfl | hold
    · exact hid ▸ Nat.lt_succ_self _
    · exact Nat.lt_succ_of_lt (inv.below n hold)
  · exact fun n hn t' ht' => inv.results_insert he hnew (fun _ h => Or.inr h)
      (fun _ h => List.mem_append_left _ h) (Or.inl rfl) hbecame hn ht'
  · intro n hn
    rcases List.mem_append.1 hn with hold | hlast
    · exact inv.made_mem n hold
    · exact List.mem_singleton.1 hlast ▸ he
  · have hold : made.map (fun n => (done.insert e.id t)[n.id]?.map Expr.id) =
        made.map fun n => done[n.id]?.map Expr.id :=
      List.map_congr_left fun n hn => by rw [getElem?_insert_of_mem t hnew (inv.made_done hn)]
    rw [List.map_append, hold, inv.identities, List.length_append, List.length_singleton,
      List.range'_1_concat, List.map_append, List.map_singleton, hself, Option.map_some, hid,
      inv.supply_eq]
    rfl
  · rw [inv.supply_eq, List.length_append, List.length_singleton, Nat.add_assoc]

/-- A node whose children are treated can be finished. -/
theorem finish (inv : Rewriting r g before after start done made supply) {e : Expr} (he : e ∈ g)
    (hnew : e.id ∉ done) (hunknown : r[e.id]? = none) (hchildren : ∀ c ∈ e.children, c.id ∈ done)
    (rest : List Task) :
    ∃ t made' supply' after',
      substituteTasks r (.finish e :: rest) done supply =
        substituteTasks r rest (done.insert e.id t) supply' ∧
      Rewriting r g before after' start (done.insert e.id t) made' supply' := by
  rcases mapM_eq_some_of_forall (f := fun c : Expr => done[c.id]?) e.children fun c hc =>
    ⟨_, Std.HashMap.getElem?_eq_some_getElem (hchildren c hc)⟩ with ⟨news, hnews, hlookup⟩
  have hmem : ∀ t ∈ news, t ∈ after := by
    intro t ht
    rcases exists_left_of_forall₂ hlookup ht with ⟨c, hc, hct⟩
    exact (inv.results c (Graph.mem_children he hc) t hct).1
  rw [substituteTasks.eq_3, hnews]
  rcases rebuild_spec e news supply hlookup.length_eq.symm with
    ⟨hids, hrun⟩ | ⟨hids, t, hrun, hid, halike, hkids⟩
  · -- the new children are the very nodes they were, so the node stays what it is
    have hsame : news = e.children := by
      apply List.ext_getElem hlookup.length_eq.symm
      intro i hi hi'
      have hid : (news.map id)[i]? = (e.children.map id)[i]? := by rw [hids]
      simp only [List.getElem?_map, List.getElem?_eq_getElem hi, List.getElem?_eq_getElem hi',
        Option.map_some, Option.some.injEq] at hid
      have hold := inv.nodes _ (Graph.mem_children he (List.getElem_mem hi'))
      exact Graph.eq_of_id_eq (hmem _ (List.getElem_mem hi)) ((inv.after_iff _).2 (Or.inl hold)) hid
    have hbecame : Became r done made e e :=
      .rebuilt hunknown (.refl e) (by rw [hsame] at hlookup; exact hlookup) (Or.inl rfl)
    refine ⟨e, made, supply, after, by simp only [hrun], inv.record he hnew ?_ hbecame⟩
    exact (inv.after_iff e).2 (Or.inl (inv.nodes e he))
  · have hbecame : Became r done (made ++ [e]) e t := by
      refine .rebuilt hunknown halike (by rw [hkids]; exact hlookup) (Or.inr ⟨?_, by simp⟩)
      intro hsame
      rw [← hkids, hsame] at hids
      exact hids rfl
    rcases inv.recordNew he hnew hid (by rw [hkids]; exact hmem) hbecame with ⟨after', inv'⟩
    exact ⟨t, _, _, after', by simp only [hrun], inv'⟩

/-- A result unfolds to the tree with the replacements made. -/
theorem replaced (inv : Rewriting r g before after start done made supply) (n : Expr) (hn : n ∈ g) {t : Expr}
    (ht : done[n.id]? = some t) : Replaced r n t := by
  induction n using children_induction generalizing t with
  | step n ih =>
      cases (inv.results n hn t ht).2 with
      | target known => exact .target known
      | rebuilt unknown alike children _ =>
          refine .rebuilt unknown alike children.length_eq.symm fun p hp => ?_
          have hchild := (List.of_mem_zip hp).1
          exact ih p.1 hchild (Graph.mem_children hn hchild) (List.forall₂_zip children hp)

end Rewriting

/-- With a node all nodes reached from it are treated. -/
def TreatedBelow (r : Replacements) (g : Graph) (done : Std.HashMap NodeId Expr) : Prop :=
  ∀ n ∈ g, n.id ∈ done → ∀ m, Reached r m n → m.id ∈ done

/-- Where all that is reached from a node is treated, its result may be added. -/
theorem TreatedBelow.insert {r : Replacements} {g : Graph} {done : Std.HashMap NodeId Expr}
    (h : TreatedBelow r g done) {e : Expr} (he : e ∈ g) (t : Expr)
    (hreached : ∀ m, Reached r m e → m = e ∨ m.id ∈ done) : TreatedBelow r g (done.insert e.id t) := by
  intro n hn hid m hm
  rcases Std.HashMap.mem_insert.1 hid with hself | hold
  · rw [← Graph.eq_of_id_eq he hn (by simpa using hself)] at hm
    rcases hreached m hm with rfl | hdone
    · simp
    · exact Std.HashMap.mem_insert.2 (Or.inr hdone)
  · exact Std.HashMap.mem_insert.2 (Or.inr (h n hn hold m hm))

section Walk

variable {r : Replacements} {g before : Graph} {start : Supply}

variable (r g before start) in
/-- The tasks `todo` come down to the tasks `rest`, treating what is reached from one of `es` and nothing
    else that is new. -/
def Treats (es : List Expr) (todo rest : List Task) : Prop :=
  ∀ (done : Std.HashMap NodeId Expr) (made : List Expr) (supply : Supply) (after : Graph),
    Rewriting r g before after start done made supply → TreatedBelow r g done →
    ∃ done' made' supply' after',
      substituteTasks r todo done supply = substituteTasks r rest done' supply' ∧
      Rewriting r g before after' start done' made' supply' ∧ TreatedBelow r g done' ∧
      ∀ id, id ∈ done' ↔ id ∈ done ∨ ∃ e ∈ es, ∃ n, Reached r n e ∧ n.id = id

/-- Nodes that are each treated by a visit are treated one after the other. -/
theorem treats_visits (es : List Expr)
    (htreats : ∀ e ∈ es, ∀ rest, Treats r g before start [e] (.visit e :: rest) rest) (rest : List Task) :
    Treats r g before start es (es.map .visit ++ rest) rest := by
  induction es with
  | nil => exact fun done made supply after inv below => ⟨done, made, supply, after, rfl, inv, below, by simp⟩
  | cons e es ih =>
      intro done made supply after inv below
      rcases htreats e List.mem_cons_self (es.map .visit ++ rest) done made supply after inv below with
        ⟨done₁, made₁, supply₁, after₁, hrun₁, inv₁, below₁, hiff₁⟩
      rcases ih (fun e' he' => htreats e' (List.mem_cons_of_mem _ he')) done₁ made₁ supply₁ after₁ inv₁
        below₁ with ⟨done₂, made₂, supply₂, after₂, hrun₂, inv₂, below₂, hiff₂⟩
      refine ⟨done₂, made₂, supply₂, after₂, ?_, inv₂, below₂, fun id => ?_⟩
      · rw [List.map_cons, List.cons_append, hrun₁, hrun₂]
      · rw [hiff₂, hiff₁]
        simp [or_assoc]

/-- Every node of the graph is treated by a visit. The induction follows the children. -/
theorem treats_visit (e : Expr) (he : e ∈ g) (rest : List Task) :
    Treats r g before start [e] (.visit e :: rest) rest := by
  induction e using children_induction generalizing rest with
  | step e ih =>
      intro done made supply after inv below
      simp only [List.mem_singleton, exists_eq_left]
      by_cases hdone : e.id ∈ done
      · refine ⟨done, made, supply, after, ?_, inv, below, fun id => ?_⟩
        · rw [substituteTasks.eq_2, if_pos (Std.HashMap.mem_iff_contains.1 hdone)]
        · refine (or_iff_left_of_imp ?_).symm
          rintro ⟨n, hn, rfl⟩
          exact below e he hdone n hn
      have hcontains : ¬ done.contains e.id := fun h => hdone (Std.HashMap.mem_iff_contains.2 h)
      cases hknown : r[e.id]? with
      | some t =>
          have ht : t ∈ after := (inv.after_iff t).2 (Or.inl (inv.targets e he t hknown))
          refine ⟨done.insert e.id t, made, supply, after, ?_, inv.record he hdone ht (.target hknown),
            below.insert he t fun m hm => Or.inl (hm.eq_of_known hknown), fun id => ?_⟩
          · rw [substituteTasks.eq_2, if_neg hcontains, hknown]
          · rw [Std.HashMap.mem_insert, beq_iff_eq, or_comm]
            refine or_congr_right ⟨fun hid => ⟨e, .self e, hid⟩, ?_⟩
            rintro ⟨n, hn, rfl⟩
            rw [hn.eq_of_known hknown]
      | none =>
          rcases treats_visits e.children (fun c hc => ih c hc (Graph.mem_children he hc)) (.finish e :: rest)
            done made supply after inv below with
            ⟨done₁, made₁, supply₁, after₁, hrun₁, inv₁, below₁, hiff₁⟩
          -- a node does not lie below its own children, so visiting them leaves it untreated
          have hnew : e.id ∉ done₁ := by
            intro hid
            rcases (hiff₁ e.id).1 hid with hold | ⟨c, hc, n, hn, hid⟩
            · exact hdone hold
            · have hwithin := hn.within
              rw [Graph.eq_of_id_eq (Graph.mem_of_within (Graph.mem_children he hc) hwithin) he hid]
                at hwithin
              have hsize := hwithin.sizeOf_le
              have := sizeOf_lt_of_mem_children hc
              omega
          have hchildren : ∀ c ∈ e.children, c.id ∈ done₁ := fun c hc =>
            (hiff₁ c.id).2 (Or.inr ⟨c, hc, c, .self c, rfl⟩)
          rcases inv₁.finish he hnew hknown hchildren rest with
            ⟨t, made₂, supply₂, after₂, hrun₂, inv₂⟩
          refine ⟨done₁.insert e.id t, made₂, supply₂, after₂, ?_, inv₂, below₁.insert he t ?_,
            fun id => ?_⟩
          · rw [substituteTasks.eq_2, if_neg hcontains, hknown]
            simp only [Task.expand]
            rw [hrun₁, hrun₂]
          · intro m hm
            cases hm with
            | self => exact Or.inl rfl
            | deeper _ child reached => exact Or.inr ((hiff₁ m.id).2 (Or.inr ⟨_, child, m, reached, rfl⟩))
          · rw [Std.HashMap.mem_insert, beq_iff_eq, hiff₁]
            constructor
            · rintro (rfl | hold | ⟨c, hc, n, hn, rfl⟩)
              · exact Or.inr ⟨e, .self e, rfl⟩
              · exact Or.inl hold
              · exact Or.inr ⟨n, .deeper hknown hc hn, rfl⟩
            · rintro (hold | ⟨n, hn, rfl⟩)
              · exact Or.inr (Or.inl hold)
              · cases hn with
                | self => exact Or.inl rfl
                | deeper _ child reached => exact Or.inr (Or.inr ⟨_, child, n, reached, rfl⟩)

end Walk

/-- Substitution in an expression of a graph has a result, and treats the nodes that are reached from the
    expression and no others. -/
theorem substitute?_rewriting {r : Replacements} {g before : Graph} {supply : Supply} {e : Expr} (he : e ∈ g)
    (hnodes : ∀ n ∈ g, n ∈ before) (htargets : ∀ n ∈ g, ∀ t, r[n.id]? = some t → t ∈ before)
    (hbelow : before.Below supply) :
    ∃ t done made supply' after, e.substitute? r supply = some (t, supply') ∧ done[e.id]? = some t ∧
      Rewriting r g before after supply done made supply' ∧
      ∀ n ∈ g, n.id ∈ done ↔ Reached r n e := by
  have start : Rewriting r g before before supply ∅ [] supply :=
    { nodes := hnodes
      targets := htargets
      after_iff := by simp
      below := hbelow
      results := by simp
      made_mem := by simp
      identities := rfl
      supply_eq := rfl }
  rcases treats_visit e he [] ∅ [] supply before start (by simp [TreatedBelow]) with
    ⟨done, made, supply', after, hrun, inv, -, hiff⟩
  have hdone : ∀ n ∈ g, n.id ∈ done ↔ Reached r n e := by
    intro n hn
    simp only [hiff, Std.HashMap.not_mem_empty, false_or, List.mem_singleton, exists_eq_left]
    constructor
    · rintro ⟨m, hm, hid⟩
      rwa [← Graph.eq_of_id_eq (Graph.mem_of_within he hm.within) hn hid]
    · exact fun hreached => ⟨n, hreached, rfl⟩
  have hmem : e.id ∈ done := (hdone e he).2 (.self e)
  refine ⟨done[e.id], done, made, supply', after, ?_, by simp, inv, hdone⟩
  rw [substitute?, hrun, substituteTasks.eq_1]
  simp [hmem]

/-- Substitution in an expression of a graph has a result, which is a node of a larger graph and unfolds
    to the tree with all replacements made. -/
theorem substitute?_spec {r : Replacements} {g s : Graph} {supply : Supply} {e : Expr} (he : e ∈ g)
    (hnodes : ∀ n ∈ g, n ∈ s) (htargets : ∀ n ∈ g, ∀ t, r[n.id]? = some t → t ∈ s)
    (hbelow : s.Below supply) :
    ∃ t supply' s', e.substitute? r supply = some (t, supply') ∧ (∀ n ∈ g, n ∈ (s' : Graph)) ∧
      t ∈ s' ∧ Replaced r e t := by
  rcases substitute?_rewriting he hnodes htargets hbelow with
    ⟨t, done, made, supply', s', hrun, ht, inv, -⟩
  exact ⟨t, supply', s', hrun, fun n hn => (inv.after_iff n).2 (Or.inl (hnodes n hn)),
    (inv.results e he t ht).1, inv.replaced e he ht⟩

/-! ### Replacements from lists -/

/-- A fold of insertions holds for an identity what was inserted for it last. -/
theorem foldl_insert_getElem? {α β : Type} (key : α → NodeId) (value : α → β) (items : List α)
    (found : Std.HashMap NodeId β) (id : NodeId) :
    (items.foldl (fun found a => found.insert (key a) (value a)) found)[id]? =
      ((items.reverse.find? fun a => key a == id).map value).or found[id]? := by
  induction items generalizing found with
  | nil => simp
  | cons a items ih =>
      rw [List.foldl_cons, ih, List.reverse_cons, List.find?_append, Std.HashMap.getElem?_insert]
      cases (items.reverse.find? fun a => key a == id) with
      | some b => simp
      | none => by_cases hid : key a == id <;> simp [hid]

/-- The replacement of an identity is the target beside its last source. -/
theorem ofLists?_getElem? {sources targets : List Expr} {r : Replacements}
    (h : Replacements.ofLists? sources targets = some r) (id : NodeId) :
    r[id]? = ((sources.zip targets).reverse.find? fun p => p.1.id == id).map Prod.snd := by
  rw [Replacements.ofLists?] at h
  by_cases hlength : sources.length == targets.length
  · rw [if_pos hlength] at h
    rw [← Option.some.inj h, foldl_insert_getElem? (fun p : Expr × Expr => p.1.id) Prod.snd]
    simp
  · rw [if_neg hlength] at h
    simp at h

/-- What is replaced is one of the sources. -/
theorem exists_source {sources targets : List Expr} {r : Replacements}
    (h : Replacements.ofLists? sources targets = some r) {id : NodeId} {t : Expr}
    (ht : r[id]? = some t) : ∃ a ∈ sources, a.id = id := by
  rw [ofLists?_getElem? h, Option.map_eq_some_iff] at ht
  rcases ht with ⟨p, hp, rfl⟩
  exact ⟨p.1, (List.of_mem_zip (List.mem_reverse.1 (List.mem_of_find?_eq_some hp))).1,
    by simpa using List.find?_some hp⟩

/-- What replaces a node is one of the targets. -/
theorem mem_targets {sources targets : List Expr} {r : Replacements}
    (h : Replacements.ofLists? sources targets = some r) {id : NodeId} {t : Expr}
    (ht : r[id]? = some t) : t ∈ targets := by
  rw [ofLists?_getElem? h, Option.map_eq_some_iff] at ht
  obtain ⟨p, hp, rfl⟩ := ht
  exact (List.of_mem_zip (List.mem_reverse.1 (List.mem_of_find?_eq_some hp))).2

end FlatDae.Expr
