/-
Module: FlatDae.Proofs.DependencyOrder
Purpose: The depth-first search orders a graph or names a cycle of it. What holds of path, marks and
  order in between is kept by every step of the search: nodes on the path wait for what they refer to,
  and every node in the order stands after all that it refers to. So a search that ends has ordered
  all nodes, and one that fails has followed references around a real cycle.
Main exports: Refers, Sorted, IsCycle, Search.Inv, dependencyOrder_spec, dependencyOrder_isOk_iff,
  dependencyOrder_of_backward
-/
import FlatDae.DependencyOrder
import Mathlib.Data.List.Chain
import Mathlib.Data.List.Nodup
import Mathlib.Data.List.Perm.Subperm
import Mathlib.Logic.Relation

namespace FlatDae

/-- Node `i` of the graph refers to its node `j`. -/
def Refers (deps : Array (List Nat)) (i j : Nat) : Prop := j ∈ deps.getD i [] ∧ j < deps.size

/-- Every node of the list stands after all that it refers to. -/
def Sorted (deps : Array (List Nat)) (order : List Nat) : Prop :=
  ∀ before i, before ++ [i] <+: order → ∀ j, Refers deps i j → j ∈ before

/-- The list goes from a node by references back to it and to no other node twice. -/
def IsCycle (deps : Array (List Nat)) (cycle : List Nat) : Prop :=
  ∃ node inner, cycle = node :: inner ++ [node] ∧ (node :: inner).Nodup ∧
    cycle.IsChain (Refers deps)

/-- There is no cycle without a reference. -/
theorem IsCycle.exists_refers {deps : Array (List Nat)} {cycle : List Nat} (h : IsCycle deps cycle) :
    ∃ i j, Refers deps i j := by
  obtain ⟨node, inner, rfl, -, hchain⟩ := h
  cases inner with
  | nil => exact ⟨_, _, (List.isChain_cons_cons.1 hchain).1⟩
  | cons next inner => exact ⟨_, _, (List.isChain_cons_cons.1 hchain).1⟩

/-- Only nodes refer to anything. -/
theorem Refers.lt_left {deps : Array (List Nat)} {i j : Nat} (h : Refers deps i j) :
    i < deps.size := by
  by_contra hi
  have hempty : deps.getD i [] = [] := by
    rw [Array.getD_eq_getD_getElem?, Array.getElem?_eq_none (Nat.le_of_not_lt hi)]
    rfl
  rw [Refers, hempty] at h
  exact absurd h.1 List.not_mem_nil

/-- A cycle goes through nodes only. -/
theorem IsCycle.lt_size {deps : Array (List Nat)} {cycle : List Nat} (h : IsCycle deps cycle) :
    ∀ i ∈ cycle, i < deps.size := by
  obtain ⟨node, inner, rfl, -, hchain⟩ := h
  -- whatever stands before the end refers to what follows it
  have hbefore : ∀ i ∈ node :: inner, i < deps.size := by
    intro i hi
    obtain ⟨front, back, hsplit⟩ := List.append_of_mem hi
    rw [hsplit, List.append_assoc] at hchain
    have hrest := (List.isChain_append.1 hchain).2.1
    cases back with
    | nil => exact (List.isChain_cons_cons.1 hrest).1.lt_left
    | cons j back => exact (List.isChain_cons_cons.1 hrest).1.lt_left
  intro i hi
  rcases List.mem_append.1 hi with hi | hi
  · exact hbefore i hi
  · rw [List.mem_singleton.1 hi]
    exact hbefore node List.mem_cons_self

/-- A node can stand at the end of an order that has all it refers to. -/
theorem Sorted.concat {deps : Array (List Nat)} {order : List Nat} (h : Sorted deps order) {i : Nat}
    (hi : ∀ j, Refers deps i j → j ∈ order) : Sorted deps (order ++ [i]) := by
  intro before k hprefix j hj
  rcases List.prefix_concat_iff.1 hprefix with heq | hold
  · obtain ⟨rfl, hk⟩ := List.append_inj' heq rfl
    obtain rfl : k = i := by simpa using hk
    exact hi j hj
  · exact h before k hold j hj

namespace Search

/-- The nodes on a path wait: each but the last entered has been left for the node before it on the
    path, which it refers to, and all else that it refers to is still to follow or in the order. -/
inductive Waiting (deps : Array (List Nat)) (order : Array Nat) : Option Nat → Path → Prop where
  | nil (inner : Option Nat) : Waiting deps order inner []
  | cons {inner : Option Nat} {node : Nat} {more : List Nat} {path : Path}
      (hnode : node < deps.size) (hinner : ∀ child, inner = some child → Refers deps node child)
      (hmore : ∀ j ∈ more, j ∈ deps.getD node [])
      (hrest : ∀ j, Refers deps node j → j ∈ more ∨ j ∈ order ∨ inner = some j)
      (htail : Waiting deps order (some node) path) : Waiting deps order inner ((node, more) :: path)

/-- What holds of the search between steps. -/
structure Inv (deps : Array (List Nat)) (path : Path) (marks : Array Mark) (order : Array Nat) :
    Prop where
  size : marks.size = deps.size
  active : ∀ i, marks[i]? = some .active ↔ i ∈ path.map Prod.fst
  done : ∀ i, marks[i]? = some .done ↔ i ∈ order
  path_nodup : (path.map Prod.fst).Nodup
  order_nodup : order.toList.Nodup
  sorted : Sorted deps order.toList
  waiting : Waiting deps order none path

variable {deps : Array (List Nat)} {path : Path} {marks : Array Mark} {order : Array Nat}

/-- Nodes wait all the same when the order grows. -/
theorem Waiting.mono {order' : Array Nat} {inner : Option Nat} (h : Waiting deps order inner path)
    (hgrow : ∀ i ∈ order, i ∈ order') : Waiting deps order' inner path := by
  induction h with
  | nil inner => exact .nil inner
  | cons hnode hinner hmore hrest _ ih =>
      refine .cons hnode hinner hmore (fun j hj => ?_) ih
      rcases hrest j hj with hmore | horder | hinner
      · exact Or.inl hmore
      · exact Or.inr (Or.inl (hgrow j horder))
      · exact Or.inr (Or.inr hinner)

/-- Along a path each node is referred to by the next. -/
theorem Waiting.isChain {inner : Option Nat} (h : Waiting deps order inner path) :
    (path.map Prod.fst).IsChain fun a b => Refers deps b a := by
  induction h with
  | nil => exact .nil
  | @cons inner node more path _ _ _ _ htail ih =>
      cases htail with
      | nil => exact .singleton _
      | cons _ hinner _ _ _ => exact List.isChain_cons_cons.2 ⟨hinner node rfl, ih⟩

/-! ### Steps -/

/-- A reference to a node that is in the order already, or is no node, is passed over. -/
theorem Inv.skip {node child : Nat} {more : List Nat}
    (h : Inv deps ((node, child :: more) :: path) marks order)
    (hchild : Refers deps node child → child ∈ order) : Inv deps ((node, more) :: path) marks order := by
  refine ⟨h.size, h.active, h.done, h.path_nodup, h.order_nodup, h.sorted, ?_⟩
  cases h.waiting with
  | cons hnode hinner hmore hrest htail =>
      refine .cons hnode hinner (fun j hj => hmore j (List.mem_cons_of_mem _ hj)) ?_ htail
      intro j hj
      rcases hrest j hj with hlist | hother
      · rcases List.mem_cons.1 hlist with rfl | hlater
        · exact Or.inr (Or.inl (hchild hj))
        · exact Or.inl hlater
      · exact Or.inr hother

/-- A new node is put at the end of the path, if the nodes then wait for it. -/
theorem Inv.activate {path' : Path} {child : Nat} (h : Inv deps path marks order)
    (hnew : marks[child]? = some .new) (hpath : path'.map Prod.fst = child :: path.map Prod.fst)
    (hwaiting : Waiting deps order none path') :
    Inv deps path' (marks.setIfInBounds child .active) order := by
  have hbound : child < marks.size := (Array.getElem?_eq_some_iff.1 hnew).1
  have hfresh : child ∉ path.map Prod.fst := by
    intro hmem
    have hactive := (h.active child).2 hmem
    rw [hnew] at hactive
    cases hactive
  refine ⟨by rw [Array.size_setIfInBounds, h.size], ?_, ?_, ?_, h.order_nodup, h.sorted, hwaiting⟩
  · intro i
    rw [Array.getElem?_setIfInBounds, hpath, List.mem_cons]
    by_cases hi : child = i
    · subst hi
      simp [hbound]
    · rw [if_neg hi, h.active i]
      simp [Ne.symm hi]
  · intro i
    rw [Array.getElem?_setIfInBounds]
    by_cases hi : child = i
    · subst hi
      rw [if_pos rfl, if_pos hbound, ← h.done child, hnew]
      simp
    · rw [if_neg hi, h.done i]
  · rw [hpath]
    exact List.nodup_cons.2 ⟨hfresh, h.path_nodup⟩

/-- A search starts from a new node. -/
theorem Inv.start {root : Nat} (h : Inv deps [] marks order) (hnew : marks[root]? = some .new) :
    Inv deps [(root, deps.getD root [])] (marks.setIfInBounds root .active) order := by
  have hroot : root < deps.size := h.size ▸ (Array.getElem?_eq_some_iff.1 hnew).1
  exact h.activate hnew rfl
    (.cons hroot (fun _ hnone => nomatch hnone) (fun _ hj => hj) (fun _ hj => Or.inl hj.1) (.nil _))

/-- A reference to a new node is followed. -/
theorem Inv.enter {node child : Nat} {more : List Nat}
    (h : Inv deps ((node, child :: more) :: path) marks order) (hbound : child < marks.size)
    (hnew : marks[child] = .new) :
    Inv deps ((child, deps.getD child []) :: (node, more) :: path) (marks.set child .active) order := by
  have hset : marks.set child .active = marks.setIfInBounds child .active := by
    rw [Array.setIfInBounds, dif_pos hbound]
  rw [hset]
  refine h.activate (by rw [Array.getElem?_eq_getElem hbound, hnew]) rfl ?_
  have hchild : child < deps.size := h.size ▸ hbound
  cases h.waiting with
  | cons hnode hinner hmore hrest htail =>
      refine .cons hchild (fun _ hnone => nomatch hnone) (fun _ hj => hj)
        (fun j hj => Or.inl hj.1) (.cons hnode ?_ ?_ ?_ htail)
      · rintro _ ⟨⟩
        exact ⟨hmore child List.mem_cons_self, hchild⟩
      · exact fun j hj => hmore j (List.mem_cons_of_mem _ hj)
      · intro j hj
        rcases hrest j hj with hlist | horder | hnone
        · rcases List.mem_cons.1 hlist with rfl | hlater
          · exact Or.inr (Or.inr rfl)
          · exact Or.inl hlater
        · exact Or.inr (Or.inl horder)
        · cases hnone

/-- A node with nothing left to follow is placed in the order. -/
theorem Inv.finish {node : Nat} (h : Inv deps ((node, []) :: path) marks order) :
    Inv deps path (marks.setIfInBounds node .done) (order.push node) := by
  have hnode : marks[node]? = some .active := (h.active node).2 List.mem_cons_self
  have hbound : node < marks.size := (Array.getElem?_eq_some_iff.1 hnode).1
  have hout : node ∉ order := by
    intro hmem
    have hdone := (h.done node).2 hmem
    rw [hnode] at hdone
    cases hdone
  have hpath := List.nodup_cons.1 h.path_nodup
  refine ⟨by rw [Array.size_setIfInBounds, h.size], ?_, ?_, hpath.2, ?_, ?_, ?_⟩
  · intro i
    rw [Array.getElem?_setIfInBounds]
    by_cases hi : node = i
    · subst hi
      simpa [hbound] using hpath.1
    · rw [if_neg hi, h.active i]
      simp [Ne.symm hi]
  · intro i
    rw [Array.getElem?_setIfInBounds, Array.mem_push]
    by_cases hi : node = i
    · subst hi
      simp [hbound]
    · rw [if_neg hi, h.done i]
      simp [Ne.symm hi]
  · rw [Array.toList_push]
    exact List.nodup_append.2 ⟨h.order_nodup, by simp, by
      rintro a ha b hb rfl
      obtain rfl : a = node := by simpa using hb
      exact hout (Array.mem_toList_iff.1 ha)⟩
  · rw [Array.toList_push]
    cases h.waiting with
    | cons _ _ _ hrest _ =>
        refine h.sorted.concat fun j hj => ?_
        rcases hrest j hj with hlist | horder | hnone
        · cases hlist
        · exact Array.mem_toList_iff.2 horder
        · cases hnone
  · cases h.waiting with
    | cons _ _ _ _ htail =>
        cases htail with
        | nil => exact .nil _
        | cons hnode hinner hmore hrest htail =>
            refine .cons hnode (fun _ hnone => nomatch hnone) hmore ?_
              (htail.mono fun i hi => Array.mem_push.2 (Or.inl hi))
            intro j hj
            rcases hrest j hj with hlist | horder | hinner
            · exact Or.inl hlist
            · exact Or.inr (Or.inl (Array.mem_push.2 (Or.inl horder)))
            · exact Or.inr (Or.inl (Array.mem_push.2 (Or.inr (Option.some.inj hinner).symm)))

/-- A node that is not new has been ordered where no path is under way. -/
theorem Inv.mem_order {i : Nat} (h : Inv deps [] marks order) (hbound : i < deps.size)
    (hnew : marks[i]? ≠ some .new) : i ∈ order := by
  cases hmark : marks[i]? with
  | none => exact absurd (Array.getElem?_eq_none_iff.1 hmark) (Nat.not_le.2 (h.size ▸ hbound))
  | some mark =>
      cases mark with
      | new => exact absurd hmark hnew
      | active => exact absurd ((h.active i).1 hmark) List.not_mem_nil
      | done => exact (h.done i).1 hmark

/-- A reference to a node on the path closes a cycle. -/
theorem Inv.isCycle {node child : Nat} {more : List Nat}
    (h : Inv deps ((node, child :: more) :: path) marks order) (hbound : child < marks.size)
    (hactive : marks[child] = .active) : IsCycle deps (cycleFrom ((node, more) :: path) child) := by
  have hchild : Refers deps node child := by
    cases h.waiting with
    | cons _ _ hmore _ _ => exact ⟨hmore child List.mem_cons_self, h.size ▸ hbound⟩
  let nodes : List Nat := node :: path.map Prod.fst
  have hmem : child ∈ nodes.reverse :=
    List.mem_reverse.2 ((h.active child).1 (by rw [Array.getElem?_eq_getElem hbound, hactive]))
  have hchain : nodes.reverse.IsChain (Refers deps) := List.isChain_reverse.2 h.waiting.isChain
  have hnodup : nodes.reverse.Nodup := List.nodup_reverse.2 h.path_nodup
  obtain ⟨front, rest, hsplit⟩ := List.append_of_mem hmem
  have hcycle : cycleFrom ((node, more) :: path) child = child :: rest ++ [child] := by
    have hfront : ∀ a ∈ front, (a != child) = true := by
      intro a ha
      rw [hsplit] at hnodup
      exact bne_iff_ne.2 ((List.nodup_append.1 hnodup).2.2 a ha child List.mem_cons_self)
    change nodes.reverse.dropWhile (· != child) ++ [child] = _
    rw [hsplit, List.dropWhile_append_of_pos hfront, List.dropWhile_cons_of_neg (by simp)]
  rw [hsplit] at hchain hnodup
  refine ⟨child, rest, hcycle, (List.nodup_append.1 hnodup).2.1, ?_⟩
  rw [hcycle]
  refine List.isChain_append.2 ⟨hchain.suffix (List.suffix_append _ _), .singleton _, ?_⟩
  -- the last node before the cycle closes is the one entered last
  have hlast : (child :: rest).getLast? = some node := by
    have hwhole : nodes.reverse.getLast? = some node := by rw [List.getLast?_reverse]; rfl
    rwa [hsplit, List.getLast?_append_of_ne_nil _ (List.cons_ne_nil _ _)] at hwhole
  intro a ha b hb
  rw [hlast] at ha
  obtain rfl := Option.mem_some_iff.1 ha
  obtain rfl := Option.mem_some_iff.1 hb
  exact hchild

/-! ### Runs -/

/-- What a search may come to: an order of its own that has all the nodes that are `wanted`, or a
    cycle. -/
def Outcome (deps : Array (List Nat)) (wanted : Nat → Prop) :
    Except (List Nat) (Array Mark × Array Nat) → Prop
  | .ok (marks, order) => Inv deps [] marks order ∧ ∀ i, wanted i → i ∈ order
  | .error cycle => IsCycle deps cycle

/-- Less may be wanted of a search than it has found. -/
theorem Outcome.weaken {wanted wanted' : Nat → Prop}
    {result : Except (List Nat) (Array Mark × Array Nat)} (h : Outcome deps wanted result)
    (himp : ∀ i, wanted' i → wanted i) : Outcome deps wanted' result := by
  cases result with
  | error cycle => exact h
  | ok found => exact ⟨h.1, fun i hi => h.2 i (himp i hi)⟩

/-- A run along a path orders all nodes on it, besides those ordered before, or finds a cycle. The
    induction follows the search. -/
theorem run_spec (h : Inv deps path marks order) :
    Outcome deps (fun i => i ∈ order ∨ i ∈ path.map Prod.fst) (run deps path marks order) := by
  fun_induction run deps path marks order with
  | case1 marks order => exact ⟨h, fun _ hi => hi.resolve_right List.not_mem_nil⟩
  | case2 node path marks order ih =>
      refine (ih h.finish).weaken fun i hi => ?_
      rcases hi with hold | hpath
      · exact Or.inl (Array.mem_push.2 (Or.inl hold))
      · rcases List.mem_cons.1 hpath with rfl | hlater
        · exact Or.inl (Array.mem_push.2 (Or.inr rfl))
        · exact Or.inr hlater
  | case3 node child more path marks order hbound hnew ih =>
      refine (ih (h.enter hbound hnew)).weaken fun i hi => ?_
      exact hi.imp_right (List.mem_cons_of_mem child)
  | case4 node child more path marks order hbound hactive => exact h.isCycle hbound hactive
  | case5 node child more path marks order hbound hdone ih =>
      exact ih (h.skip fun _ =>
        (h.done child).1 (by rw [Array.getElem?_eq_getElem hbound, hdone]))
  | case6 node child more path marks order hbound ih =>
      exact ih (h.skip fun hchild => absurd (h.size ▸ hchild.2) hbound)

/-- Searching from each of the given nodes orders them, besides those ordered before, or finds a
    cycle. -/
theorem runAll_spec (roots : List Nat) (h : Inv deps [] marks order) :
    match runAll deps roots marks order with
    | .ok order' =>
      (∃ marks', Inv deps [] marks' order') ∧ (∀ i ∈ order, i ∈ order') ∧
        ∀ i ∈ roots, i < deps.size → i ∈ order'
    | .error cycle => IsCycle deps cycle := by
  induction roots generalizing marks order with
  | nil => exact ⟨⟨marks, h⟩, fun _ hi => hi, fun _ hi => nomatch hi⟩
  | cons root roots ih =>
      unfold runAll
      by_cases hnew : marks[root]? = some .new
      · rw [if_pos (by rw [hnew]; rfl)]
        have hrun := run_spec (h.start hnew)
        cases hfound : run deps [(root, deps.getD root [])] (marks.setIfInBounds root .active) order with
        | error cycle =>
            rw [hfound] at hrun
            exact hrun
        | ok found =>
            rw [hfound] at hrun
            have hrest := ih hrun.1
            simp only
            cases hall : runAll deps roots found.1 found.2 with
            | error cycle =>
                rw [hall] at hrest
                exact hrest
            | ok order' =>
                rw [hall] at hrest
                refine ⟨hrest.1, fun i hi => hrest.2.1 i (hrun.2 i (Or.inl hi)), fun i hi hbound => ?_⟩
                rcases List.mem_cons.1 hi with rfl | hlater
                · exact hrest.2.1 _ (hrun.2 _ (Or.inr List.mem_cons_self))
                · exact hrest.2.2 i hlater hbound
      · rw [if_neg fun hnew' => hnew (by simpa using hnew')]
        have hrest := ih h
        cases hall : runAll deps roots marks order with
        | error cycle =>
            rw [hall] at hrest
            exact hrest
        | ok order' =>
            rw [hall] at hrest
            refine ⟨hrest.1, hrest.2.1, fun i hi hbound => ?_⟩
            rcases List.mem_cons.1 hi with rfl | hlater
            · exact hrest.2.1 i (h.mem_order hbound hnew)
            · exact hrest.2.2 i hlater hbound

end Search

/-! ### The order -/

/-- Before the first search no node is ordered. -/
theorem Search.inv_start (deps : Array (List Nat)) :
    Search.Inv deps [] (Array.replicate deps.size .new) #[] where
  size := Array.size_replicate
  active := by
    intro i
    rw [Array.getElem?_replicate]
    split <;> simp
  done := by
    intro i
    rw [Array.getElem?_replicate]
    split <;> simp
  path_nodup := List.nodup_nil
  order_nodup := List.nodup_nil
  sorted := by
    intro before i hprefix
    have hlength := hprefix.length_le
    simp at hlength
  waiting := .nil none

/-- The search orders all nodes, each after those it refers to, or names the nodes around a cycle. -/
theorem dependencyOrder_spec (deps : Array (List Nat)) :
    match dependencyOrder deps with
    | .ok order => order.toList.Perm (List.range deps.size) ∧ Sorted deps order.toList
    | .error cycle => IsCycle deps cycle := by
  have hspec := Search.runAll_spec (List.range deps.size) (Search.inv_start deps)
  unfold dependencyOrder
  cases hfound : Search.runAll deps (List.range deps.size) (Array.replicate deps.size .new) #[] with
  | error cycle =>
      rw [hfound] at hspec
      exact hspec
  | ok order =>
      rw [hfound] at hspec
      obtain ⟨⟨marks, hinv⟩, -, hall⟩ := hspec
      refine ⟨(List.perm_ext_iff_of_nodup hinv.order_nodup List.nodup_range).2 fun i => ?_, hinv.sorted⟩
      rw [List.mem_range, Array.mem_toList_iff]
      constructor
      · intro hi
        rw [← hinv.size]
        exact (Array.getElem?_eq_some_iff.1 ((hinv.done i).2 hi)).1
      · exact fun hi => hall i (List.mem_range.2 hi) hi

/-- In an order of the nodes each comes later than those it refers to. -/
theorem Sorted.idxOf_lt {deps : Array (List Nat)} {order : List Nat} (h : Sorted deps order)
    (hnodup : order.Nodup) {i j : Nat} (hi : i ∈ order) (hj : Refers deps i j) :
    order.idxOf j < order.idxOf i := by
  obtain ⟨before, after, rfl⟩ := List.append_of_mem hi
  have hjmem : j ∈ before := h before i ⟨after, by simp⟩ j hj
  have hinot : i ∉ before := fun hmem =>
    (List.nodup_append.1 hnodup).2.2 i hmem i List.mem_cons_self rfl
  rw [List.idxOf_append_of_mem hjmem, List.idxOf_append_of_notMem hinot, List.idxOf_cons_self]
  exact Nat.lt_of_lt_of_le (List.idxOf_lt_length_iff.2 hjmem) (Nat.le_add_right _ _)

/-- What decreases along a relation decreases along any number of its steps. -/
theorem rank_lt_of_transGen {α : Type} {R : α → α → Prop} {rank : α → Nat}
    (h : ∀ a b, R a b → rank b < rank a) {a b : α} (hpath : Relation.TransGen R a b) :
    rank b < rank a := by
  induction hpath with
  | single hab => exact h _ _ hab
  | tail _ hbc ih => exact Nat.lt_trans (h _ _ hbc) ih

/-- The nodes of a chain are reached from its first. -/
theorem transGen_of_isChain {α : Type} {R : α → α → Prop} {a b : α} {rest : List α}
    (h : (a :: rest).IsChain R) (hb : b ∈ rest) : Relation.TransGen R a b := by
  induction rest generalizing a with
  | nil => cases hb
  | cons c rest ih =>
      obtain ⟨hac, hrest⟩ := List.isChain_cons_cons.1 h
      rcases List.mem_cons.1 hb with rfl | hlater
      · exact .single hac
      · exact .head hac (ih hrest hlater)

/-- There is an order exactly if no node refers to itself by way of others. -/
theorem dependencyOrder_isOk_iff (deps : Array (List Nat)) :
    (∃ order, dependencyOrder deps = .ok order) ↔ ∀ i, ¬ Relation.TransGen (Refers deps) i i := by
  have hspec := dependencyOrder_spec deps
  constructor
  · rintro ⟨order, horder⟩ i hcycle
    rw [horder] at hspec
    have hdecrease : ∀ a b, Refers deps a b → order.toList.idxOf b < order.toList.idxOf a := by
      intro a b hab
      have ha : a ∈ order.toList := hspec.1.mem_iff.2 (List.mem_range.2 hab.lt_left)
      exact hspec.2.idxOf_lt (hspec.1.nodup_iff.2 List.nodup_range) ha hab
    exact Nat.lt_irrefl _ (rank_lt_of_transGen hdecrease hcycle)
  · intro hacyclic
    cases hfound : dependencyOrder deps with
    | ok order => exact ⟨order, rfl⟩
    | error cycle =>
        rw [hfound] at hspec
        obtain ⟨node, inner, rfl, -, hchain⟩ := hspec
        exact absurd (transGen_of_isChain hchain (List.mem_append_right _ List.mem_cons_self))
          (hacyclic node)

/-! ### Graphs that are in order already -/

namespace Search
variable {deps : Array (List Nat)} {path : Path} {marks : Array Mark} {order : Array Nat}

/-- A node that refers to nothing but what is placed already is placed next. -/
theorem run_of_done {node : Nat} {children : List Nat}
    (h : ∀ child ∈ children, child < marks.size → marks[child]? = some .done) :
    run deps ((node, children) :: path) marks order =
      run deps path (marks.setIfInBounds node .done) (order.push node) := by
  induction children with
  | nil => rw [run]
  | cons child more ih =>
      have hmore := ih fun c hc => h c (List.mem_cons_of_mem _ hc)
      rw [run]
      by_cases hchild : child < marks.size
      · have hdone := h child List.mem_cons_self hchild
        rw [Array.getElem?_eq_getElem hchild, Option.some.injEq] at hdone
        rw [dif_pos hchild]
        split
        · rename_i hnew
          rw [hdone] at hnew
          cases hnew
        · rename_i hactive
          rw [hdone] at hactive
          cases hactive
        · exact hmore
      · rw [dif_neg hchild]
        exact hmore

/-- Nodes that refer to earlier ones only are placed one after the other. The induction is on how many
    there are still to place. -/
theorem runAll_range' (hbackward : ∀ i j, Refers deps i j → j < i) (count next : Nat)
    (hsize : deps.size = next + count) (hmarks : marks.size = deps.size)
    (hdone : ∀ i, i < next → marks[i]? = some .done)
    (hnew : ∀ i, next ≤ i → i < deps.size → marks[i]? = some .new) :
    runAll deps (List.range' next count) marks order = .ok (order ++ List.range' next count) := by
  induction count generalizing next marks order with
  | zero => simp [runAll]
  | succ count ih =>
      have hnext : next < deps.size := by omega
      have hplaced : run deps [(next, deps.getD next [])] (marks.setIfInBounds next .active) order =
          .ok ((marks.setIfInBounds next .active).setIfInBounds next .done, order.push next) := by
        rw [run_of_done, run]
        intro child hchild hbound
        rw [Array.size_setIfInBounds, hmarks] at hbound
        have hearlier := hbackward next child ⟨hchild, hbound⟩
        rw [Array.getElem?_setIfInBounds_ne (Nat.ne_of_gt hearlier), hdone child hearlier]
      rw [List.range'_succ, runAll, if_pos (by rw [hnew next (Nat.le_refl _) hnext]; rfl), hplaced]
      simp only
      rw [ih (next + 1) (by omega)]
      · simp
      · simp [hmarks]
      · intro i hi
        by_cases hlast : i = next
        · subst hlast
          simp [hmarks, hnext]
        · rw [Array.getElem?_setIfInBounds_ne (Ne.symm hlast),
            Array.getElem?_setIfInBounds_ne (Ne.symm hlast), hdone i (by omega)]
      · intro i hi hbound
        have hne : next ≠ i := by omega
        rw [Array.getElem?_setIfInBounds_ne hne, Array.getElem?_setIfInBounds_ne hne,
          hnew i (by omega) hbound]

end Search

/-- Where nodes refer to earlier ones only, they stay in the order in which they are. -/
theorem dependencyOrder_of_backward {deps : Array (List Nat)} (h : ∀ i j, Refers deps i j → j < i) :
    dependencyOrder deps = .ok (Array.range deps.size) := by
  rw [dependencyOrder, List.range_eq_range', Search.runAll_range' h deps.size 0 (Nat.zero_add _).symm]
  · simp [← List.range_eq_range']
  · simp
  · intro i hi
    omega
  · intro i _ hi
    simp [hi]

end FlatDae
