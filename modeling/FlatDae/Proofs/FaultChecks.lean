/-
Module: FlatDae.Proofs.FaultChecks
Purpose: Actions that check something. Such an action finds a fault exactly if what it checks does not
  hold, never forgets one that was found before, and establishes something for the next action where it
  finds none. Checks in sequence check everything together.
Main exports: FaultCount, Checks, Checks.bind, Checks.adapt, Checks.forM, Builds, Builds.elaborating,
  Builds.attempt
-/
import FlatDae.Elaboration.Model

namespace FlatDae.Elaboration

/-- States in which the faults found are counted. -/
class FaultCount (σ : Type) where
  faultCount : σ → Nat

export FaultCount (faultCount)

instance : FaultCount Progress := ⟨fun progress => progress.problems.size⟩

instance : FaultCount Draft := ⟨fun draft => draft.problems.size⟩

/-- The action finds new faults exactly if `sound` does not hold, provided that it starts where `pre`
    holds; and where it finds none `post` holds of its result and the state it leads to. -/
structure Checks {σ α : Type} [FaultCount σ] (pre : σ → Prop) (x : StateM σ α) (sound : Prop)
    (post : α → σ → Prop) : Prop where
  /-- Faults are not forgotten, wherever the action starts. -/
  grows : ∀ s, faultCount s ≤ faultCount (x.run s).2
  passes : sound → ∀ s, pre s → faultCount (x.run s).2 = faultCount s ∧ post (x.run s).1 (x.run s).2
  reports : ¬ sound → ∀ s, pre s → faultCount s < faultCount (x.run s).2

namespace Checks

section Rules

variable {σ α β : Type} [FaultCount σ] {pre pre' : σ → Prop} {sound sound' : Prop} {x : StateM σ α}
  {f : α → StateM σ β} {post post' : α → σ → Prop} {post'' : β → σ → Prop}

/-- A check that starts in particular states, in which it checks something else. -/
theorem adapt (h : Checks pre x sound post)
    (hpre : ∀ s, pre' s → pre s ∧ (sound ↔ sound') ∧ ∀ a s', post a s' → post' a s') :
    Checks pre' x sound' post' where
  grows := h.grows
  passes := by
    intro hsound s hs
    obtain ⟨hstart, hiff, hpost⟩ := hpre s hs
    obtain ⟨hcount, ha⟩ := h.passes (hiff.2 hsound) s hstart
    exact ⟨hcount, hpost _ _ ha⟩
  reports := by
    intro hsound s hs
    obtain ⟨hstart, hiff, -⟩ := hpre s hs
    exact h.reports (fun holds => hsound (hiff.1 holds)) s hstart

/-- Where nothing can start there is nothing to check. -/
theorem vacuous (h : Checks pre x sound post) (hpre : ∀ s, ¬ pre' s) : Checks pre' x sound' post' :=
  h.adapt fun s hs => absurd hs (hpre s)

/-- What is checked holds afterwards. -/
theorem remember (h : Checks pre x sound post) : Checks pre x sound fun a s => sound ∧ post a s where
  grows := h.grows
  passes := fun hsound s hs => ⟨(h.passes hsound s hs).1, hsound, (h.passes hsound s hs).2⟩
  reports := h.reports

/-- What does not depend on the state still holds after a check. -/
theorem framed (h : Checks pre x sound post) (fact : Prop) :
    Checks (fun s => fact ∧ pre s) x sound fun a s => fact ∧ post a s :=
  h.adapt fun _ hs => ⟨hs.2, Iff.rfl, fun _ _ ha => ⟨hs.1, ha⟩⟩

theorem keeping (h : Checks (fun _ => True) x sound post) (fact : Prop) :
    Checks (fun _ => fact) x sound fun a s => fact ∧ post a s :=
  (h.framed fact).adapt fun _ hfact => ⟨⟨hfact, trivial⟩, Iff.rfl, fun _ _ ha => ha⟩

/-- The same check, put otherwise. -/
theorem congr (h : Checks pre x sound post) (hiff : sound ↔ sound') : Checks pre x sound' post :=
  h.adapt fun _ hs => ⟨hs, hiff, fun _ _ ha => ha⟩

/-- One check after the other. -/
theorem bind (h : Checks pre x sound post) (hf : ∀ a, Checks (post a) (f a) sound' post'') :
    Checks pre (x >>= f) (sound ∧ sound') post'' where
  grows := by
    intro s
    exact Nat.le_trans (h.grows s) ((hf (x.run s).1).grows (x.run s).2)
  passes := by
    intro hsound s hs
    obtain ⟨hcount, ha⟩ := h.passes hsound.1 s hs
    obtain ⟨hcount', hb⟩ := (hf (x.run s).1).passes hsound.2 (x.run s).2 ha
    exact ⟨hcount'.trans hcount, hb⟩
  reports := by
    intro hsound s hs
    by_cases hfirst : sound
    · obtain ⟨hcount, ha⟩ := h.passes hfirst s hs
      have hlater := (hf (x.run s).1).reports (fun holds => hsound ⟨hfirst, holds⟩) (x.run s).2 ha
      exact hcount ▸ hlater
    · exact Nat.lt_of_lt_of_le (h.reports hfirst s hs) ((hf (x.run s).1).grows (x.run s).2)

/-- An action that finds no fault anywhere. -/
theorem silent (hcount : ∀ s, faultCount (x.run s).2 = faultCount s)
    (hpost : ∀ s, pre s → post (x.run s).1 (x.run s).2) : Checks pre x True post where
  grows := fun s => Nat.le_of_eq (hcount s).symm
  passes := fun _ s hs => ⟨hcount s, hpost s hs⟩
  reports := fun hsound => absurd trivial hsound

theorem pure {a : α} (hpost : ∀ s, pre s → post a s) : Checks pre (Pure.pure a : StateM σ α) True post :=
  silent (fun _ => rfl) hpost

theorem done {a : α} : Checks pre (Pure.pure a : StateM σ α) True fun _ => pre := pure fun _ hs => hs

theorem pure_of_not {a : α} (hpre : ∀ s, ¬ pre s) :
    Checks pre (Pure.pure a : StateM σ α) sound post := by
  have hpure : Checks (fun _ => True) (Pure.pure a : StateM σ α) True fun _ _ => True :=
    .pure fun _ _ => trivial
  exact hpure.vacuous hpre

/-- The state that is read is the one there is. -/
theorem get : Checks pre (MonadState.get : StateM σ σ) True fun s s' => s = s' ∧ pre s' :=
  silent (fun _ => rfl) fun _ hs => ⟨rfl, hs⟩

/-- What comes after something that finds no fault. -/
theorem after (h : Checks pre x True post) (hf : ∀ a, Checks (post a) (f a) sound' post'') :
    Checks pre (x >>= f) sound' post'' :=
  (h.bind hf).congr ⟨And.right, And.intro trivial⟩

/-- What comes before something that finds no fault. -/
theorem before (h : Checks pre x sound post) (hf : ∀ a, Checks (post a) (f a) True post'') :
    Checks pre (x >>= f) sound post'' :=
  (h.bind hf).congr ⟨And.left, fun hsound => ⟨hsound, trivial⟩⟩

/-- The result of a check need not be looked at. -/
theorem discard (h : Checks pre x sound post) :
    Checks pre (Functor.discard x) sound fun _ s => ∃ a, post a s where
  grows := h.grows
  passes := fun hsound s hs => ⟨(h.passes hsound s hs).1, _, (h.passes hsound s hs).2⟩
  reports := h.reports

/-- A check of every member of a list, in states that stay as they are in some respect. -/
theorem forM {xs : List β} {check : β → StateM σ Unit} {ok : β → Prop}
    (h : ∀ b ∈ xs, Checks pre (check b) (ok b) fun _ => pre) :
    Checks pre (xs.forM check) (∀ b ∈ xs, ok b) fun _ => pre := by
  induction xs with
  | nil =>
      have hnil : Checks pre (Pure.pure () : StateM σ Unit) True fun _ => pre := .pure fun _ hs => hs
      refine hnil.congr ⟨fun _ b hb => absurd hb List.not_mem_nil, fun _ => trivial⟩
  | cons b xs ih =>
      have hrest := ih fun b' hb' => h b' (List.mem_cons_of_mem b hb')
      refine ((h b List.mem_cons_self).bind fun _ => hrest).congr ?_
      rw [List.forall_mem_cons]

end Rules

/-! ### Nodes and faults -/

section Expressions

variable {α : Type} {pre : Progress → Prop}

/-- Making nodes finds no fault. -/
theorem make (new : Fresh α) {post : α → Progress → Prop}
    (hpost : ∀ progress : Progress, pre progress →
      post (new.run progress.supply).1 { progress with supply := (new.run progress.supply).2 }) :
    Checks pre (Elaboration.make new) True post :=
  silent (fun _ => rfl) hpost

/-- A node that is made is there. -/
theorem makeSome (new : Fresh α) :
    Checks pre (do return some (← Elaboration.make new)) True fun built _ => built.isSome = true :=
  silent (fun _ => rfl) fun _ _ => rfl

theorem report (start : Nat) (problem : Problem) {post : Unit → Progress → Prop} :
    Checks pre (Elaboration.report start problem) False post where
  grows := fun progress => by
    change progress.problems.size ≤ (progress.problems.push _).size
    rw [Array.size_push]
    exact Nat.le_succ _
  passes := False.elim
  reports := fun _ progress _ => by
    change progress.problems.size < (progress.problems.push _).size
    rw [Array.size_push]
    exact Nat.lt_succ_self _

theorem refuse (start : Nat) (problem : Problem) {post : Option α → Progress → Prop} :
    Checks pre (Elaboration.refuse start problem : Elaborating (Option α)) False post := by
  have hreport : Checks pre (Elaboration.report start problem) False fun _ _ => False :=
    report start problem
  exact hreport.before fun _ => Checks.pure fun _ hs => hs.elim

end Expressions

end Checks

/-! ### Drafts -/

/-- A check while a model is built; `I` holds of the model before and `J` after it. -/
abbrev Builds {α : Type} (I : Model → Prop) (x : Building α) (sound : Prop) (J : α → Model → Prop) :
    Prop :=
  Checks (fun draft : Draft => I draft.model) x sound fun a draft => J a draft.model

namespace Builds

variable {α : Type} {I : Model → Prop} {sound : Prop} {J : α → Model → Prop}

/-- Building an expression changes nothing of the model but its supply. -/
theorem elaborating {x : Elaborating α} {R : α → Prop}
    (hI : ∀ (m : Model) (supply : Supply), I m → I { m with supply })
    (h : Checks (fun _ => True) x sound fun a _ => R a) :
    Builds I (Elaboration.elaborating x) sound fun a m => R a ∧ I m where
  grows := fun draft => h.grows { supply := draft.model.supply, problems := draft.problems }
  passes := by
    intro hsound draft hdraft
    obtain ⟨hcount, ha⟩ :=
      h.passes hsound { supply := draft.model.supply, problems := draft.problems } trivial
    exact ⟨hcount, ha, hI _ _ hdraft⟩
  reports := fun hsound draft _ =>
    h.reports hsound { supply := draft.model.supply, problems := draft.problems } trivial

/-- The same where nothing is to be known of the result. -/
theorem elaborating_keeps {x : Elaborating α}
    (hI : ∀ (m : Model) (supply : Supply), I m → I { m with supply })
    (h : Checks (fun _ => True) x sound fun _ _ => True) :
    Builds I (Elaboration.elaborating x) sound fun _ => I :=
  Checks.adapt (elaborating hI h) fun _ hs => ⟨hs, Iff.rfl, fun _ _ ha => ha.2⟩

/-- What is always a fault is one in every model. -/
theorem fault {x : Elaborating α} (h : Checks (fun _ => True) x False fun _ _ => True) :
    Builds I (Elaboration.elaborating x) False J where
  grows := fun draft => h.grows { supply := draft.model.supply, problems := draft.problems }
  passes := False.elim
  reports := fun hsound draft _ =>
    h.reports hsound { supply := draft.model.supply, problems := draft.problems } trivial

/-- A fault stays one whatever is done next. -/
theorem fault_bind {β : Type} {x : Elaborating α} {f : α → Building β} {I' : Model → Prop}
    {sound' : Prop} {K K' : β → Model → Prop} (h : Checks (fun _ => True) x False fun _ _ => True)
    (hf : ∀ a, Builds I' (f a) sound' K') : Builds I (Elaboration.elaborating x >>= f) False K := by
  have hfault : Builds I (Elaboration.elaborating x) False fun _ => I' := fault h
  have hboth := Checks.bind hfault hf
  exact ⟨hboth.grows, False.elim, fun hsound => hboth.reports fun holds => hsound holds.1⟩

/-- A fault for a reason. -/
theorem fault_of_not {I' : Model → Prop} {x : Building α} (h : Builds I x False J)
    (hpre : ∀ m, I' m → I m ∧ ¬ sound) : Builds I' x sound J :=
  Checks.adapt h fun _ hdraft =>
    ⟨(hpre _ hdraft).1, ⟨False.elim, (hpre _ hdraft).2⟩, fun _ _ ha => ha⟩

/-- A fault that is reported because something does not hold of the model. -/
theorem fault_of_model {x : Elaborating α} (h : Checks (fun _ => True) x False fun _ _ => True)
    (hI : ∀ m, I m → ¬ sound) : Builds I (Elaboration.elaborating x) sound J :=
  fault_of_not (fault h) fun m hm => ⟨hm, hI m hm⟩

/-- What is done depends on the model as it is. -/
theorem get {f : Draft → Building α}
    (hf : ∀ start : Draft, Builds (fun m => start.model = m ∧ I m) (f start) sound J) :
    Builds I (MonadState.get >>= f) sound J :=
  Checks.after Checks.get fun start => Checks.adapt (hf start) fun _ hs =>
    ⟨⟨congrArg Draft.model hs.1, hs.2⟩, Iff.rfl, fun _ _ h => h⟩

theorem modifyModel {f : Model → α × Model} (hJ : ∀ m, I m → J (f m).1 (f m).2) :
    Builds I (Elaboration.modifyModel f) True J :=
  Checks.silent (fun _ => rfl) fun draft hdraft => hJ draft.model hdraft

/-- An action on the model succeeds or is reported. -/
theorem attempt_run (start : Nat) (action : ModelAction Unit) (draft : Draft) :
    (Elaboration.attempt start action).run draft =
      match action.run draft.model with
      | .ok () m => (true, { draft with model := m })
      | .error error m =>
        (false, { model := m, problems := draft.problems.push { problem := .refused error, start } }) := by
  unfold Elaboration.attempt
  simp only [StateT.run_bind, StateT.run_get, pure_bind]
  cases action.run draft.model <;> rfl

theorem attempt {start : Nat} {action : ModelAction Unit} {K : Model → Prop}
    (h : ∀ m, I m →
      match action.run m with
      | .ok () m' => sound ∧ K m'
      | .error _ _ => ¬ sound) :
    Builds I (Elaboration.attempt start action) sound fun succeeded m => succeeded = true ∧ K m where
  grows := by
    intro draft
    rw [attempt_run]
    cases action.run draft.model with
    | ok a m => exact Nat.le_refl _
    | error error m =>
        change draft.problems.size ≤ (draft.problems.push _).size
        rw [Array.size_push]
        exact Nat.le_succ _
  passes := by
    intro hsound draft hdraft
    have houtcome := h draft.model hdraft
    rw [attempt_run]
    cases hrun : action.run draft.model with
    | ok a m =>
        rw [hrun] at houtcome
        exact ⟨rfl, rfl, houtcome.2⟩
    | error error m =>
        rw [hrun] at houtcome
        exact absurd hsound houtcome
  reports := by
    intro hsound draft hdraft
    have houtcome := h draft.model hdraft
    rw [attempt_run]
    cases hrun : action.run draft.model with
    | ok a m =>
        rw [hrun] at houtcome
        exact absurd houtcome.1 hsound
    | error error m =>
        change draft.problems.size < (draft.problems.push _).size
        rw [Array.size_push]
        exact Nat.lt_succ_self _

end Builds

end FlatDae.Elaboration
