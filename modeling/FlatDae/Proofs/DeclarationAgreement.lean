/-
Module: FlatDae.Proofs.DeclarationAgreement
Purpose: Declarations and whole texts are read in two passes as they are in one. For every text, whatever
  stands in it, the parts that reading takes from the pairs are there and mean something; all that can be
  wrong is the number of an output of 2^64 or more, and that is what the tree of the text says, too.
Main exports: agree_component, agree_element, agree_model, agree_main, parseChecked_eq
-/
import FlatDae.Proofs.ExpressionAgreement

namespace FlatDae.Source

/-- Whether the outputs that are selected in the value of an attribute fit. -/
def AttributeValue.outputsFit : AttributeValue → Bool
  | .text _ _ => true
  | .expression e => e.outputsFit

/-- Whether those in attributes do. -/
def settingsFit (settings : List AttributeSetting) : Bool := settings.all (·.value.outputsFit)

/-- Whether those in a component do. -/
def Component.outputsFit (c : Component) : Bool :=
  settingsFit c.attributes && c.binding.all (·.outputsFit)

/-- Whether those in an equation do. -/
def Equation.outputsFit (eq : Equation) : Bool := eq.lhs.outputsFit && eq.rhs.outputsFit

namespace Parser

open FlatDae.Source.Grammar

variable {bound : Nat}

/-! ### Attributes -/

theorem agree_quoted : Agree Pairs.quoted quoted fun p v => readValue p = settled v.outputsFit v := by
  have htext : Agree (Pairs.pairHere .quotedText do
        let _ ← takeWhile (· != '"')
        return [])
      (takeWhile (· != '"')) fun p text => p.text = String.ofList text := by
    intro c
    have htake : takeWhile (· != '"') c = some (c.rest.takeWhile (· != '"'), _) := rfl
    exact .read (pairHere_eq (bind_eq htake)) htake (passes_takeWhile htake).1.textTo
  refine .pair fun c _ => ?_
  refine Agree.both _ (fun _ => htext.bind fun p text hp => .both _ fun _ => .pure fun s => ?_) c
  change (Except.ok (AttributeValue.text c.offset p.text) : Checked AttributeValue) = _
  rw [hp]
  rfl

theorem agree_attributeSetting : Agree (Pairs.attributeSetting bound) (attributeSetting bound) fun p s =>
    readSetting p = settled s.value.outputsFit s := by
  have hexpression : Agree (Pairs.expression bound) (do return .expression (← expression bound)) fun p v =>
      readValue p = settled (AttributeValue.outputsFit v) v := by
    refine (agree_expression bound).returning fun p e ⟨hrule, hp⟩ => ?_
    rw [readValue, hrule, hp]
    exact settled_map _
  refine .pair fun c _ => ?_
  refine agree_name.bind (fun name n ⟨_, hname⟩ => .both _ fun _ => ?_) c
  refine (agree_quoted.orElse hexpression).bind fun value v hvalue => .pure fun text => ?_
  change (do return AttributeSetting.mk c.offset name.text (← readValue value)) = _
  rw [hname, hvalue]
  exact settled_map (AttributeSetting.mk c.offset n)

theorem agree_modification : Agree (Pairs.modification bound) (modification bound) fun p settings =>
    p.rule = .modification ∧ p.inner.mapM readSetting = settled (settingsFit settings) settings := by
  refine .rule (SkipsBlanks.literal _).bind (.both _ fun _ => ?_)
  refine (agree_attributeSetting.listed bound).bind fun ps settings hsettings => .both _ fun _ => .pure ?_
  exact fun start text => ⟨rfl, mapM_settled hsettings⟩

/-! ### Types and functions -/

theorem agree_typeDeclaration : Agree (Pairs.typeDeclaration bound) (typeDeclaration bound) fun p d =>
    p.rule = .typeDeclaration ∧ readType p = settled (settingsFit d.attributes) d := by
  refine .pair fun c _ => ?_
  refine Agree.both _ (fun _ => agree_name.bind fun name n ⟨_, hname⟩ => .both _ fun _ => ?_) c
  refine agree_name.bind fun base b ⟨_, hbase⟩ => ?_
  refine (agree_modification.optionOr []).bind fun p? settings h => .both _ fun _ => .pure fun text => ⟨rfl, ?_⟩
  rcases h with ⟨p, rfl, -, hsettings⟩ | ⟨rfl, rfl⟩
  · change (do return TypeDeclaration.mk c.offset name.text base.text (← p.inner.mapM readSetting)) = _
    rw [hname, hbase, hsettings]
    exact settled_map (TypeDeclaration.mk c.offset n b)
  · rw [← hname, ← hbase]
    rfl

/-- The inputs of a function are the texts of names. -/
theorem agree_params : Agree (Pairs.params bound) (do
      literal "("
      let params ← separated bound name <|> pure []
      literal ")"
      return params) fun p params => p.inner.map Pair.text = params := by
  refine .rule (SkipsBlanks.literal _).bind (.both _ fun _ => ?_)
  refine (agree_name.listed bound).bind fun ps names hnames => .both _ fun _ => .pure fun start text => ?_
  have htexts : List.Forall₂ Eq (ps.map Pair.text) names :=
    List.forall₂_map_left_iff.2 (hnames.imp fun _ _ h => h.2)
  rwa [List.forall₂_eq_eq_eq] at htexts

theorem agree_outputs : Agree (Pairs.outputs bound) (do
      literal "("
      let outputs ← separated bound (expression bound)
      literal ")"
      return outputs) fun p outputs =>
    p.inner.mapM readExpression = settled (outputs.all (·.outputsFit)) outputs := by
  refine .rule (SkipsBlanks.literal _).bind (.both _ fun _ => ?_)
  refine ((agree_expression bound).separated bound).bind fun ps es hes => .both _ fun _ => .pure fun _ _ => ?_
  exact mapM_settled (hes.imp fun _ _ h => h.2)

theorem agree_functionDeclaration : Agree (Pairs.functionDeclaration bound) (functionDeclaration bound)
    fun p d => p.rule = .functionDeclaration ∧ readFunction p = settled (d.outputs.all (·.outputsFit)) d := by
  have hread : functionDeclaration bound = (do
      let offset ← start
      literal "function"
      let declared ← name
      let params ← (do
        literal "("
        let params ← separated bound name <|> pure []
        literal ")"
        return params)
      literal "="
      let outputs ← (do
        literal "("
        let outputs ← separated bound (expression bound)
        literal ")"
        return outputs)
      literal ";"
      return { start := offset, name := declared, params, outputs }) := by
    simp only [functionDeclaration, bind_assoc, pure_bind]
  rw [hread]
  refine .pair fun c _ => ?_
  refine Agree.both _ (fun _ => agree_name.bind fun name n ⟨_, hname⟩ => ?_) c
  refine agree_params.bind fun inputs params hparams => .both _ fun _ => ?_
  refine agree_outputs.bind fun results outputs houtputs => .both _ fun _ => .pure fun text => ⟨rfl, ?_⟩
  change (do
    let outputs ← results.inner.mapM readExpression
    return FunctionDeclaration.mk c.offset name.text (inputs.inner.map Pair.text) outputs) = _
  rw [hname, hparams, houtputs]
  exact settled_map (FunctionDeclaration.mk c.offset n params)

/-! ### Components -/

theorem agree_qualifier : Agree (Pairs.token .qualifier qualifier) qualifier fun p q =>
    p.rule = .qualifier ∧ qualifierOf p.text = .ok q := by
  refine .token_self (.firstOf fun p hp => ?_) takes_qualifier fun start q taken htaken => ⟨rfl, ?_⟩
  · obtain ⟨q, -, rfl⟩ := List.mem_map.1 hp
    exact (SkipsBlanks.word _).bind
  · rw [Pair.text, htaken, String.ofList_toList]
    exact qualifierOf_spelling q

/-- The qualifiers in front of a component are read, up to its type. -/
theorem readQualifiers_eq {ps : List Pair} {qs : List Qualifier}
    (h : List.Forall₂ (fun p q => p.rule = .qualifier ∧ qualifierOf p.text = .ok q) ps qs)
    {typeName : Pair} (htype : typeName.rule = .name) (rest : List Pair) :
    readQualifiers (ps ++ typeName :: rest) = .ok (qs, typeName :: rest) := by
  induction h with
  | nil =>
      rw [List.nil_append, readQualifiers, htype, if_neg (by decide)]
  | cons hp _ ih =>
      rw [List.cons_append, readQualifiers, if_pos hp.1, hp.2, ih]
      rfl

theorem agree_aliasClause : Agree Pairs.aliasClause aliasClause fun p clause =>
    p.rule = .aliasClause ∧ readAlias p = .ok clause := by
  have hnegation : Agree (Pairs.token .negation (literal "-")) (do literal "-"; return true) fun p negated =>
      p.rule = .negation ∧ negated = true := by
    refine Agree.returning (R := fun p _ => p.rule = .negation) ?_ fun p _ hp => ⟨hp, rfl⟩
    exact .token_self (.literal _) (takes_literal _) fun _ _ _ _ => rfl
  refine .rule (SkipsBlanks.literal _).bind (.both _ fun _ => ?_)
  refine (hnegation.optionOr false).bind fun p? negated hnegated => ?_
  refine agree_name.bind fun target n ⟨htargetRule, htarget⟩ => .pure fun start text => ⟨rfl, ?_⟩
  rcases hnegated with ⟨p, rfl, hrule, rfl⟩ | ⟨rfl, rfl⟩
  · have hnext : nextIf .negation [p, target] = (some p, [target]) := by rw [nextIf, if_pos hrule]
    rw [readAlias, ← htarget]
    change (next (nextIf .negation [p, target]).2 >>= fun r =>
      .ok (AliasClause.mk r.1.text (nextIf .negation [p, target]).1.isSome)) = _
    rw [hnext]
    rfl
  · have hnext : nextIf .negation [target] = (none, [target]) := by
      rw [nextIf, htargetRule, if_neg (by decide)]
    rw [readAlias, ← htarget]
    change (next (nextIf .negation [target]).2 >>= fun r =>
      .ok (AliasClause.mk r.1.text (nextIf .negation [target]).1.isSome)) = _
    rw [hnext]
    rfl

theorem agree_binding : Agree (Pairs.binding bound) (binding bound) fun p e =>
    p.rule = .binding ∧ ∃ x, p.inner = [x] ∧ x.Means e := by
  refine .rule (SkipsBlanks.literal _).bind (.both _ fun _ => ?_)
  exact (agree_expression bound).wrapping fun x e h start text => ⟨rfl, x, rfl, h.2⟩

theorem firstOf_three {α : Type} (p q : Parser α) (a : α) :
    firstOf [p, q, pure a] = ((p <|> q) <|> pure a) := by
  funext c
  change (p c <|> (q c <|> (some (a, c) <|> none))) = ((p c <|> q c) <|> some (a, c))
  cases p c <;> cases q c <;> rfl

/-- What a component is defined as, if anything. -/
theorem agree_definition : Agree (optional (Pairs.aliasClause <|> Pairs.binding bound))
    (firstOf
      [do return (some (← aliasClause), none),
       do return (none, some (← binding bound)),
       pure (none, none)])
    fun p? definition => ∀ c : Component,
      p?.toList.foldlM readDefinition { c with binding := none, aliasOf := none } =
        settled (definition.2.all (·.outputsFit))
          { c with aliasOf := definition.1, binding := definition.2 } := by
  let R (p : Pair) (definition : Option AliasClause × Option Expression) : Prop := ∀ c : Component,
    readDefinition { c with binding := none, aliasOf := none } p =
      settled (definition.2.all (·.outputsFit)) { c with aliasOf := definition.1, binding := definition.2 }
  have halias : Agree Pairs.aliasClause (do return (some (← aliasClause), none)) R := by
    refine agree_aliasClause.returning fun p clause ⟨hrule, hp⟩ c => ?_
    simp only [readDefinition, hrule, hp]
    rfl
  have hbinding : Agree (Pairs.binding bound) (do return (none, some (← binding bound))) R := by
    refine agree_binding.returning fun p e ⟨hrule, x, hinner, hx⟩ c => ?_
    simp only [readDefinition, hrule, hinner, next]
    change (do return { c with binding := some (← readExpression x), aliasOf := none }) = _
    rw [hx]
    exact settled_map fun value => { c with binding := some value, aliasOf := none }
  rw [firstOf_three]
  refine ((halias.orElse hbinding).optionOr (none, none)).imp ?_
  rintro p? definition (⟨p, rfl, hp⟩ | ⟨rfl, rfl⟩) c
  · exact (bind_pure _).trans (hp c)
  · rfl

theorem agree_component : Agree (Pairs.component bound) (component bound) fun p c =>
    p.rule = .component ∧ readComponent p = settled c.outputsFit c := by
  refine .pair fun c _ => ?_
  refine (agree_qualifier.many bound).bind (fun ps qs hqs => ?_) c
  refine agree_name.bind fun typeName T ⟨htypeRule, htype⟩ => ?_
  refine agree_name.bind fun name n ⟨_, hname⟩ => ?_
  refine (agree_modification.optionOr []).bind fun m? settings hsettings => ?_
  refine agree_definition.bind fun d? definition hdefinition => .both _ fun _ => .pure fun text => ⟨rfl, ?_⟩
  subst htype hname
  let head : Component := ⟨c.offset, qs, typeName.text, name.text, [], none, none⟩
  have hread : readComponent (.mk .component c.offset text
      (ps ++ typeName :: name :: (m?.toList ++ d?.toList))) =
      (m?.toList ++ d?.toList).foldlM readDefinition head := by
    rw [readComponent, Pair.inner, readQualifiers_eq hqs htypeRule]
    rfl
  have hattributes : m?.toList.foldlM readDefinition head =
      settled (settingsFit settings) { head with attributes := settings } := by
    rcases hsettings with ⟨m, rfl, hrule, hm⟩ | ⟨rfl, rfl⟩
    · refine (bind_pure _).trans ?_
      simp only [readDefinition, hrule, hm]
      exact settled_map fun attributes => { head with attributes }
    · rfl
  rw [hread, List.foldlM_append, hattributes]
  exact settled_bind (hdefinition { head with attributes := settings })

/-! ### Equations and elements -/

theorem agree_equation : Agree (Pairs.equation bound) (equation bound) fun p eq =>
    readEquation p = settled eq.outputsFit eq := by
  refine .pair fun c _ => ?_
  refine (agree_expression bound).bind (fun x lhs ⟨_, hlhs⟩ => .both _ fun _ => ?_) c
  refine (agree_expression bound).bind fun y rhs ⟨_, hrhs⟩ => .both _ fun _ => .pure fun text => ?_
  change (do return Equation.mk c.offset (← readExpression x) (← readExpression y)) = _
  rw [hlhs, hrhs]
  exact settled_bind (settled_map _)

end Parser

/-! ### Elements -/

open FlatDae.Source.Grammar

/-- Whether the outputs that are selected in an element fit. -/
def Grammar.Element.outputsFit : Element → Bool
  | .type d => settingsFit d.attributes
  | .function d => d.outputs.all (·.outputsFit)
  | .component c => c.outputsFit
  | .initialSection eqs => eqs.all (·.outputsFit)
  | .equationSection eqs => eqs.all (·.outputsFit)

/-- The model with one element more. -/
def Model.extend (m : Model) : Element → Model
  | .type d => { m with types := m.types ++ [d] }
  | .function d => { m with functions := m.functions ++ [d] }
  | .component c => { m with components := m.components ++ [c] }
  | .initialSection eqs => { m with initialEquations := m.initialEquations ++ eqs }
  | .equationSection eqs => { m with equations := m.equations ++ eqs }

/-- An element is read into the model as far as it is read. -/
def Pair.Extends (p : Pair) (e : Element) : Prop :=
  ∀ m : Model, readElement m p = settled e.outputsFit (m.extend e)

open FlatDae.Source.Parser

theorem agree_element (bound : Nat) : Agree (Pairs.element bound) (element bound) Pair.Extends := by
  have htype : Agree (Pairs.typeDeclaration bound) (do return .type (← typeDeclaration bound))
      Pair.Extends := by
    refine agree_typeDeclaration.returning fun p d ⟨hrule, hp⟩ m => ?_
    simp only [readElement, hrule, hp]
    exact settled_map fun d => { m with types := m.types ++ [d] }
  have hfunction : Agree (Pairs.functionDeclaration bound) (do return .function (← functionDeclaration bound))
      Pair.Extends := by
    refine agree_functionDeclaration.returning fun p d ⟨hrule, hp⟩ m => ?_
    simp only [readElement, hrule, hp]
    exact settled_map fun d => { m with functions := m.functions ++ [d] }
  have hcomponent : Agree (Pairs.component bound) (do return .component (← component bound))
      Pair.Extends := by
    refine agree_component.returning fun p c ⟨hrule, hp⟩ m => ?_
    simp only [readElement, hrule, hp]
    exact settled_map fun c => { m with components := m.components ++ [c] }
  refine htype.orElse (hfunction.orElse (.orElse ?_ (.orElse ?_ (hcomponent.orElse .failure))))
  · refine .rule (SkipsBlanks.literal _).bind (.both _ fun _ => .both _ fun _ => ?_)
    refine (agree_equation.many bound).returning fun ps eqs heqs start text m => ?_
    change (do return { m with initialEquations := m.initialEquations ++ (← ps.mapM readEquation) }) = _
    rw [mapM_settled heqs]
    exact settled_map fun eqs => { m with initialEquations := m.initialEquations ++ eqs }
  · refine .rule (SkipsBlanks.literal _).bind (.both _ fun _ => ?_)
    refine (agree_equation.many bound).returning fun ps eqs heqs start text m => ?_
    change (do return { m with equations := m.equations ++ (← ps.mapM readEquation) }) = _
    rw [mapM_settled heqs]
    exact settled_map fun eqs => { m with equations := m.equations ++ eqs }

/-- The parts of a model behind its name are read one after the other, and the closing name is passed
    over. -/
theorem readElements_settled {ps : List Pair} {es : List Element} (h : List.Forall₂ Pair.Extends ps es)
    {closing : Pair} (hclosing : closing.rule = .name) (m : Model) :
    (ps ++ [closing]).foldlM readElement m = settled (es.all (·.outputsFit)) (es.foldl Model.extend m) := by
  induction h generalizing m with
  | nil =>
      change (readElement m closing >>= pure) = _
      rw [bind_pure, readElement, hclosing]
      rfl
  | @cons p e ps es hp _ ih =>
      rw [List.cons_append, List.foldlM_cons, hp m, List.all_cons, List.foldl_cons]
      exact settled_bind (ih (m.extend e))

/-- Element by element the parts of a model come together. -/
theorem foldl_extend (es : List Element) (m : Model) : es.foldl Model.extend m =
    { m with
      types := m.types ++ es.filterMap Element.type?
      functions := m.functions ++ es.filterMap Element.function?
      components := m.components ++ es.filterMap Element.component?
      initialEquations := m.initialEquations ++ es.flatMap Element.initialEquations
      equations := m.equations ++ es.flatMap Element.equations } := by
  induction es generalizing m with
  | nil => simp
  | cons e es ih =>
      rw [List.foldl_cons, ih]
      cases e <;> simp [Model.extend, List.filterMap_cons, Element.type?, Element.function?, Element.component?,
        Element.initialEquations, Element.equations]

theorem all_outputsFit_settingExpressions (settings : List AttributeSetting) :
    (settingExpressions settings).all (·.outputsFit) = settingsFit settings := by
  induction settings with
  | nil => rfl
  | cons s settings ih =>
      rw [settingsFit, List.all_cons, ← settingsFit, ← ih, settingExpressions, List.filterMap_cons,
        ← settingExpressions]
      cases s.value <;> rfl

/-- The outputs that are selected in a model are those that are selected in its parts. -/
theorem outputsFitAll_expressions (m : Model) : outputsFitAll m.expressions =
    (m.types.all (settingsFit ·.attributes) && m.functions.all (·.outputs.all (·.outputsFit)) &&
      m.components.all (·.outputsFit) && m.initialEquations.all (·.outputsFit) &&
        m.equations.all (·.outputsFit)) := by
  have hcomponent (c : Component) : (settingExpressions c.attributes ++ c.binding.toList).all (·.outputsFit) =
      c.outputsFit := by
    rw [List.all_append, all_outputsFit_settingExpressions, Component.outputsFit]
    cases c.binding <;> simp
  have hequation (eq : Equation) : [eq.lhs, eq.rhs].all (·.outputsFit) = eq.outputsFit := by
    simp [Equation.outputsFit]
  simp only [outputsFitAll_eq_all, Model.expressions, List.all_append, List.all_flatMap, List.flatMap_append,
    all_outputsFit_settingExpressions, hcomponent, hequation, Bool.and_assoc]

/-- A model fits with one element more if the element does, too. -/
theorem outputsFitAll_extend (m : Model) (e : Element) :
    outputsFitAll (m.extend e).expressions = (outputsFitAll m.expressions && e.outputsFit) := by
  rw [outputsFitAll_expressions, outputsFitAll_expressions]
  cases e <;> simp [Model.extend, Element.outputsFit, Bool.and_comm, Bool.and_left_comm, Bool.and_assoc]

theorem outputsFitAll_foldl_extend (es : List Element) (m : Model) :
    outputsFitAll (es.foldl Model.extend m).expressions =
      (outputsFitAll m.expressions && es.all (·.outputsFit)) := by
  induction es generalizing m with
  | nil => simp
  | cons e es ih => rw [List.foldl_cons, ih, outputsFitAll_extend, List.all_cons, Bool.and_assoc]

/-! ### Texts -/

theorem initialSections_flatten (es : List Element) :
    (es.filterMap fun | .initialSection eqs => some eqs | _ => none).flatten =
      es.flatMap Element.initialEquations :=
  flatten_filterMap_eq_flatMap (fun e => by cases e <;> rfl) es

theorem equationSections_flatten (es : List Element) :
    (es.filterMap fun | .equationSection eqs => some eqs | _ => none).flatten =
      es.flatMap Element.equations :=
  flatten_filterMap_eq_flatMap (fun e => by cases e <;> rfl) es

theorem agree_model (bound : Nat) : Agree (Pairs.model bound) (model bound) fun p m =>
    readModel p = settled (outputsFitAll m.expressions) m := by
  refine .pair fun c _ => ?_
  refine Agree.both _ (fun _ => agree_name.bind fun name n ⟨_, hname⟩ => ?_) c
  refine ((agree_element bound).many bound).bind fun ps es hes => .both _ fun _ => ?_
  refine agree_name.bind fun closing last ⟨hclosing, _⟩ => .both _ fun _ => .pure fun text => ?_
  let head : Model := ⟨c.offset, n, [], [], [], [], []⟩
  have hread : readModel (.mk .model c.offset text (name :: ps ++ [closing])) =
      settled (outputsFitAll (es.foldl Model.extend head).expressions) (es.foldl Model.extend head) := by
    change (ps ++ [closing]).foldlM readElement (⟨c.offset, name.text, [], [], [], [], []⟩ : Model) = _
    rw [hname, readElements_settled hes hclosing, outputsFitAll_foldl_extend]
    rfl
  rw [hread, foldl_extend, ← initialSections_flatten, ← equationSections_flatten]
  rfl

/-- A text is read from its pairs as it is read at once, the numbers of outputs aside. -/
theorem agree_main (bound : Nat) : Agree (Pairs.main bound) (wholeText bound) fun p m =>
    readText [p] = settled (outputsFitAll m.expressions) m := by
  have hend : Agree (Pairs.token .textEnd atEnd) atEnd fun _ _ => True := by
    refine .token_self SkipsBlanks.skipBlanks.bind (T := fun _ _ => True) ?_ fun _ _ _ _ => trivial
    intro c _ c' hc h
    obtain ⟨_, c₁, hskip, h⟩ := bind_eq_some_iff.1 h
    obtain ⟨found, c₂, hget, h⟩ := bind_eq_some_iff.1 h
    obtain ⟨rfl, rfl⟩ := Prod.mk.inj (Option.some.inj hget)
    obtain ⟨-, hpast⟩ := Prod.mk.inj (Option.some.inj hskip)
    obtain ⟨taken, hpasses⟩ := ahead_pastBlanks c
    cases hrest : c₁.rest with
    | nil =>
        rw [hrest] at h
        obtain ⟨-, rfl⟩ := pure_eq_some_iff.1 h
        exact ⟨taken, hpast ▸ hpasses, trivial⟩
    | cons a rest =>
        rw [hrest] at h
        cases h
  have hbody : Agree (do
        let model ← Pairs.model bound
        let last ← Pairs.token .textEnd atEnd
        return [model, last])
      (wholeText bound) fun inner m => ∀ start text,
        readText [.mk .main start text inner] = settled (outputsFitAll m.expressions) m := by
    refine (agree_model bound).bind fun p m hp => ?_
    exact hend.bind fun last _ _ => .pure fun start text => hp
  intro c
  exact (hbody c).pairHere fun inner m text h => h c.offset text

/-- **Reading in two passes is reading.** For every text both passes come to their end, with the tree that
    the text has or with the answer that it follows no rule, unless the number of an output does not fit
    into 64 bits. -/
theorem parseChecked_eq (text : String) : parseChecked text =
    match parse text with
    | .ok m => .ok (.ok m)
    | .error .malformed => .ok (.error .malformed)
    | .error .outputTooLarge => .error .tooLarge := by
  unfold parseChecked pairs? parse
  simp only [StateT.run]
  cases agree_main text.length (.ofString text) with
  | fail hP hp =>
      rw [hP, hp]
      rfl
  | @read p m c' hP hp hread =>
      rw [hP, hp]
      change (do return (.ok (← readText [p]) : Except ParseFailure Model)) = _
      rw [hread]
      cases hfit : outputsFitAll m.expressions with
      | true => simp only [hfit]; rfl
      | false => simp only [hfit]; rfl

end FlatDae.Source
