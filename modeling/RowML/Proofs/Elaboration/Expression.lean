import RowML.Elaboration.Expression
import RowML.Proofs.Elaboration.Steps

/-!
# Steps of expressions

Looking up names, elaborating kinds, constructors, patterns, headers and expressions are steps
inside one declaration.  The functions that call each other are treated together, by induction on
the fuel.
-/

namespace RowML

namespace Elaborate

open Session (AllowsAsking AllowsForcing AllowsSolving AllowsScoping Encloses)

section Asking

variable {R : Session → Session → Prop} [AllowsAsking R]

/-! ## Names and paths -/

theorem moduleFrom_within (span : Span) (seen : List String) (ref : ModuleRef)
    (path : List String) : Within R (moduleFrom span seen ref path) := by
  induction path generalizing seen ref with
  | nil => exact .bind getGlobals_within fun _ => .pure _
  | cons step path ih =>
    refine .bind getGlobals_within fun globals => ?_
    split
    · exact .pure _
    · refine .bind getGlobals_within fun globals => ?_
      split
      · exact fail_within _ _
      · exact ih _ _
    · exact fail_within _ _
    · exact fail_within _ _

theorem moduleOrFunctor_within (span : Span) (path : List String) :
    Within R (moduleOrFunctor span path) := by
  cases path with
  | nil => exact fail_within _ _
  | cons first rest =>
    refine .bind (meaning_within first .module) fun meaning => ?_
    split
    · exact moduleFrom_within _ _ _ _
    · exact moduleFrom_within _ _ _ _
    · exact fail_within _ _

theorem modulePath_within (span : Span) (path : List String) :
    Within R (modulePath span path) := by
  refine .bind (moduleOrFunctor_within span path) fun ref =>
    .bind getGlobals_within fun globals => ?_
  split
  · exact fail_within _ _
  · exact .pure _

theorem moduleCon_within (span : Span) (ref : ModuleRef) (item : String) :
    Within R (moduleCon span ref item) := by
  refine .bind getGlobals_within fun globals => ?_
  simp only
  split
  · exact .pure _
  · exact .pure _
  · exact fail_within _ _

theorem declaredCon_within (span : Span) (name : String) (meaning : Meaning) :
    Within R (declaredCon span name meaning) := by
  unfold declaredCon
  split
  · refine .bind getGlobals_within fun globals => ?_
    split
    · exact .pure _
    · exact .pure _
    · exact fail_within _ _
  · exact moduleCon_within _ _ _
  · exact .bind get_within fun _ => .pure _
  · exact fail_within _ _

theorem findCon_orderly (scope : Scope) (name : String) :
    Throughout KindStore.Orderly (scope.findCon? name) := by
  unfold Scope.findCon?
  split
  · split
    · exact .bind (KindStore.lift_throughout KindStore.Orderly.resolve _ _ _) fun _ => .pure _
    · exact .pure _
  · exact .pure _

theorem findVal_orderly (scope : Scope) (name : String) :
    Throughout KindStore.Orderly (scope.findVal? name) := by
  unfold Scope.findVal?
  split
  · split
    · exact .bind (Con.weaken_throughout KindStore.Orderly.resolve _ _) fun _ => .pure _
    · exact .pure _
  · exact .pure _

theorem conVar_within (span : Span) (name : String) : Within R (conVar span name) := by
  refine .bind get_within fun session =>
    .bind (onKindM_within (findCon_orderly _ _)) fun found => ?_
  split
  · exact .pure _
  · split
    · exact declaredCon_within _ _ _
    · split
      · exact .pure _
      · exact fail_within _ _

theorem nestedSignature_within (span : Span) (sig : Signature) (path : List String) :
    Within R (nestedSignature span sig path) := by
  induction path generalizing sig with
  | nil => exact .pure _
  | cons step path ih =>
    unfold nestedSignature
    split
    · exact ih _
    · exact fail_within _ _

theorem conPath_within (span : Span) (modules : List String) (item : String) :
    Within R (conPath span modules item) := by
  unfold conPath
  split
  · exact conVar_within span item
  · refine .bind (meaning_within _ .module) fun meaning => ?_
    split
    · refine .bind (nestedSignature_within span _ _) fun sig => ?_
      split
      · exact .pure _
      · simp only
        split
        · exact .bind get_within fun _ => .pure _
        · exact .bind get_within fun _ => .pure _
        · exact fail_within _ _
    · exact .bind (modulePath_within span _) fun _ => moduleCon_within span _ item
    · exact fail_within _ _

theorem moduleVal_within (span : Span) (ref : ModuleRef) (item : String) :
    Within R (moduleVal span ref item) := by
  refine .bind getGlobals_within fun globals => ?_
  split
  · exact .pure _
  · exact fail_within _ _

theorem valVar_within (span : Span) (name : String) : Within R (valVar span name) := by
  refine .bind get_within fun session =>
    .bind (onKindM_within (findVal_orderly _ _)) fun found => ?_
  split
  · exact .pure _
  · split
    · refine .bind getGlobals_within fun globals => ?_
      split
      · exact .pure _
      · exact fail_within _ _
    · exact moduleVal_within _ _ _
    · exact fail_within _ _

theorem valPath_within (span : Span) (modules : List String) (item : String) :
    Within R (valPath span modules item) :=
  .bind (modulePath_within span modules) fun _ => moduleVal_within span _ item

/-! ## Kinds -/

theorem elaborateKind_within (fuel : Nat) (k : Surface.Kind) :
    Within R (elaborateKind fuel k) := by
  induction fuel generalizing k with
  | zero => exact noFuel_within
  | succ fuel ih =>
    unfold elaborateKind
    split
    · exact .pure _
    · exact .pure _
    · exact .pure _
    · exact .bind (ih _) fun _ => .bind (ih _) fun _ => .pure _
    · exact .bind (ih _) fun _ => .pure _
    · exact .bind (.mapM ih _) fun _ => .pure _
    · refine .bind get_within fun session => ?_
      split
      · exact .pure _
      · exact fail_within _ _
    · exact .bind (inside_within (.kind · _) (ih _)) fun _ => .pure _
    · exact freshKind_within

theorem elaborateKindOption_within (fuel : Nat) (k : Option Surface.Kind) :
    Within R (elaborateKind? fuel k) := by
  cases k with
  | some k => exact elaborateKind_within fuel k
  | none => exact freshKind_within

theorem substKind_orderly (kind argument : Kind) :
    Throughout KindStore.Orderly (KindStore.subst kind argument 0) :=
  KindStore.subst_throughout KindStore.Orderly.resolve _ _ _

theorem instantiateKind_within (fuel : Nat) (c : Con) (kind : Kind) :
    Within R (instantiateKind fuel c kind) := by
  induction fuel generalizing c kind with
  | zero => exact noFuel_within
  | succ fuel ih =>
    refine .bind (onKindM_within (.resolve _)) fun resolved => ?_
    split
    · exact .bind freshKind_within fun _ => .bind (onKindM_within (substKind_orderly _ _)) fun _ =>
        ih _ _
    · exact .pure _

/-! ## Constructors -/

theorem checkFieldApart_within (fuel : Nat) (span : Span) (element : Kind) (name value : Con)
    (others : List (Con × Con)) :
    Within R (checkFieldApart fuel span element name value others) := by
  refine .forM (fun field => ?_) others
  simp only
  split
  · exact fail_within _ _
  · split
    · exact .pure _
    · exact requireDisjoint_within _ _ _ _

theorem checkFieldsApart_within (fuel : Nat) (span : Span) (element : Kind)
    (fields : List (Con × Con)) : Within R (checkFieldsApart fuel span element fields) := by
  induction fields with
  | nil => exact .pure _
  | cons field fields ih =>
    exact .bind (checkFieldApart_within fuel span element _ _ fields) fun _ => ih

/-- The functions on constructors, as far as that much fuel takes them. -/
private structure ConWithin (R : Session → Session → Prop) (fuel : Nat) : Prop where
  check : ∀ c kind, Within R (checkCon fuel c kind)
  infer : ∀ c, Within R (inferCon fuel c)

private theorem checkCon_succ {fuel : Nat} (ih : ConWithin R fuel) (c : Surface.Con) (kind : Kind) :
    Within R (checkCon (fuel + 1) c kind) := by
  unfold checkCon
  extract_lets byInference
  have hinferred : Within R byInference :=
    .bind (ih.infer c) fun _ => .bind (unifyKinds_within _ _ _ _ _) fun _ => .pure _
  split
  · exact freshCon_within kind
  · refine .bind (onKindM_within (.resolve _)) fun resolved => ?_
    split
    · exact .bind (inside_within (.con · _ _) (ih.check _ _)) fun _ => .pure _
    · exact hinferred
  · exact hinferred

theorem tupleComponent_orderly {kind : Kind} {index : Nat} :
    Throughout KindStore.Orderly (KindStore.tupleComponent kind index).run :=
  KindStore.Orderly.operation (.tupleComponent kind index)

private theorem inferCon_succ {fuel : Nat} (ih : ConWithin R fuel) (c : Surface.Con) :
    Within R (inferCon (fuel + 1) c) := by
  obtain ⟨node, span⟩ := c
  unfold inferCon
  cases node with
  | var name => exact .bind (conVar_within _ _) fun _ => instantiateKind_within _ _ _
  | path modules item => exact .bind (conPath_within _ _ _) fun _ => instantiateKind_within _ _ _
  | app f argument =>
    refine .bind (ih.infer f) fun f => .bind (onKindM_within (.resolve _)) fun kind => ?_
    split
    · exact .bind (.pure _) fun _ => .bind (ih.check _ _) fun _ => .pure _
    · exact .bind freshKind_within fun _ => .bind freshKind_within fun _ =>
        .bind (unifyKinds_within _ _ _ _ _) fun _ => .bind (.pure _) fun _ =>
        .bind (ih.check _ _) fun _ => .pure _
  | abs x kind body =>
    exact .bind (elaborateKindOption_within _ _) fun kind =>
      .bind (inside_within (.con · x kind) (ih.infer body)) fun _ => .pure _
  | arrow domain codomain =>
    exact .bind (ih.check domain _) fun _ => .bind (ih.check codomain _) fun _ => .pure _
  | poly x implicit kind body =>
    exact .bind (elaborateKindOption_within _ _) fun kind =>
      .bind (inside_within (.con · x kind) (ih.check body _)) fun _ => .pure _
  | kpoly x body => exact .bind (inside_within (.kind · x) (ih.check body _)) fun _ => .pure _
  | disjoint left right body =>
    refine .bind freshKind_within fun _ => .bind (ih.check left _) fun _ => ?_
    refine .bind freshKind_within fun _ => .bind (ih.check right _) fun _ => ?_
    exact .bind (inside_within (.fact · _ _) (ih.check body _)) fun _ => .pure _
  | record row | variant row => exact .bind (ih.check row _) fun _ => .pure _
  | row fields =>
    refine .bind freshKind_within fun element => .bind (.mapM (fun field => ?_) _) fun fields => ?_
    · exact .bind (ih.check _ _) fun _ => .bind (ih.check _ _) fun _ => .pure _
    · exact .bind (checkFieldsApart_within _ _ _ _) fun _ => .pure _
  | label name => exact .pure _
  | concat left right =>
    exact .bind freshKind_within fun _ => .bind (ih.check left _) fun _ =>
      .bind (ih.check right _) fun _ => .bind (requireDisjoint_within _ _ _ _) fun _ => .pure _
  | map f row =>
    exact .bind freshKind_within fun _ => .bind freshKind_within fun _ =>
      .bind (ih.check f _) fun _ => .bind (ih.check row _) fun _ => .pure _
  | proj row field =>
    exact .bind freshKind_within fun _ => .bind (ih.check row _) fun _ =>
      .bind (ih.check field _) fun _ => .pure _
  | unit => exact .pure _
  | tuple components => exact .bind (.mapM ih.infer _) fun _ => .pure _
  | component tuple index =>
    refine .bind (ih.infer tuple) fun tuple => ?_
    simp only
    split
    · exact fail_within _ _
    · refine .bind (onKindM_within tupleComponent_orderly) fun result => ?_
      split
      · exact .pure _
      · exact fail_within _ _
  | kabs x body => exact .bind (inside_within (.kind · x) (ih.infer body)) fun _ => .pure _
  | kapp f argument =>
    simp -zeta only
    extract_lets _ apply
    have happly (typed : Con × Kind) : Within R (apply typed) := by
      refine .bind (onKindM_within (.resolve _)) fun kind => ?_
      split
      · exact .bind (elaborateKind_within _ _) fun _ =>
          .bind (onKindM_within (substKind_orderly _ _)) fun _ => .pure _
      · exact .bind freshKind_within fun _ => fail_within _ _
    split
    · exact .bind (conVar_within _ _) happly
    · exact .bind (conPath_within _ _ _) happly
    · exact .bind (ih.infer f) happly
  | annot con kind =>
    exact .bind (elaborateKind_within _ _) fun _ => .bind (ih.check con _) fun _ => .pure _
  | wild => exact .bind freshKind_within fun _ => .bind (freshCon_within _) fun _ => .pure _

private theorem con_within (fuel : Nat) : ConWithin R fuel := by
  induction fuel with
  | zero => exact ⟨fun _ _ => noFuel_within, fun _ => noFuel_within⟩
  | succ fuel ih => exact ⟨checkCon_succ ih, inferCon_succ ih⟩

theorem checkCon_within (fuel : Nat) (c : Surface.Con) (kind : Kind) :
    Within R (checkCon fuel c kind) :=
  (con_within fuel).check c kind

theorem inferCon_within (fuel : Nat) (c : Surface.Con) : Within R (inferCon fuel c) :=
  (con_within fuel).infer c

theorem checkTypeOption_within (fuel : Nat) (c : Option Surface.Con) :
    Within R (checkType? fuel c) := by
  cases c with
  | some c => exact checkCon_within fuel c .type
  | none => exact freshCon_within .type

theorem checkRow_within (fuel : Nat) (c : Surface.Con) : Within R (checkRow fuel c) :=
  .bind freshKind_within fun _ => checkCon_within fuel c _

/-! ## Patterns and headers -/

theorem checkPattern_within (fuel : Nat) (pattern : Surface.Pattern) (type : Con) :
    Within R (checkPattern fuel pattern type) := by
  induction fuel generalizing pattern type with
  | zero => exact noFuel_within
  | succ fuel ih =>
    obtain ⟨node, span⟩ := pattern
    unfold checkPattern
    cases node with
    | wild => exact .pure _
    | var name => exact .pure _
    | lit value => exact .bind (unify_within _ _ _ _) fun _ => .pure _
    | variant name payload =>
      refine .bind (freshCon_within _) fun _ => .bind (freshCon_within _) fun _ => ?_
      refine .bind (unify_within _ _ _ _) fun _ =>
        .bind (requireDisjoint_within _ _ _ _) fun _ => ?_
      split
      · exact .bind (ih _ _) fun _ => .pure _
      · exact .bind (unify_within _ _ _ _) fun _ => .pure _
    | record fields opened =>
      refine .bind (.mapM (fun field => ?_) _) fun row => ?_
      · exact .bind (freshCon_within _) fun _ => .pure _
      · refine .bind (checkFieldsApart_within _ _ _ _) fun _ => ?_
        have hfields : ∀ rest : Option Con, Within R (do
            let checked ← (fields.zip row).mapM fun x => do
              let y ← checkPattern fuel x.1.2 x.2.2
              pure ((x.2.1, y.1), y.2)
            pure (Pattern.record (checked.map (·.1)) rest, checked.flatMap (·.2)) :
            ElaborateM (Pattern × Bound)) :=
          fun _ => .bind (.mapM (fun _ => .bind (ih _ _) fun _ => .pure _) _) fun _ => .pure _
        simp only
        split
        · refine .bind (.map (freshCon_within _)) fun rest => ?_
          split
          · exact .bind (unify_within _ _ _ _) fun _ =>
              .bind (requireDisjoint_within _ _ _ _) fun _ => hfields _
          · exact .bind (unify_within _ _ _ _) fun _ => hfields _
        · refine .bind (.pure _) fun rest => ?_
          split
          · exact .bind (unify_within _ _ _ _) fun _ =>
              .bind (requireDisjoint_within _ _ _ _) fun _ => hfields _
          · exact .bind (unify_within _ _ _ _) fun _ => hfields _
    | annot inner annotation =>
      exact .bind (checkCon_within _ _ _) fun _ => .bind (unify_within _ _ _ _) fun _ => ih _ _

theorem elaborateParam_within (fuel : Nat) (param : Surface.Param) :
    Within R (elaborateParam fuel param) := by
  cases param with
  | con x implicit kind => exact .bind (elaborateKindOption_within _ _) fun _ => .pure _
  | disjoint left right =>
    exact .bind (checkRow_within _ _) fun _ => .bind (checkRow_within _ _) fun _ => .pure _
  | val x type => exact .bind (checkTypeOption_within _ _) fun _ => .pure _

/-! ## Parts of expressions -/

theorem splitRecord_within (fuel : Nat) (span : Span) (field type record : Con) :
    Within R (splitRecord fuel span field type record) :=
  .bind (freshCon_within _) fun _ => .bind (unify_within _ _ _ _) fun _ =>
    .bind (requireDisjoint_within _ _ _ _) fun _ => .pure _

theorem closeVariant_within (fuel : Nat) (span : Span)
    (arms : List (Surface.Pattern × Surface.Expr)) (type : Con) :
    Within R (closeVariant fuel span arms type) := by
  unfold closeVariant
  split
  · exact .pure _
  · refine .bind (.mapM (fun name => ?_) _) fun fields => unify_within _ _ _ _
    exact .bind (freshCon_within _) fun _ => .pure _

end Asking

section Scoping

variable {R : Session → Session → Prop} [AllowsScoping R]

theorem enterParam_within {R : Session → Session → Prop} [AllowsSolving R] (fuel : Nat)
    (param : HeaderParam) : Within R (enterParam fuel param) := by
  cases param with
  | con x implicit kind => exact modifyScope_within (.con · x kind)
  | disjoint left right => exact modifyScope_within (.fact · left right)
  | val x type => exact pushVal_within fuel x type

theorem elaborateHeader_within (fuel : Nat) (function : Surface.Function) :
    Within R (elaborateHeader fuel function) := by
  refine inScope_of_solving (.bind (.mapM (fun param => ?_) _) fun params => ?_)
  · exact .bind (elaborateParam_within fuel param) fun _ =>
      .bind (enterParam_within fuel _) fun _ => .pure _
  · exact .bind (checkTypeOption_within _ _) fun _ => .pure _

/-! ## Expressions -/

theorem subst_orderly (body argument : Con) :
    Throughout KindStore.Orderly (body.subst argument) :=
  Con.subst_throughout KindStore.Orderly.resolve _ _

theorem substKinds_orderly (body : Con) (argument : Kind) :
    Throughout KindStore.Orderly (body.substKind argument) :=
  Con.substKind_throughout KindStore.Orderly.resolve _ _

theorem instantiate_within (span : Span) (fuel : Nat) (term : Term) (type : Con) :
    Within R (instantiate span fuel term type) := by
  induction fuel generalizing term type with
  | zero => exact noFuel_within
  | succ fuel ih =>
    unfold instantiate
    refine .bind (head_within fuel type) fun type => ?_
    split
    · exact .bind (freshCon_within _) fun _ => .bind (onKindM_within (subst_orderly _ _)) fun _ =>
        ih _ _
    · exact .bind freshKind_within fun _ =>
        .bind (onKindM_within (substKinds_orderly _ _)) fun _ => ih _ _
    · exact .bind (requireDisjoint_within _ _ _ _) fun _ => ih _ _
    · refine .bind (isGoal_within fuel _) fun goal => ?_
      split
      · exact .bind (requireClass_within _ _ _) fun _ => ih _ _
      · exact .pure _
    · exact .pure _

/-- The functions on expressions, as far as that much fuel takes them.  The binders of local
declarations are forgotten by whoever elaborates these. -/
private structure ExprWithin (R R' : Session → Session → Prop) (fuel : Nat) : Prop where
  check : ∀ e type, Within R (checkExpr fuel e type)
  form : ∀ e expected type, Within R (checkForm fuel e expected type)
  infer : ∀ e, Within R (inferExpr fuel e)
  case : ∀ span scrutinee arms expected,
    Within R (elaborateCase fuel span scrutinee arms expected)
  letIn : ∀ locals body expected, Within R (elaborateLet fuel locals body expected)
  decl : ∀ decl, Within R' (elaborateLocal fuel decl)
  body : ∀ function header, Within R (elaborateBody fuel function header)

section Expressions

variable {R' : Session → Session → Prop} [AllowsSolving R'] {fuel : Nat}
  (encloses : Encloses R R') (ih : ExprWithin R R' fuel)
include encloses ih

omit [AllowsSolving R'] encloses in
private theorem checkExpr_succ (e : Surface.Expr) (expected : Con) :
    Within R (checkExpr (fuel + 1) e expected) := by
  have hinside {f : Scope → Scope} (hf : ∀ scope : Scope, scope.Enters (f scope)) (body : Con)
      (wrap : Term → Term) : Within R (do
      let inner ← inScope do
        modifyScope f
        checkExpr fuel e body
      pure (wrap inner)) :=
    .bind (inside_within hf (ih.check _ _)) fun _ => .pure _
  unfold checkExpr
  refine .bind (head_within fuel expected) fun type => ?_
  split
  · split
    · exact ih.form _ _ _
    · exact hinside (.con · _ _) _ _
  · split
    · exact ih.form _ _ _
    · exact hinside (.kind · _) _ _
  · split
    · exact ih.form _ _ _
    · exact hinside (.fact · _ _) _ _
  · split
    · exact ih.form _ _ _
    · refine .bind (isGoal_within fuel _) fun goal => ?_
      split
      · exact hinside (.val · _ _ _) _ _
      · exact ih.form _ _ _
  · exact ih.form _ _ _

private theorem checkForm_succ (e : Surface.Expr) (expected type : Con) :
    Within R (checkForm (fuel + 1) e expected type) := by
  obtain ⟨node, span⟩ := e
  unfold checkForm
  extract_lets span byInference
  have hinferred : Within R byInference :=
    .bind (ih.infer _) fun _ => .bind (unify_within _ _ _ _) fun _ => .pure _
  cases node with
  | lam x annotation body =>
    have hbody : ∀ domain codomain, Within R (do
        let body ← inScope do
          pushVal fuel x domain
          checkExpr fuel body codomain
        pure (Term.abs x domain body)) := fun _ _ =>
      .bind (enclosed_within encloses (.bind (pushVal_within _ _ _) fun _ =>
        (ih.check _ _).mono encloses.le)) fun _ => .pure _
    simp only
    split
    · split
      · exact .bind (checkCon_within _ _ _) fun _ => .bind (unify_within _ _ _ _) fun _ => hbody _ _
      · exact hbody _ _
    · exact hinferred
  | cabs x implicit kind body =>
    have hbody : ∀ expectedKind expectedBody, Within R (do
        let body ← inScope do
          pushCon x expectedKind
          checkExpr fuel body expectedBody
        pure (Term.cabs x expectedKind body)) := fun _ _ =>
      .bind (inside_within (.con · _ _) (ih.check _ _)) fun _ => .pure _
    simp only
    split
    · split
      · split
        · exact .bind (elaborateKind_within _ _) fun _ =>
            .bind (unifyKinds_within _ _ _ _ _) fun _ => hbody _ _
        · exact hbody _ _
      · exact hinferred
    · exact hinferred
  | ite condition yes no =>
    exact .bind (ih.check condition _) fun _ => .bind (ih.check yes _) fun _ =>
      .bind (ih.check no _) fun _ => .pure _
  | letIn locals body => exact .bind (ih.letIn _ _ _) fun _ => .pure _
  | case scrutinee arms => exact .bind (ih.case _ _ _ _) fun _ => .pure _
  | _ => exact hinferred

private theorem inferExpr_succ (e : Surface.Expr) : Within R (inferExpr (fuel + 1) e) := by
  obtain ⟨node, span⟩ := e
  unfold inferExpr
  cases node with
  | lit value => exact .pure _
  | var name => exact .bind (valVar_within _ _) fun _ => instantiate_within _ _ _ _
  | path modules item => exact .bind (valPath_within _ _ _) fun _ => instantiate_within _ _ _ _
  | app f argument =>
    refine .bind (ih.infer f) fun f => .bind (head_within _ _) fun type => ?_
    split
    · exact .bind (.pure _) fun _ => .bind (ih.check _ _) fun _ => .pure _
    · exact .bind (freshCon_within _) fun _ => .bind (freshCon_within _) fun _ =>
        .bind (unify_within _ _ _ _) fun _ => .bind (.pure _) fun _ =>
        .bind (ih.check _ _) fun _ => .pure _
  | lam x annotation body =>
    refine .bind (checkTypeOption_within _ _) fun domain => ?_
    exact .bind (enclosed_within encloses (.bind (pushVal_within _ _ _) fun _ =>
      (ih.infer body).mono encloses.le)) fun _ => .pure _
  | capp f argument =>
    refine .bind (ih.infer f) fun f => .bind (head_within _ _) fun type => ?_
    split
    · exact .bind (.pure _) fun _ => .bind (checkCon_within _ _ _) fun _ =>
        .bind (onKindM_within (subst_orderly _ _)) fun _ => instantiate_within _ _ _ _
    · exact .bind freshKind_within fun _ => .bind conDepth_within fun _ =>
        .bind (onStore_within (.fresh _ _)) fun _ => .bind (unify_within _ _ _ _) fun _ =>
        .bind (.pure _) fun _ => .bind (checkCon_within _ _ _) fun _ =>
        .bind (onKindM_within (subst_orderly _ _)) fun _ => instantiate_within _ _ _ _
  | cabs x implicit kind body =>
    exact .bind (elaborateKindOption_within _ _) fun kind =>
      .bind (inside_within (.con · x kind) (ih.infer body)) fun _ => .pure _
  | kabs x body => exact .bind (inside_within (.kind · x) (ih.infer body)) fun _ => .pure _
  | kapp f argument =>
    simp -zeta only
    extract_lets _ apply
    have happly (typed : Term × Con) : Within R (apply typed) := by
      refine .bind (head_within _ _) fun type => ?_
      split
      · exact .bind (elaborateKind_within _ _) fun _ =>
          .bind (onKindM_within (substKinds_orderly _ _)) fun _ => instantiate_within _ _ _ _
      · exact .bind (freshCon_within _) fun _ => fail_within _ _
    split
    · exact .bind (valVar_within _ _) happly
    · exact .bind (valPath_within _ _ _) happly
    · exact .bind (ih.infer f) happly
  | disjointAbs left right body =>
    refine .bind (checkRow_within _ _) fun _ => .bind (checkRow_within _ _) fun _ => ?_
    exact .bind (inside_within (.fact · _ _) (ih.infer body)) fun _ => .pure _
  | record fields =>
    refine .bind (.mapM (fun field => ?_) _) fun typed => ?_
    · exact .bind (checkCon_within _ _ _) fun _ => .bind (ih.infer _) fun _ => .pure _
    · exact .bind (checkFieldsApart_within _ _ _ _) fun _ => .pure _
  | field record name | cut record name =>
    exact .bind (ih.infer record) fun _ => .bind (checkCon_within _ _ _) fun _ =>
      .bind (freshCon_within _) fun _ => .bind (splitRecord_within _ _ _ _ _) fun _ => .pure _
  | concat left right =>
    exact .bind (ih.infer left) fun _ => .bind (ih.infer right) fun _ =>
      .bind (freshCon_within _) fun _ => .bind (freshCon_within _) fun _ =>
      .bind (unify_within _ _ _ _) fun _ => .bind (unify_within _ _ _ _) fun _ =>
      .bind (requireDisjoint_within _ _ _ _) fun _ => .pure _
  | cutRow record row =>
    exact .bind (ih.infer record) fun _ => .bind (checkCon_within _ _ _) fun _ =>
      .bind (freshCon_within _) fun _ => .bind (unify_within _ _ _ _) fun _ =>
      .bind (requireDisjoint_within _ _ _ _) fun _ => .pure _
  | inject field value =>
    exact .bind (checkCon_within _ _ _) fun _ => .bind (ih.infer value) fun _ =>
      .bind (freshCon_within _) fun _ => .bind (requireDisjoint_within _ _ _ _) fun _ => .pure _
  | case scrutinee arms => exact ih.case _ _ _ _
  | letIn locals body => exact ih.letIn _ _ _
  | ite condition yes no =>
    exact .bind (ih.check condition _) fun _ => .bind (ih.infer yes) fun _ =>
      .bind (ih.check no _) fun _ => .pure _
  | annot e type =>
    exact .bind (checkCon_within _ _ _) fun _ => .bind (ih.check e _) fun _ => .pure _

private theorem elaborateCase_succ (span : Span) (scrutinee : Surface.Expr)
    (arms : List (Surface.Pattern × Surface.Expr)) (expected : Option Con) :
    Within R (elaborateCase (fuel + 1) span scrutinee arms expected) := by
  unfold elaborateCase
  refine .bind (ih.infer scrutinee) fun typed => .bind (closeVariant_within _ _ _ _) fun _ => ?_
  extract_lets rest
  have hrest (type : Con) : Within R (rest type) := by
    refine .bind (.mapM (fun arm => enclosed_within encloses ?_) _) fun _ => .pure _
    exact .bind (checkPattern_within _ _ _) fun _ =>
      .bind (.forM (fun _ => pushVal_within _ _ _) _) fun _ =>
      .bind ((ih.check _ _).mono encloses.le) fun _ => .pure _
  split
  · exact .bind (.pure _) hrest
  · exact .bind (freshCon_within _) hrest

omit [AllowsScoping R] in
private theorem elaborateLet_succ (locals : List Surface.Local) (body : Surface.Expr)
    (expected : Option Con) : Within R (elaborateLet (fuel + 1) locals body expected) := by
  refine enclosed_within encloses (.bind (.mapM ih.decl _) fun binders => ?_)
  simp only
  split
  · exact .bind ((ih.check _ _).mono encloses.le) fun _ => .bind (.pure _) fun _ => .pure _
  · exact .bind ((ih.infer _).mono encloses.le) fun _ => .pure _

omit [AllowsScoping R] in
private theorem elaborateLocal_succ (decl : Surface.Local) :
    Within R' (elaborateLocal (fuel + 1) decl) := by
  cases decl with
  | val name type body span =>
    exact .bind (checkTypeOption_within _ _) fun _ =>
      .bind ((ih.check body _).mono encloses.le) fun _ => .bind (runReady_within _) fun _ =>
        .bind (pushVal_within _ _ _) fun _ => .pure _
  | functions group =>
    refine .bind (.mapM (elaborateHeader_within fuel) _) fun headers => ?_
    refine .bind (.forM (fun _ => modifyScope_within (.val · _ _ _)) _) fun _ => ?_
    refine .bind (.mapM (fun _ => ?_) _) fun _ => .pure _
    exact .bind ((ih.body _ _).mono encloses.le) fun _ => .pure _

private theorem elaborateBody_succ (function : Surface.Function) (header : Header) :
    Within R (elaborateBody (fuel + 1) function header) := by
  refine .bind (enclosed_within encloses ?_) fun _ => .pure _
  exact .bind (.forM (enterParam_within fuel) _) fun _ => (ih.check _ _).mono encloses.le

end Expressions

private theorem expr_within {R' : Session → Session → Prop} [AllowsSolving R']
    (encloses : Encloses R R') (fuel : Nat) : ExprWithin R R' fuel := by
  induction fuel with
  | zero =>
    exact ⟨fun _ _ => noFuel_within, fun _ _ _ => noFuel_within, fun _ => noFuel_within,
      fun _ _ _ _ => noFuel_within, fun _ _ _ => noFuel_within, fun _ => noFuel_within,
      fun _ _ => noFuel_within⟩
  | succ fuel ih =>
    exact ⟨checkExpr_succ ih, checkForm_succ encloses ih, inferExpr_succ encloses ih,
      elaborateCase_succ encloses ih, elaborateLet_succ encloses ih,
        elaborateLocal_succ encloses ih,
      elaborateBody_succ encloses ih⟩

theorem checkExpr_within (fuel : Nat) (e : Surface.Expr) (type : Con) :
    Within R (checkExpr fuel e type) := by
  obtain ⟨R', solving, encloses⟩ := AllowsScoping.encloses (R := R)
  exact (expr_within encloses fuel).check e type

theorem elaborateBody_within (fuel : Nat) (function : Surface.Function) (header : Header) :
    Within R (elaborateBody fuel function header) := by
  obtain ⟨R', solving, encloses⟩ := AllowsScoping.encloses (R := R)
  exact (expr_within encloses fuel).body function header

end Scoping

end Elaborate

end RowML
