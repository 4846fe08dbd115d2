import RowML.Proofs.Elaboration.Slots
import RowML.Proofs.Term.Slots

/-!
# Where slots are placed

In the terms that elaboration gives, every slot stands under as many term binders as were in scope
when it was made.
-/

namespace RowML

/-- Every slot in the term stands under as many term binders as the record says. -/
abbrev Term.Placed (depths : List Nat) (depth : Nat) (term : Term) : Prop :=
  term.Slots (fun depth slot => depths[slot]? = some depth) depth

/-- Whether a term is a name: what has been declared, or a variable. -/
def Term.isName : Term → Bool
  | .bvar _ | .global _ | .member _ _ _ => true
  | _ => false

theorem Term.placed_of_isName {term : Term} (h : term.isName) (depths : List Nat) (depth : Nat) :
    term.Placed depths depth := by
  cases term with
  | bvar | global | member => trivial
  | _ => cases h

namespace Session

/-- Every record is kept, whatever becomes of the scope. -/
structure Recalls (s s' : Session) : Prop where
  holds : ∀ {depths held}, s.Holds depths held → s'.Holds depths held

theorem Calm.recalls {s s' : Session} (h : s.Calm s') : s.Recalls s' := ⟨fun holds => h.holds holds⟩

theorem Recalls.rescope (s : Session) (scope : Scope) : s.Recalls { s with scope } :=
  ⟨fun holds => ⟨holds.size, holds.recorded⟩⟩

instance : AllowsComputing Recalls where
  refl _ := ⟨id⟩
  trans _ _ _ h h' := ⟨fun holds => h'.holds (h.holds holds)⟩
  of_compute operation hrun := (AllowsComputing.of_compute (R := Calm) operation hrun).recalls

instance : AllowsAsking Recalls where
  of_unify fuel span expected found :=
    (AllowsAsking.of_unify (R := Calm) fuel span expected found).mono Calm.recalls
  of_requireDisjoint fuel span left right :=
    (AllowsAsking.of_requireDisjoint (R := Calm) fuel span left right).mono Calm.recalls
  of_inside {s _ _} _ h :=
    trans_of Recalls (Recalls.rescope s _) (trans_of Recalls h (.rescope _ _))

end Session

namespace Elaborate

open Session (Holds Drops Calm Balanced Recalls)

variable {α β : Type} {depth depth' depth'' : Nat}

/-! ## Headers -/

theorem modifyScope_recalls (f : Scope → Scope) : Within Recalls (modifyScope f) := by
  rintro s s' ⟨config, r, heffect⟩
  cases heffect
  exact .rescope s _

theorem enterParam_recalls (fuel : Nat) (param : HeaderParam) :
    Within Recalls (enterParam fuel param) := by
  cases param with
  | con x implicit kind => exact modifyScope_recalls (·.pushCon x kind)
  | disjoint left right => exact modifyScope_recalls (·.pushFact left right)
  | val x type => exact .bind (isGoal_within fuel type) fun _ => modifyScope_recalls _

theorem elaborateHeader_calm (fuel : Nat) (function : Surface.Function) :
    Within Calm (elaborateHeader fuel function) := by
  have hinside : Within Recalls (do
      let params ← function.params.mapM fun param => do
        let param ← elaborateParam fuel param
        enterParam fuel param
        pure param
      let result ← checkType? fuel function.result
      pure (⟨params, result⟩ : Header)) :=
    .bind (.mapM (fun param => .bind (elaborateParam_within fuel param) fun _ =>
      .bind (enterParam_recalls fuel _) fun _ => .pure _) _) fun _ =>
    .bind (checkTypeOption_within fuel _) fun _ => .pure _
  intro s s' heffect
  refine ⟨elaborateHeader_within fuel function s s' heffect, ?_⟩
  obtain ⟨s₁, hinner, rfl⟩ := inScope_effect heffect
  exact (trans_of Recalls (hinside _ _ hinner) (.rescope _ _)).holds

/-! ## Patterns -/

/-- A pattern that has been checked binds the variables that are returned with it. -/
theorem checkPattern_returns (fuel : Nat) (pattern : Surface.Pattern) (type : Con) :
    Returns (checkPattern fuel pattern type) fun checked =>
      checked.1.boundCount = checked.2.length := by
  induction fuel generalizing pattern type with
  | zero => rintro config s a s' ⟨⟩
  | succ fuel ih =>
    obtain ⟨node, span⟩ := pattern
    unfold checkPattern
    cases node with
    | wild => exact .pure rfl
    | var name => exact .pure rfl
    | lit value => exact .after fun _ => .pure rfl
    | variant name payload =>
      refine .after fun _ => .after fun _ => .after fun _ => .after fun _ => ?_
      split
      · exact .bind (ih _ _) fun _ hbound => .pure hbound
      · exact .after fun _ => .pure rfl
    | record fields opened =>
      have hfields (row : List (Con × Con)) (rest : Option Con) : Returns (do
          let checked ← (fields.zip row).mapM fun x => do
            let y ← checkPattern fuel x.1.2 x.2.2
            pure ((x.2.1, y.1), y.2)
          pure (Pattern.record (checked.map (·.1)) rest, checked.flatMap (·.2)) :
          ElaborateM (Pattern × Bound)) fun checked =>
            checked.1.boundCount = checked.2.length := by
        refine .bind (P := fun checked => _ ∧ ∀ x ∈ checked, x.1.2.boundCount = x.2.length)
          (.mapM (fun x => .bind (ih _ _) fun y hy => .pure ?_) _) fun checked hchecked => .pure ?_
        · exact hy
        · change Pattern.boundCountFields (checked.map (·.1)) = (checked.flatMap (·.2)).length
          have hbound := hchecked.2
          clear hchecked
          induction checked with
          | nil => rfl
          | cons x checked ihc =>
            obtain ⟨hx, hrest⟩ := List.forall_mem_cons.mp hbound
            rw [List.map_cons, List.flatMap_cons, List.length_append, ← ihc hrest, ← hx]
            rfl
      refine .after fun row => .after fun _ => ?_
      simp only
      split
      all_goals
        refine .after fun rest => ?_
        split
      · exact .after fun _ => .after fun _ => hfields _ _
      · exact .after fun _ => hfields _ _
      · exact .after fun _ => .after fun _ => hfields _ _
      · exact .after fun _ => hfields _ _
    | annot inner annotation => exact .after fun _ => .after fun _ => ih _ _

/-! ## Emitting terms -/

/-- Every run that succeeds leads from `depth` term variables in scope to `depth'` many.  The slots
that it makes are recorded, and its result has the property with all records that go on from
there. -/
def Emits (depth depth' : Nat) (x : ElaborateM α) (Q : List Nat → α → Prop) : Prop :=
  ∀ config s a s' depths, (x.run config).run s = some (.ok a, s') → s.scope.valDepth = depth →
    s.Holds depths [] → s'.scope.Inside s.scope ∧ s'.scope.valDepth = depth' ∧
      ∃ depths', depths <+: depths' ∧ s'.Holds depths' [] ∧ ∀ later, depths' <+: later → Q later a

namespace Emits

variable {Q : List Nat → α → Prop} {Q' : List Nat → β → Prop}

theorem pure {a : α} (h : ∀ depths, Q depths a) : Emits depth depth (Pure.pure a) Q := by
  rintro config s _ s' depths ⟨⟩ hdepth holds
  exact ⟨.of_eq rfl rfl, hdepth, depths, List.prefix_rfl, holds, fun later _ => h later⟩

theorem fail (span : Span) (cause : Cause) : Emits depth depth' (Elaborate.fail span cause) Q := by
  rintro config s a s' depths ⟨⟩

theorem noFuel : Emits depth depth' (noFuel : ElaborateM α) Q := by
  rintro config s a s' depths ⟨⟩

/-- What is known of the result of the first part can be used with the records of the whole. -/
theorem bind {x : ElaborateM α} {f : α → ElaborateM β} (hx : Emits depth depth' x Q)
    (hf : ∀ a, Emits depth' depth'' (f a) fun depths b => Q depths a → Q' depths b) :
    Emits depth depth'' (x >>= f) Q' := by
  intro config s b s' depths hrun hdepth holds
  obtain ⟨a, t, hx', hf'⟩ := run_bind_ok hrun
  obtain ⟨inside, hdepth', depths', hgrown, holds', hQ⟩ := hx _ _ _ _ _ hx' hdepth holds
  obtain ⟨inside', hdepth'', depths'', hgrown', holds'', hQ'⟩ := hf a _ _ _ _ _ hf' hdepth' holds'
  exact ⟨inside'.trans inside, hdepth'', depths'', hgrown.trans hgrown', holds'',
    fun later hlater => hQ' later hlater (hQ later (hgrown'.trans hlater))⟩

theorem mono {Q₁ : List Nat → α → Prop} {x : ElaborateM α} (hx : Emits depth depth' x Q)
    (himp : ∀ {depths a}, Q depths a → Q₁ depths a) : Emits depth depth' x Q₁ := by
  intro config s a s' depths hrun hdepth holds
  obtain ⟨inside, hdepth', depths', hgrown, holds', hQ⟩ := hx _ _ _ _ _ hrun hdepth holds
  exact ⟨inside, hdepth', depths', hgrown, holds', fun later hlater => himp (hQ later hlater)⟩

theorem andThen {x : ElaborateM α} {f : α → ElaborateM β}
    (hx : Emits depth depth' x fun _ _ => True)
    (hf : ∀ a, Emits depth' depth'' (f a) Q') : Emits depth depth'' (x >>= f) Q' :=
  hx.bind fun a => (hf a).mono fun h _ => h

theorem of_calm {x : ElaborateM α} (h : Within Calm x) : Emits depth depth x fun _ _ => True := by
  intro config s a s' depths hrun hdepth holds
  have calm := h s s' ⟨config, _, hrun⟩
  exact ⟨.of_eq calm.binders calm.valDepth, calm.valDepth.trans hdepth, depths, List.prefix_rfl,
    calm.holds holds, fun _ _ => trivial⟩

theorem after {x : ElaborateM α} {f : α → ElaborateM β} (hx : Within Calm x)
    (hf : ∀ a, Emits depth depth' (f a) Q') : Emits depth depth' (x >>= f) Q' :=
  (of_calm hx).andThen hf

theorem of_returns {x : ElaborateM α} {P : α → Prop} (hx : Within Calm x) (hP : Returns x P) :
    Emits depth depth x fun _ a => P a := by
  intro config s a s' depths hrun hdepth holds
  obtain ⟨inside, hdepth', depths', hgrown, holds', -⟩ := of_calm hx _ _ _ _ _ hrun hdepth holds
  exact ⟨inside, hdepth', depths', hgrown, holds', fun _ _ => hP _ _ _ _ hrun⟩

/-- A calm computation with a result of which something is known. -/
theorem after_returns {x : ElaborateM α} {f : α → ElaborateM β} {P : α → Prop}
    (hx : Within Calm x) (hP : Returns x P) (hf : ∀ a, P a → Emits depth depth' (f a) Q') :
    Emits depth depth' (x >>= f) Q' := by
  intro config s b s' depths hrun hdepth holds
  obtain ⟨a, t, hx', hf'⟩ := run_bind_ok hrun
  have calm := hx s t ⟨config, _, hx'⟩
  obtain ⟨inside, hdepth', depths', hgrown, holds', hQ⟩ := hf a (hP _ _ _ _ hx') _ _ _ _ _ hf'
    (calm.valDepth.trans hdepth) (calm.holds holds)
  exact ⟨inside.trans (.of_eq calm.binders calm.valDepth), hdepth', depths', hgrown, holds', hQ⟩

/-- A new binder, which binds `count` term variables. -/
theorem modifyScope {f : Scope → Scope} (count : Nat) (h : ∀ scope : Scope, scope.Enters (f scope))
    (hcount : ∀ scope : Scope, (f scope).valDepth = scope.valDepth + count) :
    Emits depth (depth + count) (modifyScope f) fun _ _ => True := by
  rintro config s _ s' depths ⟨⟩ hdepth holds
  exact ⟨.enters (h s.scope), (hcount s.scope).trans (congrArg (· + count) hdepth), depths,
    List.prefix_rfl, (Recalls.rescope s _).holds holds, fun _ _ => trivial⟩

/-- Where binders are forgotten, it does not matter how many there have been. -/
theorem inScope_after_returns {x : ElaborateM α} {f : α → ElaborateM β} {P : α → Prop}
    (hx : Within Calm x) (hP : Returns x P)
    (hf : ∀ a, P a → ∃ depth', Emits depth depth' (f a) Q') :
    Emits depth depth (Elaborate.inScope (x >>= f)) Q' := by
  intro config s b s' depths hrun hdepth holds
  obtain ⟨⟨result, s₁⟩, hinner, hrest⟩ := Option.bind_eq_some_iff.mp hrun
  obtain ⟨⟨inner, s₂⟩, hrun', hresult⟩ := Option.bind_eq_some_iff.mp hinner
  cases hresult
  cases inner with
  | error => cases hrest
  | ok b =>
    cases hrest
    obtain ⟨a, t, ha, hb⟩ := run_bind_ok hrun'
    have calm := hx s t ⟨config, _, ha⟩
    obtain ⟨depth', hemits⟩ := hf a (hP _ _ _ _ ha)
    obtain ⟨inside, -, depths', hgrown, holds', hQ⟩ := hemits _ _ _ _ _ hb
      (calm.valDepth.trans hdepth) (calm.holds holds)
    obtain ⟨hbinders, hval⟩ := (inside.trans (.of_eq calm.binders calm.valDepth)).reset
    exact ⟨.of_eq hbinders hval, hval.trans hdepth, depths', hgrown,
      (Recalls.rescope s₁ _).holds holds', hQ⟩

theorem inScope {x : ElaborateM α} (hx : Emits depth depth' x Q) :
    Emits depth depth (Elaborate.inScope x) Q := by
  rw [← pure_bind () fun _ => x]
  exact inScope_after_returns (.pure ()) (.pure (P := fun _ => True) trivial) fun _ _ =>
    ⟨depth', hx⟩

theorem mapM {Q : List Nat → β → Prop} {f : α → ElaborateM β} {as : List α}
    (h : ∀ a ∈ as, Emits depth depth (f a) Q) : Emits depth depth (as.mapM f) fun depths bs =>
      bs.length = as.length ∧ ∀ b ∈ bs, Q depths b := by
  induction as with
  | nil => exact pure fun _ => by simp
  | cons a as ih =>
    obtain ⟨ha, has⟩ := List.forall_mem_cons.mp h
    rw [List.mapM_cons]
    refine bind ha fun b => bind (ih has) fun bs => pure fun depths hbs hb => ?_
    exact ⟨congrArg (· + 1) hbs.1, List.forall_mem_cons.mpr ⟨hb, hbs.2⟩⟩

end Emits

theorem pushVal_emits (fuel : Nat) (name : String) (type : Con) :
    Emits depth (depth + 1) (pushVal fuel name type) fun _ _ => True :=
  .after (isGoal_within fuel type) fun isDict =>
    .modifyScope 1 (fun scope => .val scope name type isDict) fun _ => rfl

theorem pushVals_emits (fuel : Nat) (bound : Bound) :
    Emits depth (depth + bound.length) (bound.forM fun x => pushVal fuel x.1 x.2)
      fun _ _ => True := by
  induction bound generalizing depth with
  | nil => exact .pure fun _ => trivial
  | cons x bound ih =>
    rw [List.length_cons, Nat.add_comm bound.length, ← Nat.add_assoc]
    exact .andThen (pushVal_emits fuel x.1 x.2) fun _ => ih

theorem pushFunctions_emits (headed : List (Surface.Function × Header)) :
    Emits depth (depth + headed.length)
      (headed.forM fun x => modifyScope (·.pushVal x.1.name x.2.type false))
      fun _ _ => True := by
  induction headed generalizing depth with
  | nil => exact .pure fun _ => trivial
  | cons x headed ih =>
    rw [List.length_cons, Nat.add_comm headed.length, ← Nat.add_assoc]
    exact .andThen (.modifyScope 1 (.val · x.1.name x.2.type false) fun _ => rfl) fun _ => ih

theorem enterParams_emits (fuel : Nat) (params : List HeaderParam) :
    Emits depth (depth + (params.map HeaderParam.valCount).sum) (params.forM (enterParam fuel))
      fun _ _ => True := by
  induction params generalizing depth with
  | nil => exact .pure fun _ => trivial
  | cons param params ih =>
    rw [List.map_cons, List.sum_cons, ← Nat.add_assoc]
    have hparam : Emits depth (depth + param.valCount) (enterParam fuel param) fun _ _ => True := by
      cases param with
      | con x implicit kind => exact .modifyScope 0 (.con · x kind) fun _ => rfl
      | disjoint left right => exact .modifyScope 0 (.fact · left right) fun _ => rfl
      | val x type => exact pushVal_emits fuel x type
    exact .andThen hparam fun _ => ih

/-- The new slot is recorded with the number of term variables in scope. -/
theorem requireClass_emits (fuel : Nat) (span : Span) (goal : Con) :
    Emits depth depth (requireClass fuel span goal) fun depths slot =>
      depths[slot]? = some depth := by
  intro config s slot s' depths hrun hdepth holds
  obtain ⟨_, s₁, hslot, hrun⟩ := run_bind_ok hrun
  cases hslot
  obtain ⟨_, _, hget, hrun⟩ := run_bind_ok hrun
  cases hget
  obtain ⟨_, s₂, hdischarge, hrun⟩ := run_bind_ok hrun
  obtain ⟨_, s₃, hready, hrun⟩ := run_bind_ok hrun
  cases hrun
  have tried := discharge_drops _ _ _ _ ⟨config, _, hdischarge⟩
  have calm := runReady_calm fuel _ _ ⟨config, _, hready⟩
  refine ⟨.of_eq (calm.binders.trans tried.binders) (calm.valDepth.trans tried.valDepth),
    (calm.valDepth.trans tried.valDepth).trans hdepth, depths ++ [depth], List.prefix_append _ _,
    calm.holds (tried.holds ⟨?_, ?_⟩), ?_⟩
  · change (depths ++ [depth]).length = (s.queue.newSlot goal).2.slots.size
    rw [Queue.size_slots_newSlot, List.length_append, holds.size]
    rfl
  · exact holds.recorded.cons (by rw [← hdepth, holds.size]; rfl)
  · intro later hlater
    change later[s.queue.slots.size]? = _
    rw [← holds.size]
    obtain ⟨rest, rfl⟩ := hlater
    simp

theorem instantiate_emits (span : Span) (fuel : Nat) {term : Term} (type : Con) :
    Emits depth depth (instantiate span fuel term type) fun depths typed =>
      term.Placed depths depth → typed.1.Placed depths depth := by
  induction fuel generalizing term type with
  | zero => exact .noFuel
  | succ fuel ih =>
    unfold instantiate
    refine .after (head_within fuel type) fun type => ?_
    split
    · exact .after (freshCon_within _) fun _ => .after (onKindM_within (subst_orderly _ _)) fun _ =>
        ih _
    · exact .after freshKind_within fun _ =>
        .after (onKindM_within (substKinds_orderly _ _)) fun _ => ih _
    · exact .after (requireDisjoint_within _ _ _ _) fun _ => ih _
    · refine .after (isGoal_within fuel _) fun goal => ?_
      split
      · exact .bind (requireClass_emits fuel span _) fun slot =>
          (ih _).mono fun htyped hslot hterm => htyped ⟨hterm, hslot⟩
      · exact .pure fun _ => id
    · exact .pure fun _ => id

/-! ## Names -/

theorem moduleVal_returns (span : Span) (ref : ModuleRef) (item : String) :
    Returns (moduleVal span ref item) fun typed => typed.1.isName := by
  refine .after fun globals => ?_
  split
  · exact .pure rfl
  · exact .fail _ _

theorem valVar_returns (span : Span) (name : String) :
    Returns (valVar span name) fun typed => typed.1.isName := by
  refine .after fun session => .after fun found => ?_
  split
  · exact .pure rfl
  · split
    · refine .after fun globals => ?_
      split
      · exact .pure rfl
      · exact .fail _ _
    · exact moduleVal_returns _ _ _
    · exact .fail _ _

theorem valPath_returns (span : Span) (modules : List String) (item : String) :
    Returns (valPath span modules item) fun typed => typed.1.isName :=
  .after fun _ => moduleVal_returns _ _ _

/-! ## Expressions -/

/-- The number of term variables that a local declaration binds. -/
def boundBy : Surface.Local → Nat
  | .val _ _ _ _ => 1
  | .functions group => group.length

/-- The functions on expressions, as far as that much fuel takes them. -/
private structure ExprEmits (fuel : Nat) : Prop where
  check : ∀ {depth} e type, Emits depth depth (checkExpr fuel e type)
    fun depths term => term.Placed depths depth
  form : ∀ {depth} e expected type, Emits depth depth (checkForm fuel e expected type)
    fun depths term => term.Placed depths depth
  infer : ∀ {depth} e, Emits depth depth (inferExpr fuel e)
    fun depths typed => typed.1.Placed depths depth
  case : ∀ {depth} span scrutinee arms expected,
    Emits depth depth (elaborateCase fuel span scrutinee arms expected)
      fun depths typed => typed.1.Placed depths depth
  letIn : ∀ {depth} locals body expected, Emits depth depth (elaborateLet fuel locals body expected)
    fun depths typed => typed.1.Placed depths depth
  decl : ∀ {depth} decl, Emits depth (depth + boundBy decl) (elaborateLocal fuel decl)
    fun depths wrap => ∀ body : Term,
      body.Placed depths (depth + boundBy decl) → (wrap body).Placed depths depth
  body : ∀ {depth} function header, Emits depth depth (elaborateBody fuel function header)
    fun depths term => term.Placed depths depth

section Expressions

variable {fuel : Nat} (ih : ExprEmits fuel)
include ih

private theorem checkExpr_emits_succ (e : Surface.Expr) (expected : Con) :
    Emits depth depth (checkExpr (fuel + 1) e expected)
      fun depths term => term.Placed depths depth := by
  have hinside {f : Scope → Scope} (count : Nat) (h : ∀ scope : Scope, scope.Enters (f scope))
      (hcount : ∀ scope : Scope, (f scope).valDepth = scope.valDepth + count) (body : Con) :
      Emits depth depth (inScope do
          modifyScope f
          checkExpr fuel e body) fun depths term => term.Placed depths (depth + count) :=
    .inScope (.andThen (.modifyScope count h hcount) fun _ => ih.check _ _)
  unfold checkExpr
  refine .after (head_within fuel expected) fun type => ?_
  split
  · split
    · exact ih.form _ _ _
    · exact .bind (hinside 0 (.con · _ _) (fun _ => rfl) _) fun _ => .pure fun _ => id
  · split
    · exact ih.form _ _ _
    · exact .bind (hinside 0 (.kind · _) (fun _ => rfl) _) fun _ => .pure fun _ => id
  · split
    · exact ih.form _ _ _
    · exact .bind (hinside 0 (.fact · _ _) (fun _ => rfl) _) fun _ => .pure fun _ => id
  · split
    · exact ih.form _ _ _
    · refine .after (isGoal_within fuel _) fun goal => ?_
      split
      · exact .bind (hinside 1 (.val · _ _ _) (fun _ => rfl) _) fun _ => .pure fun _ => id
      · exact ih.form _ _ _
  · exact ih.form _ _ _

private theorem checkForm_emits_succ (e : Surface.Expr) (expected type : Con) :
    Emits depth depth (checkForm (fuel + 1) e expected type)
      fun depths term => term.Placed depths depth := by
  obtain ⟨node, span⟩ := e
  unfold checkForm
  extract_lets span byInference
  have hinferred : Emits depth depth byInference fun depths term => term.Placed depths depth :=
    .bind (ih.infer _) fun _ => .after (unify_within _ _ _ _) fun _ => .pure fun _ => id
  cases node with
  | lam x annotation body =>
    have hbody : ∀ domain codomain, Emits depth depth (do
        let body ← inScope do
          pushVal fuel x domain
          checkExpr fuel body codomain
        pure (Term.abs x domain body)) fun depths term => term.Placed depths depth := fun _ _ =>
      .bind (.inScope (.andThen (pushVal_emits fuel _ _) fun _ => ih.check _ _)) fun _ =>
        .pure fun _ => id
    simp only
    split
    · split
      · exact .after (checkCon_within _ _ _) fun _ => .after (unify_within _ _ _ _) fun _ =>
          hbody _ _
      · exact hbody _ _
    · exact hinferred
  | cabs x implicit kind body =>
    have hbody : ∀ expectedKind expectedBody, Emits depth depth (do
        let body ← inScope do
          pushCon x expectedKind
          checkExpr fuel body expectedBody
        pure (Term.cabs x expectedKind body)) fun depths term => term.Placed depths depth :=
      fun expectedKind _ =>
        .bind (.inScope (.andThen (.modifyScope 0 (.con · x expectedKind) fun _ => rfl) fun _ =>
          ih.check _ _)) fun _ => .pure fun _ => id
    simp only
    split
    · split
      · split
        · exact .after (elaborateKind_within _ _) fun _ =>
            .after (unifyKinds_within _ _ _ _ _) fun _ => hbody _ _
        · exact hbody _ _
      · exact hinferred
    · exact hinferred
  | ite condition yes no =>
    exact .bind (ih.check condition _) fun _ => .bind (ih.check yes _) fun _ =>
      .bind (ih.check no _) fun _ => .pure fun _ hno hyes hcondition => ⟨hcondition, hyes, hno⟩
  | letIn locals body => exact .bind (ih.letIn _ _ _) fun _ => .pure fun _ => id
  | case scrutinee arms => exact .bind (ih.case _ _ _ _) fun _ => .pure fun _ => id
  | _ => exact hinferred

private theorem inferExpr_emits_succ (e : Surface.Expr) :
    Emits depth depth (inferExpr (fuel + 1) e)
      fun depths typed => typed.1.Placed depths depth := by
  have hname {x : ElaborateM (Term × Con)} (hcalm : Within Calm x)
      (hreturns : Returns x fun typed => typed.1.isName) :
      Emits depth depth x fun depths typed => typed.1.Placed depths depth :=
    (Emits.of_returns hcalm hreturns).mono fun h => Term.placed_of_isName h _ _
  obtain ⟨node, span⟩ := e
  unfold inferExpr
  cases node with
  | lit value => exact .pure fun _ => trivial
  | var name =>
    exact .bind (hname (valVar_within _ _) (valVar_returns _ _)) fun _ => instantiate_emits _ _ _
  | path modules item =>
    exact .bind (hname (valPath_within _ _ _) (valPath_returns _ _ _)) fun _ =>
      instantiate_emits _ _ _
  | app f argument =>
    refine .bind (ih.infer f) fun f => .after (head_within _ _) fun type => ?_
    have hargument (domain codomain : Con) : Emits depth depth (do
        let argument ← checkExpr fuel argument domain
        pure (Term.app f.1 argument, codomain)) fun depths typed =>
          f.1.Placed depths depth → typed.1.Placed depths depth :=
      .bind (ih.check argument domain) fun _ => .pure fun _ hargument hf => ⟨hf, hargument⟩
    split
    · exact .after (.pure _) fun _ => hargument _ _
    · exact .after (freshCon_within _) fun _ => .after (freshCon_within _) fun _ =>
        .after (unify_within _ _ _ _) fun _ => .after (.pure _) fun _ => hargument _ _
  | lam x annotation body =>
    exact .after (checkTypeOption_within _ _) fun domain =>
      .bind (.inScope (.andThen (pushVal_emits fuel x domain) fun _ => ih.infer body)) fun _ =>
      .pure fun _ => id
  | capp f argument =>
    refine .bind (ih.infer f) fun f => .after (head_within _ _) fun type => ?_
    have hargument (kind : Kind) (body : Con) : Emits depth depth (do
        let argument ← checkCon fuel argument kind
        instantiate span fuel (.capp f.1 argument) (← onKindM (body.subst argument)))
        fun depths typed => f.1.Placed depths depth → typed.1.Placed depths depth :=
      .after (checkCon_within _ _ _) fun _ => .after (onKindM_within (subst_orderly _ _)) fun _ =>
        instantiate_emits _ _ _
    split
    · exact .after (.pure _) fun _ => hargument _ _
    · exact .after freshKind_within fun _ => .after conDepth_within fun _ =>
        .after (onStore_within (.fresh _ _)) fun _ => .after (unify_within _ _ _ _) fun _ =>
        .after (.pure _) fun _ => hargument _ _
  | cabs x implicit kind body =>
    exact .after (elaborateKindOption_within _ _) fun kind =>
      .bind (.inScope (.andThen (.modifyScope 0 (.con · x kind) fun _ => rfl) fun _ =>
        ih.infer body)) fun _ => .pure fun _ => id
  | kabs x body =>
    exact .bind (.inScope (.andThen (.modifyScope 0 (.kind · x) fun _ => rfl) fun _ =>
      ih.infer body)) fun _ => .pure fun _ => id
  | kapp f argument =>
    simp -zeta only
    extract_lets _ apply
    have happly (typed : Term × Con) : Emits depth depth (apply typed) fun depths typed' =>
        typed.1.Placed depths depth → typed'.1.Placed depths depth := by
      refine .after (head_within _ _) fun type => ?_
      split
      · exact .after (elaborateKind_within _ _) fun _ =>
          .after (onKindM_within (substKinds_orderly _ _)) fun _ => instantiate_emits _ _ _
      · exact .after (freshCon_within _) fun _ => .fail _ _
    split
    · exact .bind (hname (valVar_within _ _) (valVar_returns _ _)) happly
    · exact .bind (hname (valPath_within _ _ _) (valPath_returns _ _ _)) happly
    · exact .bind (ih.infer f) happly
  | disjointAbs left right body =>
    exact .after (checkRow_within _ _) fun left => .after (checkRow_within _ _) fun right =>
      .bind (.inScope (.andThen (.modifyScope 0 (.fact · left right) fun _ => rfl) fun _ =>
        ih.infer body)) fun _ => .pure fun _ => id
  | record fields =>
    refine .bind (.mapM (Q := fun depths field => field.2.1.Placed depths depth) fun field _ => ?_)
      fun typed => ?_
    · exact .after (checkCon_within _ _ _) fun _ => .bind (ih.infer _) fun _ => .pure fun _ => id
    · refine .after (checkFieldsApart_within _ _ _ _) fun _ => .pure fun depths htyped => ?_
      exact Term.slotsFields_iff.mpr (List.forall_mem_map.mpr htyped.2)
  | field record name | cut record name =>
    exact .bind (ih.infer record) fun _ => .after (checkCon_within _ _ _) fun _ =>
      .after (freshCon_within _) fun _ => .after (splitRecord_within _ _ _ _ _) fun _ =>
      .pure fun _ => id
  | concat left right =>
    exact .bind (ih.infer left) fun _ => .bind (ih.infer right) fun _ =>
      .after (freshCon_within _) fun _ => .after (freshCon_within _) fun _ =>
      .after (unify_within _ _ _ _) fun _ => .after (unify_within _ _ _ _) fun _ =>
      .after (requireDisjoint_within _ _ _ _) fun _ => .pure fun _ hright hleft => ⟨hleft, hright⟩
  | cutRow record row =>
    exact .bind (ih.infer record) fun _ => .after (checkCon_within _ _ _) fun _ =>
      .after (freshCon_within _) fun _ => .after (unify_within _ _ _ _) fun _ =>
      .after (requireDisjoint_within _ _ _ _) fun _ => .pure fun _ => id
  | inject field value =>
    exact .after (checkCon_within _ _ _) fun _ => .bind (ih.infer value) fun _ =>
      .after (freshCon_within _) fun _ => .after (requireDisjoint_within _ _ _ _) fun _ =>
      .pure fun _ => id
  | case scrutinee arms => exact ih.case _ _ _ _
  | letIn locals body => exact ih.letIn _ _ _
  | ite condition yes no =>
    exact .bind (ih.check condition _) fun _ => .bind (ih.infer yes) fun _ =>
      .bind (ih.check no _) fun _ => .pure fun _ hno hyes hcondition => ⟨hcondition, hyes, hno⟩
  | annot e type =>
    exact .after (checkCon_within _ _ _) fun _ => .bind (ih.check e _) fun _ => .pure fun _ => id

private theorem elaborateCase_emits_succ (span : Span) (scrutinee : Surface.Expr)
    (arms : List (Surface.Pattern × Surface.Expr)) (expected : Option Con) :
    Emits depth depth (elaborateCase (fuel + 1) span scrutinee arms expected)
      fun depths typed => typed.1.Placed depths depth := by
  unfold elaborateCase
  refine .bind (ih.infer scrutinee) fun typed => .after (closeVariant_within _ _ _ _) fun _ => ?_
  extract_lets rest
  have hrest (type : Con) : Emits depth depth (rest type) fun depths result =>
      typed.1.Placed depths depth → result.1.Placed depths depth := by
    refine .bind (.mapM (Q := fun depths arm =>
      arm.2.Placed depths (depth + arm.1.boundCount)) fun arm _ => ?_) fun arms =>
        .pure fun depths harms hscrutinee => ⟨hscrutinee, Term.slotsArms_iff.mpr harms.2⟩
    refine .inScope_after_returns (checkPattern_within _ _ _) (checkPattern_returns _ _ _) ?_
    refine fun checked hbound => ⟨depth + checked.2.length, ?_⟩
    refine .andThen (pushVals_emits fuel checked.2) fun _ => .bind (ih.check _ _) fun body => ?_
    exact .pure fun depths hbody => hbound ▸ hbody
  split
  · exact .after (.pure _) hrest
  · exact .after (freshCon_within _) hrest

private theorem elaborateLocals_emits (locals : List Surface.Local) :
    Emits depth (depth + (locals.map boundBy).sum) (locals.mapM (elaborateLocal fuel))
      fun depths wraps => ∀ body : Term, body.Placed depths (depth + (locals.map boundBy).sum) →
        (wraps.foldr (· ·) body).Placed depths depth := by
  induction locals generalizing depth with
  | nil => exact .pure fun _ _ => id
  | cons decl locals ihl =>
    rw [List.mapM_cons, List.map_cons, List.sum_cons, ← Nat.add_assoc]
    refine .bind (ih.decl decl) fun wrap => .bind ihl fun wraps => .pure ?_
    exact fun depths hwraps hwrap body hbody => hwrap _ (hwraps body hbody)

private theorem elaborateLet_emits_succ (locals : List Surface.Local) (body : Surface.Expr)
    (expected : Option Con) : Emits depth depth (elaborateLet (fuel + 1) locals body expected)
      fun depths typed => typed.1.Placed depths depth := by
  refine @Emits.inScope _ _ (depth + (locals.map boundBy).sum) _ _
    (.bind (elaborateLocals_emits ih locals) fun binders => ?_)
  simp only
  split
  · exact .bind (ih.check _ _) fun _ => .pure fun _ hbody hbinders => hbinders _ hbody
  · exact .bind (ih.infer _) fun _ => .pure fun _ hbody hbinders => hbinders _ hbody

private theorem elaborateLocal_emits_succ (decl : Surface.Local) :
    Emits depth (depth + boundBy decl) (elaborateLocal (fuel + 1) decl)
      fun depths wrap => ∀ body : Term, body.Placed depths (depth + boundBy decl) →
        (wrap body).Placed depths depth := by
  cases decl with
  | val name type body span =>
    exact .after (checkTypeOption_within _ _) fun _ => .bind (ih.check body _) fun _ =>
      .after (runReady_calm _) fun _ => .andThen (pushVal_emits fuel _ _) fun _ =>
      .pure fun _ hvalue _ hbody => ⟨hvalue, hbody⟩
  | functions group =>
    refine .after_returns (.mapM (elaborateHeader_calm fuel) _)
      (.mapM (Q := fun _ => True) (fun _ _ _ _ _ _ => trivial) _) fun headers hlength => ?_
    have hheaded : (group.zip headers).length = group.length := by simp [hlength.1]
    refine .andThen (pushFunctions_emits (group.zip headers)) fun _ => ?_
    rw [hheaded]
    refine .bind (.mapM (Q := fun depths function =>
      function.2.2.Placed depths (depth + group.length)) fun headed _ => ?_) fun functions => ?_
    · exact .bind (ih.body _ _) fun _ => .pure fun _ => id
    · refine .pure fun depths hfunctions body hbody => ?_
      have hcount : functions.length = group.length := hfunctions.1.trans hheaded
      exact ⟨Term.slotsFunctions_iff.mpr (hcount ▸ hfunctions.2), hcount ▸ hbody⟩

private theorem elaborateBody_emits_succ (function : Surface.Function) (header : Header) :
    Emits depth depth (elaborateBody (fuel + 1) function header)
      fun depths term => term.Placed depths depth :=
  .bind (.inScope (.andThen (enterParams_emits fuel header.params) fun _ => ih.check _ _)) fun _ =>
    .pure fun _ hbody => Header.slots_abstract hbody

end Expressions

private theorem expr_emits (fuel : Nat) : ExprEmits fuel := by
  induction fuel with
  | zero =>
    exact ⟨fun _ _ => .noFuel, fun _ _ _ => .noFuel, fun _ => .noFuel, fun _ _ _ _ => .noFuel,
      fun _ _ _ => .noFuel, fun _ => .noFuel, fun _ _ => .noFuel⟩
  | succ fuel ih =>
    exact ⟨checkExpr_emits_succ ih, checkForm_emits_succ ih, inferExpr_emits_succ ih,
      elaborateCase_emits_succ ih, elaborateLet_emits_succ ih, elaborateLocal_emits_succ ih,
      elaborateBody_emits_succ ih⟩

theorem checkExpr_emits (fuel : Nat) (e : Surface.Expr) (type : Con) :
    Emits depth depth (checkExpr fuel e type) fun depths term => term.Placed depths depth :=
  (expr_emits fuel).check e type

theorem elaborateBody_emits (fuel : Nat) (function : Surface.Function) (header : Header) :
    Emits depth depth (elaborateBody fuel function header)
      fun depths term => term.Placed depths depth :=
  (expr_emits fuel).body function header

end Elaborate

end RowML
