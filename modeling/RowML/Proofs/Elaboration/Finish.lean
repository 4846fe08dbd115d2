import RowML.Elaboration.Finish
import RowML.Proofs.Elaboration.Steps

/-!
# Steps at the end of a declaration

Closing constructors, generalising types, settling obligations and finishing terms are steps inside
one declaration.
-/

namespace RowML

namespace Elaborate

open Session (AllowsClosing AllowsForcing)

section Closing

variable {R : Session → Session → Prop} [AllowsClosing R]

/-! ## Closing -/

theorem closeKind_within (fuel : Nat) (kind : Kind) : Within R (closeKind fuel kind) := by
  refine .bind (closing_within (.zonkKind kind)) fun kind => .bind read_within fun config => ?_
  split
  · exact closing_within (.defaultKind fuel kind)
  · exact .pure _

theorem closeKindsIn_within (fuel : Nat) (c : Con) : Within R (closeKindsIn fuel c) := by
  refine .bind read_within fun config => ?_
  split
  · exact closing_within (.defaultKinds fuel c)
  · exact .pure _

theorem requireKnown_within (fuel : Nat) (span : Span) (c : Con) :
    Within R (requireKnown fuel span c) := by
  refine .bind (closing_within (.unsolvedMVars fuel c)) fun vars => ?_
  split
  · exact .pure _
  · exact fail_within _ _

end Closing

section Generalising

variable {R : Session → Session → Prop} [AllowsForcing R]

theorem closeCon_within (fuel : Nat) (span : Span) (c : Con) :
    Within R (closeCon fuel span c) :=
  .bind (forceAll_within fuel) fun _ => .bind (zonk_within fuel c) fun _ =>
    .bind (closeKindsIn_within fuel _) fun _ =>
    .bind (requireKnown_within fuel span _) fun _ => .pure _

/-! ## Generalisation -/

theorem quantify_within (fuel rows others : Nat) (vars : List MetaId) :
    Within R (quantify fuel rows others vars) := by
  induction vars generalizing rows others with
  | nil => exact .pure _
  | cons var vars ih =>
    refine .bind get_within fun session => .bind (closeKind_within fuel _) fun kind => ?_
    refine .bind (onStore_within (.freshSkolem _ _)) fun skolem => ?_
    refine .bind (onStore_within (.quantify var skolem)) fun result => ?_
    split
    · exact .bind (ih _ _) fun _ => .pure _
    · exact ih _ _

theorem generalizeTypes_within (fuel : Nat) (types : List Con) :
    Within R (generalizeTypes fuel types) :=
  .bind (.mapM (fun type => closing_within (.unsolvedMVars fuel type)) types) fun _ =>
    .bind (quantify_within fuel _ _ _) fun _ => .bind wakeSolved_within fun _ => .pure _

theorem isLiftable_within (fuel : Nat) (skolems : List SkolemId) (c : Con) :
    Within R (isLiftable fuel skolems c) := by
  refine .bind (closing_within (.unsolvedMVars fuel c)) fun vars => ?_
  split
  · exact .bind (onStore_within (.skolemsOf fuel c)) fun _ => .pure _
  · exact .pure _

theorem liftFact_within (fuel : Nat) (skolems : List SkolemId) (left right : Con) (depth : Nat) :
    Within R (liftFact? fuel skolems left right depth) := by
  refine .bind (zonk_within fuel left) fun left => .bind (zonk_within fuel right) fun right => ?_
  split
  · refine .bind (isLiftable_within fuel skolems _) fun liftable => ?_
    split <;> exact .pure _
  · exact .pure _

theorem lift_within {R : Session → Session → Prop} [IsPreorder Session R] {τ α : Type}
    {x : ElaborateM α} (h : Within R x) :
    Within R (liftM x : StateT τ ElaborateM α) :=
  .lift_state h

theorem settleDisjoint_within (fuel : Nat) (left right : Con) (facts : List Fact) (depth : Nat)
    (span : Span) : Within R (settleDisjoint fuel left right facts depth span) := by
  refine .bind (.modifyGet _) fun state => .bind (lift_within getGlobals_within) fun globals => ?_
  refine .bind (lift_within (onStore_within (.checkDisjoint globals fuel left right facts))) ?_
  intro result
  split
  · exact .pure _
  · exact lift_within (fail_within _ _)
  · refine .bind (lift_within (liftFact_within fuel _ left right depth)) fun fact => ?_
    split
    · exact .modifyGet _
    · exact .bind (lift_within (zonk_within fuel left)) fun _ =>
        .bind (lift_within (zonk_within fuel right)) fun _ => lift_within (fail_within _ _)
  · exact lift_within (fail_within _ _)

theorem liftGoal_within (fuel : Nat) (slot : SlotId) (goal : Con) (depth valDepth : Nat)
    (span : Span) : Within R (liftGoal fuel slot goal depth valDepth span) := by
  refine .bind (.modifyGet _) fun state =>
    .bind (lift_within (zonk_within fuel goal)) fun goal => ?_
  split
  · exact lift_within (fail_within _ _)
  · refine .bind (lift_within (isLiftable_within fuel _ _)) fun liftable => ?_
    split
    · exact .modifyGet _
    · exact lift_within (fail_within _ _)

theorem settle_within (fuel : Nat) (obligation : Obligation) :
    Within R (settle fuel obligation) := by
  unfold settle
  simp only
  split
  · exact .bind (lift_within (residualCause_within fuel _ _)) fun _ => lift_within (fail_within _ _)
  · exact .bind (settleDisjoint_within fuel _ _ _ _ _) fun _ => .pure _
  · refine .bind (lift_within (resolveClass_within fuel _ _ _ _)) fun result => ?_
    split
    · exact .bind (lift_within (fillSlot_within _ _)) fun _ => .pure _
    · exact lift_within (fail_within _ _)
    · exact lift_within (fail_within _ _)
    · exact .bind (liftGoal_within fuel _ _ _ _ _) fun _ => .pure _
    · exact .bind (liftGoal_within fuel _ _ _ _ _) fun _ => .pure _
    · exact lift_within (fail_within _ _)

theorem settleAll_within (fuel : Nat) (obligations : List Obligation) :
    Within R (settleAll fuel obligations) :=
  .bind (.mapM (settle_within fuel) obligations) fun _ =>
    .forM (fun obligation => .bind (settle_within fuel obligation) fun _ => .pure _) _

end Generalising

/-! ## Terms -/

section Terms

variable {R : Session → Session → Prop} [AllowsClosing R]

section Parts

variable (finishing : Finishing) (depth : TermDepth)

theorem finishCon_within (c : Con) : Within R (finishCon finishing depth c) :=
  .bind (lift_within (zonk_within finishing.fuel c)) fun _ =>
    .bind (lift_within (closeKindsIn_within finishing.fuel _)) fun _ =>
    .bind (lift_within (closing_within (.unsolvedMVars finishing.fuel _))) fun _ =>
    .bind (.modifyGet _) fun _ => .pure _

theorem finishKind_within (kind : Kind) : Within R (finishKind finishing kind) :=
  lift_within (closeKind_within finishing.fuel kind)

mutual
theorem finishDict_within (dict : Dict) : Within R (finishDict finishing depth dict) := by
  cases dict with
  | «local» => exact .pure _
  | «instance» source kinds cons dicts =>
    exact .bind (.mapM (finishKind_within finishing) kinds) fun _ =>
      .bind (.mapM (finishCon_within finishing depth) cons) fun _ =>
      .bind (finishDicts_within dicts) fun _ => .pure _
  | record fields => exact .bind (finishDictFields_within fields) fun _ => .pure _
theorem finishDicts_within (dicts : List Dict) :
    Within R (finishDicts finishing depth dicts) := by
  cases dicts with
  | nil => exact .pure _
  | cons dict rest =>
    exact .bind (finishDict_within dict) fun _ => .bind (finishDicts_within rest) fun _ => .pure _
theorem finishDictFields_within (fields : List (Con × Dict)) :
    Within R (finishDictFields finishing depth fields) := by
  cases fields with
  | nil => exact .pure _
  | cons field rest =>
    exact .bind (finishCon_within finishing depth field.1) fun _ =>
      .bind (finishDict_within field.2) fun _ =>
      .bind (finishDictFields_within rest) fun _ => .pure _
end

mutual
theorem finishPattern_within (pattern : Pattern) :
    Within R (finishPattern finishing depth pattern) := by
  cases pattern with
  | wild | lit => exact .pure _
  | var name type => exact .bind (finishCon_within finishing depth type) fun _ => .pure _
  | variant field payload =>
    exact .bind (finishCon_within finishing depth field) fun _ =>
      .bind (finishPattern_within payload) fun _ => .pure _
  | record fields rest =>
    exact .bind (finishPatternFields_within fields) fun _ =>
      .bind (.mapM_option (finishCon_within finishing depth) rest) fun _ => .pure _
theorem finishPatternFields_within (fields : List (Con × Pattern)) :
    Within R (finishPatternFields finishing depth fields) := by
  cases fields with
  | nil => exact .pure _
  | cons field rest =>
    exact .bind (finishCon_within finishing depth field.1) fun _ =>
      .bind (finishPattern_within field.2) fun _ =>
      .bind (finishPatternFields_within rest) fun _ => .pure _
end

theorem finishSlot_within (slot : SlotId) : Within R (finishSlot finishing depth slot) := by
  refine .bind (lift_within get_within) fun session => ?_
  split
  · exact .bind (finishDict_within finishing depth _) fun _ => .pure _
  · exact .bind (.modifyGet _) fun _ => .pure _

end Parts

mutual
theorem finishTerm_within (finishing : Finishing) (depth : TermDepth) (term : Term) :
    Within R (finishTerm finishing depth term) := by
  cases term with
  | lit | bvar | member => exact .pure _
  | global id =>
    unfold finishTerm
    split <;> exact .pure _
  | app f argument =>
    exact .bind (finishTerm_within finishing depth f) fun _ =>
      .bind (finishTerm_within finishing depth argument) fun _ => .pure _
  | abs x type body =>
    exact .bind (finishCon_within finishing depth type) fun _ =>
      .bind (finishTerm_within finishing _ body) fun _ => .pure _
  | capp f argument =>
    exact .bind (finishTerm_within finishing depth f) fun _ =>
      .bind (finishCon_within finishing depth argument) fun _ => .pure _
  | cabs x kind body =>
    exact .bind (finishKind_within finishing kind) fun _ =>
      .bind (finishTerm_within finishing _ body) fun _ => .pure _
  | kapp f argument =>
    exact .bind (finishTerm_within finishing depth f) fun _ =>
      .bind (finishKind_within finishing argument) fun _ => .pure _
  | kabs x body => exact .bind (finishTerm_within finishing depth body) fun _ => .pure _
  | disjointAbs left right body =>
    exact .bind (finishCon_within finishing depth left) fun _ =>
      .bind (finishCon_within finishing depth right) fun _ =>
      .bind (finishTerm_within finishing depth body) fun _ => .pure _
  | disjointApp f => exact .bind (finishTerm_within finishing depth f) fun _ => .pure _
  | record fields => exact .bind (finishFields_within finishing depth fields) fun _ => .pure _
  | field record name rest | cut record name rest | cutRow record name rest =>
    exact .bind (finishTerm_within finishing depth record) fun _ =>
      .bind (finishCon_within finishing depth name) fun _ =>
      .bind (finishCon_within finishing depth rest) fun _ => .pure _
  | concat left right leftRow rightRow =>
    exact .bind (finishTerm_within finishing depth left) fun _ =>
      .bind (finishTerm_within finishing depth right) fun _ =>
      .bind (finishCon_within finishing depth leftRow) fun _ =>
      .bind (finishCon_within finishing depth rightRow) fun _ => .pure _
  | inject field value row =>
    exact .bind (finishCon_within finishing depth field) fun _ =>
      .bind (finishTerm_within finishing depth value) fun _ =>
      .bind (finishCon_within finishing depth row) fun _ => .pure _
  | case scrutinee arms type =>
    exact .bind (finishTerm_within finishing depth scrutinee) fun _ =>
      .bind (finishArms_within finishing depth arms) fun _ =>
      .bind (finishCon_within finishing depth type) fun _ => .pure _
  | letVal x type value body =>
    exact .bind (finishCon_within finishing depth type) fun _ =>
      .bind (finishTerm_within finishing depth value) fun _ =>
      .bind (finishTerm_within finishing _ body) fun _ => .pure _
  | letRec functions body =>
    exact .bind (finishFunctions_within finishing _ functions) fun _ =>
      .bind (finishTerm_within finishing _ body) fun _ => .pure _
  | ite condition yes no =>
    exact .bind (finishTerm_within finishing depth condition) fun _ =>
      .bind (finishTerm_within finishing depth yes) fun _ =>
      .bind (finishTerm_within finishing depth no) fun _ => .pure _
  | dict dict => exact .bind (finishDict_within finishing depth dict) fun _ => .pure _
  | slot slot => exact finishSlot_within finishing depth slot
theorem finishFields_within (finishing : Finishing) (depth : TermDepth)
    (fields : List (Con × Term)) : Within R (finishFields finishing depth fields) := by
  cases fields with
  | nil => exact .pure _
  | cons field rest =>
    exact .bind (finishCon_within finishing depth field.1) fun _ =>
      .bind (finishTerm_within finishing depth field.2) fun _ =>
      .bind (finishFields_within finishing depth rest) fun _ => .pure _
theorem finishArms_within (finishing : Finishing) (depth : TermDepth)
    (arms : List (Pattern × Term)) : Within R (finishArms finishing depth arms) := by
  cases arms with
  | nil => exact .pure _
  | cons arm rest =>
    exact .bind (finishPattern_within finishing depth arm.1) fun _ =>
      .bind (finishTerm_within finishing _ arm.2) fun _ =>
      .bind (finishArms_within finishing depth rest) fun _ => .pure _
theorem finishFunctions_within (finishing : Finishing) (depth : TermDepth)
    (functions : List (String × Con × Term)) :
    Within R (finishFunctions finishing depth functions) := by
  cases functions with
  | nil => exact .pure _
  | cons function rest =>
    exact .bind (finishCon_within finishing depth function.2.1) fun _ =>
      .bind (finishTerm_within finishing depth function.2.2) fun _ =>
      .bind (finishFunctions_within finishing depth rest) fun _ => .pure _
end

/-! ## Members -/

theorem finishType_within (finishing : Finishing) (span : Span) (type : Con) :
    Within R (finishType finishing span type) :=
  .bind (zonk_within finishing.fuel type) fun _ => .bind get_within fun _ =>
    .bind (closeKindsIn_within finishing.fuel _) fun _ =>
    .bind (requireKnown_within finishing.fuel span _) fun _ => .pure _

theorem finishBody_within (finishing : Finishing) (span : Span) (body : Term) :
    Within R (finishBody finishing span body) := by
  refine .bind ((finishTerm_within finishing _ body).run_state _) fun result => ?_
  simp only
  split
  · exact fail_within _ _
  · exact .bind get_within fun _ => .bind (zonk_within finishing.fuel _) fun _ => fail_within _ _
  · exact .bind get_within fun _ => .pure _

end Terms

/-! ## Groups -/

section Groups

variable {R : Session → Session → Prop} [AllowsForcing R]

theorem rejectEquations_within (fuel : Nat) (residue : List (Obligation × List MetaId)) :
    Within R (rejectEquations fuel residue) := by
  refine .forM (fun entry => ?_) residue
  simp only
  split
  · exact .bind (residualCause_within fuel _ _) fun _ => fail_within _ _
  · exact .pure _

theorem finishGroup_within (fuel : Nat) (members : List Member) :
    Within R (finishGroup fuel members) := by
  unfold finishGroup
  refine .bind (force_within fuel) fun residue => .bind (rejectEquations_within fuel residue) ?_
  refine fun _ => .bind read_within fun config => ?_
  -- what follows the choice of the quantifiers is the same in both branches
  extract_lets _ rest
  have hrest (skolems : List SkolemId) : Within R (rest skolems) := by
    refine .bind ((settleAll_within fuel _).run_state _) fun settled => ?_
    refine .bind (.forM (fun use => fillSlot_within _ _) _) fun _ =>
      .mapM (fun member => ?_) members
    exact .bind (finishType_within _ _ _) fun _ => .bind (finishBody_within _ _ _) fun _ => .pure _
  split
  · exact .bind (generalizeTypes_within fuel _) hrest
  · exact .bind (.pure _) hrest

end Groups

end Elaborate

end RowML
