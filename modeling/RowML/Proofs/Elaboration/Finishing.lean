import RowML.Proofs.Elaboration.Parameters
import RowML.Proofs.Elaboration.Settling

/-!
# Finishing a term

Finishing keeps the shape of a term.  Under the same binders, uses of members are applied to the
parameters of the group, and a slot becomes the dictionary that it holds; a slot without one is
remembered, and the whole term has no final form then.
-/

namespace RowML

namespace Session

/-- The queue is the same, and reading and closing have made of the store what it is. -/
structure Closes (s s' : Session) : Prop where
  queue : s'.queue = s.queue
  store : s.store.Closes s'.store

instance : AllowsClosing Closes where
  refl _ := ⟨rfl, refl_of _ _⟩
  trans _ _ _ h h' := ⟨h'.queue.trans h.queue, trans_of _ h.store h'.store⟩
  of_closing closing hrun := ⟨rfl, closing.closes _ _ ⟨_, hrun⟩⟩

end Session

namespace Elaborate

open Session (Closes)

/-! ## Results of finishing -/

/-- Every run that succeeds with that queue leaves the queue alone.  If no slot has been missed in
the end, none had been missed before, and the result has the property. -/
def Gives {α : Type} (queue : Queue) (x : FinishM α) (P : α → Prop) : Prop :=
  ∀ config u s a u' s', ((x.run u).run config).run s = some (.ok (a, u'), s') → s.queue = queue →
    s'.queue = queue ∧ (u'.slot = none → u.slot = none ∧ P a)

namespace Gives

variable {α β : Type} {queue : Queue} {P : α → Prop} {Q : β → Prop}

theorem pure {a : α} (h : P a) : Gives queue (Pure.pure a) P := by
  rintro config u s _ _ _ ⟨⟩ hqueue
  exact ⟨hqueue, fun hslot => ⟨hslot, h⟩⟩

theorem bind {x : FinishM α} {f : α → FinishM β} (hx : Gives queue x P)
    (hf : ∀ a, Gives queue (f a) fun b => P a → Q b) : Gives queue (x >>= f) Q := by
  intro config u s b u'' s'' hrun hqueue
  obtain ⟨a, u', s', hxrun, hfrun⟩ := run_state_bind_ok hrun
  obtain ⟨hqueue', hmissed⟩ := hx _ _ _ _ _ _ hxrun hqueue
  obtain ⟨hqueue'', hmissed'⟩ := hf a _ _ _ _ _ _ hfrun hqueue'
  refine ⟨hqueue'', fun hslot => ?_⟩
  obtain ⟨hslot', hQ⟩ := hmissed' hslot
  obtain ⟨hslot'', hP⟩ := hmissed hslot'
  exact ⟨hslot'', hQ hP⟩

theorem mono {P' : α → Prop} {x : FinishM α} (hx : Gives queue x P) (h : ∀ a, P a → P' a) :
    Gives queue x P' := by
  intro config u s a u' s' hrun hqueue
  obtain ⟨hqueue', hmissed⟩ := hx _ _ _ _ _ _ hrun hqueue
  exact ⟨hqueue', fun hslot => (hmissed hslot).imp_right (h a)⟩

/-- A result of which nothing needs to be known. -/
theorem after {x : FinishM α} {f : α → FinishM β} (hx : Gives queue x fun _ => True)
    (hf : ∀ a, Gives queue (f a) Q) : Gives queue (x >>= f) Q :=
  hx.bind fun a => (hf a).mono fun _ h _ => h

theorem lift {x : ElaborateM α} (hx : Within Closes x) : Gives queue (liftM x) fun _ => True := by
  intro config u s a u' s' hrun hqueue
  obtain ⟨rfl, hlifted⟩ := run_lift_ok hrun
  exact ⟨(hx _ _ ⟨config, _, hlifted⟩).queue.trans hqueue, fun hslot => ⟨hslot, trivial⟩⟩

theorem mapM {f : α → FinishM β} (h : ∀ a, Gives queue (f a) fun _ => True) (as : List α) :
    Gives queue (as.mapM f) fun _ => True := by
  induction as with
  | nil => exact .pure trivial
  | cons a as ih =>
    rw [List.mapM_cons]
    exact .after (h a) fun _ => .after ih fun _ => .pure trivial

end Gives

variable {queue : Queue} (finishing : Finishing) (depth : TermDepth)

/-! ## Parts of terms -/

theorem finishCon_gives (c : Con) : Gives queue (finishCon finishing depth c) fun _ => True := by
  refine .after (.lift (zonk_within _ _)) fun _ => .after (.lift (closeKindsIn_within _ _)) fun _ =>
    .after (.lift (closing_within (.unsolvedMVars _ _))) fun _ => .after ?_ fun _ => .pure trivial
  rintro config u s _ _ _ ⟨⟩ hqueue
  exact ⟨hqueue, fun hslot => ⟨hslot, trivial⟩⟩

theorem finishKind_gives (kind : Kind) : Gives queue (finishKind finishing kind) fun _ => True :=
  .lift (closeKind_within _ _)

mutual
/-- A variable among the dictionaries stays one. -/
theorem finishDict_gives (dict : Dict) : Gives queue (finishDict finishing depth dict) fun dict' =>
    ∀ index, dict = .local index → dict' = .local index := by
  cases dict with
  | «local» index => exact .pure fun _ h => h
  | «instance» source kinds cons dicts =>
    exact .after (.mapM (finishKind_gives finishing) kinds) fun _ =>
      .after (.mapM (finishCon_gives finishing depth) cons) fun _ =>
      .after (finishDicts_gives dicts) fun _ => .pure nofun
  | record fields => exact .after (finishDictFields_gives fields) fun _ => .pure nofun
theorem finishDicts_gives (dicts : List Dict) :
    Gives queue (finishDicts finishing depth dicts) fun _ => True := by
  cases dicts with
  | nil => exact .pure trivial
  | cons dict rest =>
    exact .bind (finishDict_gives dict) fun _ => .after (finishDicts_gives rest) fun _ =>
      .pure fun _ => trivial
theorem finishDictFields_gives (fields : List (Con × Dict)) :
    Gives queue (finishDictFields finishing depth fields) fun _ => True := by
  cases fields with
  | nil => exact .pure trivial
  | cons field rest =>
    exact .after (finishCon_gives finishing depth field.1) fun _ =>
      .bind (finishDict_gives field.2) fun _ => .after (finishDictFields_gives rest) fun _ =>
      .pure fun _ => trivial
end

mutual
theorem finishPattern_gives (pattern : Pattern) :
    Gives queue (finishPattern finishing depth pattern)
    fun pattern' => pattern'.boundCount = pattern.boundCount := by
  cases pattern with
  | wild | lit => exact .pure rfl
  | var name type => exact .after (finishCon_gives finishing depth type) fun _ => .pure rfl
  | variant field payload =>
    exact .after (finishCon_gives finishing depth field) fun _ =>
      .bind (finishPattern_gives payload) fun _ => .pure fun h => h
  | record fields rest =>
    refine .bind (finishPatternFields_gives fields) fun _ => ?_
    cases rest with
    | none => exact .after (.pure trivial) fun _ => .pure fun h => h
    | some rest =>
      exact .after (.after (finishCon_gives finishing depth rest) fun _ => .pure trivial) fun _ =>
        .pure fun h => h
theorem finishPatternFields_gives (fields : List (Con × Pattern)) :
    Gives queue (finishPatternFields finishing depth fields) fun fields' =>
      Pattern.boundCountFields fields' = Pattern.boundCountFields fields := by
  cases fields with
  | nil => exact .pure rfl
  | cons field rest =>
    refine .after (finishCon_gives finishing depth field.1) fun _ =>
      .bind (finishPattern_gives field.2) fun _ => .bind (finishPatternFields_gives rest) fun _ =>
      .pure fun hrest hpattern => ?_
    rw [Pattern.boundCountFields, hpattern, hrest, ← Pattern.boundCountFields]
end

/-! ## Terms -/

/-- The slots of lifted uses hold the parameters, as they are seen from where the slots were made.
-/
structure Filled (closing : Closing) (depths : List Nat) (queue : Queue) : Prop where
  position : ∀ use ∈ closing.lifted, use.position < closing.generalization.dicts.length
  depth : ∀ use ∈ closing.lifted, depths[use.slot]? = some use.valDepth
  dict : ∀ use ∈ closing.lifted, queue.slotDict? use.slot =
    some (.local (use.valDepth + closing.generalization.dicts.length - 1 - use.position))

variable {closing : Closing} {depths : List Nat} {fuel : Nat} {depth : TermDepth}

theorem finishSlot_gives (filled : Filled closing depths queue)
    (finishing : Finishing) {id : SlotId}
    (hplaced : depths[id]? = some depth.val) : Gives queue (finishSlot finishing depth id)
      fun term => closing.Finishes depth (.slot id) term := by
  intro config u s term u' s' hrun hqueue
  obtain ⟨_, _, _, hget, hrun⟩ := run_state_bind_ok hrun
  cases hget
  cases hslot : s.queue.slotDict? id with
  | none =>
    rw [hslot] at hrun
    cases hrun
    refine ⟨hqueue, fun hmissed => ?_⟩
    cases hu : u.slot <;> simp [hu] at hmissed
  | some dict =>
    rw [hslot] at hrun
    refine (finishDict_gives finishing depth dict).bind (Q := fun term =>
      closing.Finishes depth (.slot id) term) (fun dict' => .pure fun hlocal => ?_)
      _ _ _ _ _ _ hrun hqueue
    refine .slot fun use huse hid => ?_
    subst hid
    have hdepth : use.valDepth = depth.val := by
      have := (filled.depth use huse).symm.trans hplaced
      simpa using this
    have hdict := filled.dict use huse
    rw [← hqueue, hslot, Option.some_inj] at hdict
    have hposition := filled.position use huse
    exact ⟨_, hlocal _ hdict, pointsTo_iff.mpr ⟨hposition, by omega⟩⟩

/-- Lists that are related member by member agree at every index. -/
private theorem forall₂_getElem? {α β : Type} {R : α → β → Prop} {as : List α} {bs : List β}
    (h : List.Forall₂ R as bs) {i : Nat} {a : α} {b : β} (ha : as[i]? = some a)
    (hb : bs[i]? = some b) : R a b := by
  obtain ⟨hi, rfl⟩ := List.getElem?_eq_some_iff.mp ha
  obtain ⟨hi', rfl⟩ := List.getElem?_eq_some_iff.mp hb
  exact h.get hi hi'

mutual
/-- What finishing makes of a term whose slots are in their places. -/
theorem finishTerm_gives (filled : Filled closing depths queue) (term : Term) (depth : TermDepth)
    (hplaced : term.Placed depths depth.val) :
    Gives queue (finishTerm ⟨fuel, closing.generalization, closing.group⟩ depth term)
      fun term' => closing.Finishes depth term term' := by
  cases term with
  | lit value => exact .pure (.lit value)
  | bvar index => exact .pure (.bvar index)
  | member module path item => exact .pure (.member module path item)
  | global id =>
    rw [finishTerm]
    split
    next h =>
      obtain ⟨cons, dicts, huse, hcons, hdicts⟩ := recursiveUse_eq closing.generalization depth id
      rw [huse]
      exact .pure (.recursive (by simpa using h) hcons hdicts)
    next h => exact .pure (.global (by simpa using h))
  | app f a =>
    exact .bind (finishTerm_gives filled f depth hplaced.1) fun _ =>
      .bind (finishTerm_gives filled a depth hplaced.2) fun _ => .pure fun ha hf => .app hf ha
  | abs x type body =>
    exact .after (finishCon_gives _ _ _) fun _ =>
      .bind (finishTerm_gives filled body (depth.underVals 1) hplaced) fun _ =>
      .pure fun hbody => .abs _ _ _ hbody
  | capp f a =>
    exact .bind (finishTerm_gives filled f depth hplaced) fun _ =>
      .after (finishCon_gives _ _ _) fun _ => .pure fun hf => .capp _ _ hf
  | cabs x kind body =>
    exact .after (finishKind_gives _ _) fun _ =>
      .bind (finishTerm_gives filled body depth.underCon hplaced) fun _ =>
      .pure fun hbody => .cabs _ _ _ hbody
  | kapp f a =>
    exact .bind (finishTerm_gives filled f depth hplaced) fun _ =>
      .after (finishKind_gives _ _) fun _ => .pure fun hf => .kapp _ _ hf
  | kabs x body =>
    exact .bind (finishTerm_gives filled body depth hplaced) fun _ =>
      .pure fun hbody => .kabs _ hbody
  | disjointAbs left right body =>
    exact .after (finishCon_gives _ _ _) fun _ => .after (finishCon_gives _ _ _) fun _ =>
      .bind (finishTerm_gives filled body depth hplaced) fun _ =>
      .pure fun hbody => .disjointAbs _ _ _ _ hbody
  | disjointApp f =>
    exact .bind (finishTerm_gives filled f depth hplaced) fun _ => .pure fun hf => .disjointApp hf
  | record fields =>
    exact .bind (finishFields_gives filled fields depth hplaced) fun _ =>
      .pure fun h => .record h.length_eq fun _ _ _ => forall₂_getElem? h
  | field value name rest =>
    exact .bind (finishTerm_gives filled value depth hplaced) fun _ =>
      .after (finishCon_gives _ _ _) fun _ => .after (finishCon_gives _ _ _) fun _ =>
      .pure fun h => .field _ _ _ _ h
  | concat left right leftRow rightRow =>
    exact .bind (finishTerm_gives filled left depth hplaced.1) fun _ =>
      .bind (finishTerm_gives filled right depth hplaced.2) fun _ =>
      .after (finishCon_gives _ _ _) fun _ => .after (finishCon_gives _ _ _) fun _ =>
      .pure fun hright hleft => .concat _ _ _ _ hleft hright
  | cut value field rest =>
    exact .bind (finishTerm_gives filled value depth hplaced) fun _ =>
      .after (finishCon_gives _ _ _) fun _ => .after (finishCon_gives _ _ _) fun _ =>
      .pure fun h => .cut _ _ _ _ h
  | cutRow value row rest =>
    exact .bind (finishTerm_gives filled value depth hplaced) fun _ =>
      .after (finishCon_gives _ _ _) fun _ => .after (finishCon_gives _ _ _) fun _ =>
      .pure fun h => .cutRow _ _ _ _ h
  | inject field value row =>
    exact .after (finishCon_gives _ _ _) fun _ =>
      .bind (finishTerm_gives filled value depth hplaced) fun _ =>
      .after (finishCon_gives _ _ _) fun _ => .pure fun h => .inject _ _ _ _ h
  | case scrutinee arms type =>
    exact .bind (finishTerm_gives filled scrutinee depth hplaced.1) fun _ =>
      .bind (finishArms_gives filled arms depth hplaced.2) fun _ =>
      .after (finishCon_gives _ _ _) fun _ => .pure fun harms hscrutinee =>
        .case _ _ hscrutinee harms.length_eq (fun _ _ _ ha hb => (forall₂_getElem? harms ha hb).1)
          fun _ _ _ ha hb => (forall₂_getElem? harms ha hb).2
  | letVal x type value body =>
    exact .after (finishCon_gives _ _ _) fun _ =>
      .bind (finishTerm_gives filled value depth hplaced.1) fun _ =>
      .bind (finishTerm_gives filled body (depth.underVals 1) hplaced.2) fun _ =>
      .pure fun hbody hvalue => .letVal _ _ _ hvalue hbody
  | letRec functions body =>
    exact .bind (finishFunctions_gives filled functions (depth.underVals functions.length)
        hplaced.1) fun _ =>
      .bind (finishTerm_gives filled body (depth.underVals functions.length) hplaced.2) fun _ =>
      .pure fun hbody h => .letRec h.length_eq (fun _ _ _ => forall₂_getElem? h) hbody
  | ite condition yes no =>
    exact .bind (finishTerm_gives filled condition depth hplaced.1) fun _ =>
      .bind (finishTerm_gives filled yes depth hplaced.2.1) fun _ =>
      .bind (finishTerm_gives filled no depth hplaced.2.2) fun _ =>
      .pure fun hno hyes hcondition => .ite hcondition hyes hno
  | dict dict => exact .bind (finishDict_gives _ _ dict) fun _ => .pure fun _ => .dict _ _
  | slot id => exact finishSlot_gives filled _ hplaced
theorem finishFields_gives (filled : Filled closing depths queue) (fields : List (Con × Term))
    (depth : TermDepth) (hplaced : Term.SlotsFields (fun depth slot => depths[slot]? = some depth)
      depth.val fields) :
    Gives queue (finishFields ⟨fuel, closing.generalization, closing.group⟩ depth fields)
      (List.Forall₂ (fun field field' => closing.Finishes depth field.2 field'.2) fields) := by
  cases fields with
  | nil => exact .pure .nil
  | cons field rest =>
    exact .after (finishCon_gives _ _ _) fun _ =>
      .bind (finishTerm_gives filled field.2 depth hplaced.1) fun _ =>
      .bind (finishFields_gives filled rest depth hplaced.2) fun _ =>
      .pure fun hrest h => .cons h hrest
theorem finishArms_gives (filled : Filled closing depths queue) (arms : List (Pattern × Term))
    (depth : TermDepth) (hplaced : Term.SlotsArms (fun depth slot => depths[slot]? = some depth)
      depth.val arms) :
    Gives queue (finishArms ⟨fuel, closing.generalization, closing.group⟩ depth arms)
      (List.Forall₂ (fun arm arm' => arm'.1.boundCount = arm.1.boundCount ∧
        closing.Finishes (depth.underVals arm.1.boundCount) arm.2 arm'.2) arms) := by
  cases arms with
  | nil => exact .pure .nil
  | cons arm rest =>
    exact .bind (finishPattern_gives _ _ arm.1) fun _ =>
      .bind (finishTerm_gives filled arm.2 (depth.underVals arm.1.boundCount) hplaced.1) fun _ =>
      .bind (finishArms_gives filled rest depth hplaced.2) fun _ =>
      .pure fun hrest h hbound => .cons ⟨hbound, h⟩ hrest
theorem finishFunctions_gives (filled : Filled closing depths queue)
    (functions : List (String × Con × Term)) (depth : TermDepth)
    (hplaced : Term.SlotsFunctions (fun depth slot => depths[slot]? = some depth) depth.val
      functions) :
    Gives queue (finishFunctions ⟨fuel, closing.generalization, closing.group⟩ depth functions)
      (List.Forall₂ (fun function function' => closing.Finishes depth function.2.2 function'.2.2)
        functions) := by
  cases functions with
  | nil => exact .pure .nil
  | cons function rest =>
    exact .after (finishCon_gives _ _ _) fun _ =>
      .bind (finishTerm_gives filled function.2.2 depth hplaced.1) fun _ =>
      .bind (finishFunctions_gives filled rest depth hplaced.2) fun _ =>
      .pure fun hrest h => .cons h hrest
end

end Elaborate

end RowML
