import RowML.Proofs.Elaboration.Finishing
import RowML.Proofs.Elaboration.Waking

/-!
# Finishing a group

When a group is finished, every member gets the parameters of the group: in front of its type, and
as binders around its body.  Inside the body, under whatever binders a place has around it, the uses
of members are applied to these parameters and lifted slots refer to them.
-/

namespace RowML

variable {config : Config} {fuel : Nat} {s s' : Session}

/-- Closing a group: forcing leaves obligations, the types of the members are generalised, and
settling the obligations gives the parameters and the uses that are lifted to them. -/
structure Closing.Settles (closing : Closing) (config : Config) (fuel : Nat) (members : List Member)
    (s s' : Session) : Prop where
  group : closing.group = members.filterMap (·.definition)
  runs : ∃ residue s₁ s₂ skolems s₃,
    ((Elaborate.force fuel).run config).run s = some (.ok residue, s₁) ∧
    ((Elaborate.rejectEquations fuel residue).run config).run s₁ = some (.ok (), s₂) ∧
    (((if config.generalize then Elaborate.generalizeTypes fuel (members.map (·.type))
      else pure []) : ElaborateM (List SkolemId)).run config).run s₂ = some (.ok skolems, s₃) ∧
    closing.generalization.skolems = skolems ∧
    (((Elaborate.settleAll fuel (residue.map (·.1))).run
      ({ Generalization.empty with skolems }, [])).run config).run s₃ =
        some (.ok ((), closing.generalization, closing.lifted), s')

/-- A member in its final form, in a session that has the quantifiers. -/
structure Closing.Finals (closing : Closing) (config : Config) (fuel : Nat) (session : Session)
    (member final : Member) : Prop where
  definition : final.definition = member.definition
  /-- The parameters are in front of the member's own type, as it is when the group is closed.
  Annotations are left alone or have their final form. -/
  type : ∃ s own s', ((Elaborate.zonk fuel member.type).run config).run s = some (.ok own, s') ∧
    s'.Closes session ∧
    ((closing.generalization.parameters session.store).type
      (closing.generalization.bindIn 0 own)).Alike session.store.kinds.Keeps final.type
  /-- Binders for the parameters are around the finished body. -/
  body : ∃ body, final.body = (closing.generalization.parameters session.store).term body ∧
    closing.Finishes .zero member.body body

namespace Elaborate

open Session (Holds Closes KeepsSlots Balanced)

/-! ## Runs -/

/-- What is related by steps is related between the start of a run over a list and its end, and
every element has a run in between. -/
theorem run_mapM_ok {α β : Type} {R : Session → Session → Prop} [IsPreorder Session R]
    {f : α → ElaborateM β} (hf : ∀ a, Within R (f a)) {as : List α} {bs : List β}
    (h : ((as.mapM f).run config).run s = some (.ok bs, s')) :
    List.Forall₂ (fun a b => a ∈ as ∧
      ∃ t t', R s t ∧ ((f a).run config).run t = some (.ok b, t') ∧ R t' s') as bs := by
  induction as generalizing s bs with
  | nil =>
    cases h
    exact .nil
  | cons a as ih =>
    rw [List.mapM_cons] at h
    obtain ⟨b, s₁, ha, h⟩ := run_bind_ok h
    obtain ⟨bs, s₂, has, hpure⟩ := run_bind_ok h
    cases hpure
    have before : R s s₁ := hf a _ _ ⟨config, _, ha⟩
    have after : R s₁ s' := Within.mapM hf as _ _ ⟨config, _, has⟩
    refine .cons ⟨List.mem_cons_self, s, s₁, refl_of R s, ha, after⟩ ((ih has).imp ?_)
    rintro a b ⟨hmem, t, t', hstart, hrun, hend⟩
    exact ⟨List.mem_cons_of_mem _ hmem, t, t', trans_of R before hstart, hrun, hend⟩

/-! ## Members -/

variable {closing : Closing}

/-- The parameters are the same wherever the group is being closed. -/
theorem parameters_eq (h : s.Closes s') (generalization : Generalization) :
    generalization.parameters s.store = generalization.parameters s'.store := by
  simp only [Generalization.parameters, Store.skolem, h.store.1]

theorem closeKindsIn_alike {c c' : Con} (acyclic : s.store.kinds.Acyclic)
    (h : ((closeKindsIn fuel c).run config).run s = some (.ok c', s')) {later : Session}
    (closes : s'.Closes later) : c.Alike later.store.kinds.Keeps c' := by
  obtain ⟨_, _, hconfig, h⟩ := run_bind_ok h
  cases hconfig
  split at h
  · obtain ⟨⟨c', store⟩, hrun, h⟩ := Option.map_eq_some_iff.mp h
    cases h
    exact Store.defaultKinds_alike hrun acyclic closes.store
  · cases h
    exact .refl (Con.Annotated.of_forall fun _ => .inl rfl)

theorem finishType_final {finishing : Finishing} {span : Span} {type final : Con}
    (acyclic : s.store.kinds.Acyclic)
    (h : ((finishType finishing span type).run config).run s = some (.ok final, s'))
    {later : Session} (closes : s'.Closes later) :
    ∃ own t', ((zonk finishing.fuel type).run config).run s = some (.ok own, t') ∧ t'.Closes later ∧
      ((finishing.generalization.parameters later.store).type
        (finishing.generalization.bindIn 0 own)).Alike later.store.kinds.Keeps final := by
  obtain ⟨own, s₁, hzonk, h⟩ := run_bind_ok h
  obtain ⟨_, _, hget, h⟩ := run_bind_ok h
  cases hget
  obtain ⟨type', s₂, hkinds, h⟩ := run_bind_ok h
  obtain ⟨_, s₃, hknown, hpure⟩ := run_bind_ok h
  cases hpure
  have zonked : s.Closes s₁ := zonk_within _ _ _ _ ⟨config, _, hzonk⟩
  have closed : s₁.Closes s₂ := closeKindsIn_within _ _ _ _ ⟨config, _, hkinds⟩
  have known : s₂.Closes later :=
    trans_of Closes (requireKnown_within _ _ _ _ _ ⟨config, _, hknown⟩) closes
  have rest : s₁.Closes later := trans_of Closes closed known
  refine ⟨own, s₁, hzonk, rest, ?_⟩
  rw [← parameters_eq rest, ← Generalization.bindType_eq]
  exact closeKindsIn_alike (zonked.store.2 acyclic).1 hkinds known

theorem finishBody_final {depths : List Nat} {span : Span} {body final : Term}
    (filled : Filled closing depths s.queue) (hplaced : body.Placed depths 0)
    (h : ((finishBody ⟨fuel, closing.generalization, closing.group⟩ span body).run config).run s =
      some (.ok final, s')) {later : Session} (closes : s'.Closes later) :
    ∃ body', final = (closing.generalization.parameters later.store).term body' ∧
      closing.Finishes .zero body body' := by
  obtain ⟨⟨body', unfinished⟩, s₁, hterm, h⟩ := run_bind_ok h
  obtain ⟨-, hgiven⟩ := finishTerm_gives filled body .zero hplaced _ _ _ _ _ _ hterm rfl
  dsimp only at h
  split at h
  · cases h
  · obtain ⟨_, _, -, h⟩ := run_bind_ok h
    obtain ⟨_, _, -, h⟩ := run_bind_ok h
    cases h
  · next hvar hslot =>
    obtain ⟨_, _, hget, hpure⟩ := run_bind_ok h
    cases hget
    cases hpure
    refine ⟨body', ?_, (hgiven hslot).2⟩
    rw [← parameters_eq closes, ← Generalization.bindBody_eq]

/-! ## Groups -/

/-- The uses that settling lifts have slots of their own, which then hold the parameters. -/
theorem settle_filled (closing : Closing) {depths : List Nat}
    {residue : List Obligation} {s₁ s₂ : Session}
    {skolems : List SkolemId} (holds : s.Holds depths residue) (hslots : s.KeepsSlots s₁)
    (hsettle : (((settleAll fuel residue).run ({ Generalization.empty with skolems }, [])).run
      config).run s₁ = some (.ok ((), closing.generalization, closing.lifted), s₂))
    (hfill : ((closing.lifted.forM (fillLifted closing.generalization.dicts.length)).run
      config).run s₂ = some (.ok (), s')) :
    closing.generalization.skolems = skolems ∧ s'.store = s₂.store ∧
      Filled closing depths s'.queue := by
  have lifts := settleAll_lifts hsettle
  obtain ⟨new, hnew, hsub, hposition⟩ := lifts.lifted
  change closing.lifted = new at hnew
  subst hnew
  have hsub : (closing.lifted.map fun use => (use.slot, use.valDepth)).Sublist
      (uses (residue ++ s.queue.outstanding)) :=
    hsub.trans ((List.sublist_append_left _ _).filterMap _)
  have hkept : s₁.KeepsSlots s₂ :=
    (settleAll_within fuel residue).run_state _ _ _ ⟨config, _, hsettle⟩
  have hdepth : ∀ use ∈ closing.lifted, depths[use.slot]? = some use.valDepth := fun use huse =>
    holds.recorded.depth _ (hsub.subset (List.mem_map_of_mem huse))
  have hsize : ∀ use ∈ closing.lifted, use.slot < s₂.queue.slots.size := fun use huse =>
    calc use.slot < depths.length := (List.getElem?_eq_some_iff.mp (hdepth use huse)).1
      _ = s.queue.slots.size := holds.size
      _ ≤ s₁.queue.slots.size := hslots
      _ ≤ s₂.queue.slots.size := hkept
  have hnodup : (closing.lifted.map (·.slot)).Nodup := by
    have := (hsub.map Prod.fst).nodup holds.recorded.nodup
    rwa [List.map_map] at this
  obtain ⟨hstore, -, hdict⟩ := fillLifted_fills hsize hnodup hfill
  exact ⟨lifts.skolems, hstore, ⟨hposition, hdepth, hdict⟩⟩

/-- Finishing a group gives every member the parameters that come of settling it. -/
theorem finishGroup_final {depths : List Nat} {members finals : List Member}
    (acyclic : s.store.kinds.Acyclic) (holds : s.Holds depths [])
    (hplaced : ∀ member ∈ members, member.body.Placed depths 0)
    (h : ((finishGroup fuel members).run config).run s = some (.ok finals, s')) :
    ∃ closing : Closing, (∃ t, closing.Settles config fuel members s t) ∧
      List.Forall₂ (closing.Finals config fuel s') members finals := by
  obtain ⟨residue, s₁, hforce, h⟩ := run_bind_ok h
  obtain ⟨_, s₂, hreject, h⟩ := run_bind_ok h
  obtain ⟨_, _, hconfig, h⟩ := run_bind_ok h
  cases hconfig
  have hquantify : ∃ skolems s₃,
      (((if config.generalize then generalizeTypes fuel (members.map (·.type))
        else pure []) : ElaborateM (List SkolemId)).run config).run s₂ = some (.ok skolems, s₃) ∧
      (((settleAll fuel (residue.map (·.1))).run ({ Generalization.empty with skolems }, []) >>=
        fun settled => do
          settled.2.2.forM (fillLifted settled.2.1.dicts.length)
          members.mapM fun member => do
            let type ← finishType ⟨fuel, settled.2.1, members.filterMap (·.definition)⟩
              member.span member.type
            let body ← finishBody ⟨fuel, settled.2.1, members.filterMap (·.definition)⟩
              member.span member.body
            pure { member with type, body } : ElaborateM (List Member)).run config).run s₃ =
        some (.ok finals, s') := by
    split at h
    next hgeneralize =>
      rw [if_pos hgeneralize]
      exact run_bind_ok h
    next hgeneralize =>
      rw [if_neg hgeneralize]
      exact run_bind_ok h
  obtain ⟨skolems, s₃, hskolems, h⟩ := hquantify
  obtain ⟨⟨_, generalization, lifted⟩, s₄, hsettle, h⟩ := run_bind_ok h
  obtain ⟨_, s₅, hfill, h⟩ := run_bind_ok h
  let closing : Closing := ⟨generalization, members.filterMap (·.definition), lifted⟩
  have rejected (R : Session → Session → Prop) [Session.AllowsForcing R] : R s₁ s₂ :=
    rejectEquations_within _ _ _ _ ⟨config, _, hreject⟩
  have quantified (R : Session → Session → Prop) [Session.AllowsForcing R] : R s₂ s₃ := by
    split at hskolems
    · exact generalizeTypes_within _ _ _ _ ⟨config, _, hskolems⟩
    · cases hskolems
      exact refl_of R _
  obtain ⟨hquantifiers, hstore, filled⟩ := settle_filled closing
    (force_holds holds hforce) (trans_of _ (rejected _) (quantified _)) hsettle hfill
  have acyclic₅ : s₅.store.kinds.Acyclic := by
    have forced : s.Balanced s₁ := force_within _ _ _ ⟨config, _, hforce⟩
    have settled : s₃.Balanced s₄ :=
      (settleAll_within fuel _).run_state _ _ _ ⟨config, _, hsettle⟩
    rw [hstore]
    exact settled.kinds.acyclic <| (quantified Balanced).kinds.acyclic <|
      (rejected Balanced).kinds.acyclic <| forced.kinds.acyclic acyclic
  refine ⟨closing, ⟨s₄, rfl, residue, s₁, s₂, skolems, s₃, hforce, hreject, hskolems, hquantifiers,
    hsettle⟩, ?_⟩
  have hruns := run_mapM_ok (R := Closes) (fun member => .bind (finishType_within _ _ _) fun _ =>
    .bind (finishBody_within _ _ _) fun _ => .pure _) h
  refine hruns.imp ?_
  rintro member final ⟨hmem, t, t', before, hrun, after⟩
  obtain ⟨type, s₆, htype, hrun⟩ := run_bind_ok hrun
  obtain ⟨body, s₇, hbody, hpure⟩ := run_bind_ok hrun
  cases hpure
  have typed : t.Closes s₆ := finishType_within _ _ _ _ _ ⟨config, _, htype⟩
  have bodied : s₆.Closes t' := finishBody_within _ _ _ _ _ ⟨config, _, hbody⟩
  have hqueue : s₆.queue = s₅.queue := typed.queue.trans before.queue
  obtain ⟨own, t'', hzonk, closes, halike⟩ := finishType_final (before.store.2 acyclic₅).1 htype
    (trans_of Closes bodied after)
  have filled' : Filled closing depths s₆.queue := hqueue ▸ filled
  exact ⟨rfl, ⟨t, own, t'', hzonk, closes, halike⟩,
    finishBody_final filled' (hplaced member hmem) hbody after⟩

/-! ## Declarations -/

/-- A group of members is finished somewhere. -/
def Finished (config : Config) (fuel : Nat) (members finals : List Member) : Prop :=
  ∃ (s s' : Session) (closing : Closing),
    ((finishGroup fuel members).run config).run s = some (.ok finals, s') ∧
    (∃ t, closing.Settles config fuel members s t) ∧
    List.Forall₂ (closing.Finals config fuel s') members finals

/-- What a declaration of a value with that body has given: the body has been elaborated, and the
group that has it as its only member has been finished. -/
def FinishedVal (config : Config) (fuel : Nat) (body : Surface.Expr) (declaration : Declaration) :
    Prop :=
  ∃ id member final, declaration = .val id final.type final.body ∧
    (∃ t t', ((checkExpr fuel body member.type).run config).run t = some (.ok member.body, t')) ∧
    Finished config fuel [member] [final]

/-- What a declaration of functions has given: each function, with the type that its header says,
is a member of a group that has been finished. -/
def FinishedFunctions (config : Config) (fuel : Nat) (group : List Surface.Function)
    (declaration : Declaration) : Prop :=
  ∃ headers ids members finals,
    headers.length = group.length ∧ ids.length = group.length ∧
    declaration = .functions ((ids.zip finals).map fun (id, final) =>
      (id, final.type, final.body)) ∧
    List.Forall₂ (fun ((function, header), id) member => member.definition = some id ∧
      member.type = header.type ∧
      ∃ t t', ((elaborateBody fuel function header).run config).run t = some (.ok member.body, t'))
      ((group.zip headers).zip ids) members ∧
    Finished config fuel members finals

/-- A declaration starts without obligations, so that there is no slot yet. -/
theorem beginGroup_holds {u : PUnit} (h : (beginGroup.run config).run s = some (.ok u, s')) :
    s'.Holds [] [] ∧ s.Balanced s' := by
  cases h
  exact ⟨Session.holds_empty rfl, .of_scope rfl rfl⟩

theorem declareProvisionally_calm (function : Surface.Function) (header : Header) :
    Within Session.Calm (declareProvisionally function header) := by
  intro s s' heffect
  refine .of_queue (declareProvisionally_within function header s s' heffect) ?_
  obtain ⟨config, r, heffect⟩ := heffect
  cases heffect
  rfl

theorem declareFunctions_finished {group : List Surface.Function} {declaration : Declaration}
    (balanced : Session.empty.Balanced s)
    (h : ((declareFunctions fuel group).run config).run s = some (.ok declaration, s')) :
    FinishedFunctions config fuel group declaration := by
  obtain ⟨_, s₁, hbegin, h⟩ := run_bind_ok h
  obtain ⟨headers, s₂, hheaders, h⟩ := run_bind_ok h
  obtain ⟨ids, s₃, hids, h⟩ := run_bind_ok h
  obtain ⟨members, s₄, hmembers, h⟩ := run_bind_ok h
  obtain ⟨finals, s₅, hfinish, h⟩ := run_bind_ok h
  obtain ⟨_, s₆, -, h⟩ := run_bind_ok h
  obtain ⟨settled, s₇, hsettled, hpure⟩ := run_bind_ok h
  cases hpure
  obtain ⟨holds, begun⟩ := beginGroup_holds hbegin
  -- the headers and the provisional definitions
  have headed : s₁.Calm s₂ :=
    Within.mapM (elaborateHeader_calm fuel) _ _ _ ⟨config, _, hheaders⟩
  have hheadersLength := (run_mapM_ok (elaborateHeader_calm fuel) hheaders).length_eq
  have hdeclare : ∀ x : Surface.Function × Header,
    Within Session.Calm (declareProvisionally x.1 x.2) :=
    fun x => declareProvisionally_calm x.1 x.2
  have provisional : s₂.Calm s₃ := Within.mapM hdeclare _ _ _ ⟨config, _, hids⟩
  have hidsLength := (run_mapM_ok hdeclare hids).length_eq
  rw [List.length_zip, ← hheadersLength, Nat.min_self] at hidsLength
  -- the bodies
  have hbody (x : (Surface.Function × Header) × DefId) : Within Balanced (do
      let body ← elaborateBody fuel x.1.1 x.1.2
      pure (⟨some x.2, x.1.2.type, body, x.1.1.span⟩ : Member)) :=
    .bind (elaborateBody_within fuel _ _) fun _ => .pure _
  have bodied : s₃.Balanced s₄ := Within.mapM hbody _ _ _ ⟨config, _, hmembers⟩
  have hdepth : s₃.scope.valDepth = 0 :=
    provisional.valDepth.trans (headed.valDepth.trans (begun.valDepth.trans balanced.valDepth))
  have emits : Emits 0 0 (((group.zip headers).zip ids).mapM fun x => do
      let body ← elaborateBody fuel x.1.1 x.1.2
      pure (⟨some x.2, x.1.2.type, body, x.1.1.span⟩ : Member)) fun depths members =>
        members.length = _ ∧ ∀ member ∈ members, member.body.Placed depths 0 :=
    .mapM fun x _ => .bind (elaborateBody_emits fuel _ _) fun _ => .pure fun _ => id
  obtain ⟨-, -, depths, -, holds', hplaced⟩ :=
    emits _ _ _ _ _ hmembers hdepth (provisional.holds (headed.holds holds))
  have hruns : List.Forall₂ (fun ((function, header), id) member => member.definition = some id ∧
      member.type = header.type ∧
      ∃ t t', ((elaborateBody fuel function header).run config).run t = some (.ok member.body, t'))
      ((group.zip headers).zip ids) members := by
    refine (run_mapM_ok hbody hmembers).imp ?_
    rintro x member ⟨-, t, t', -, hrun, -⟩
    obtain ⟨body, t₁, hbody, hpure⟩ := run_bind_ok hrun
    cases hpure
    exact ⟨rfl, rfl, t, _, hbody⟩
  -- the final members
  have acyclic : s₄.store.kinds.Acyclic :=
    bodied.kinds.acyclic <| provisional.kinds.acyclic <| headed.kinds.acyclic <|
      begun.kinds.acyclic balanced.acyclic
  obtain ⟨closing, settles, hfinals⟩ :=
    finishGroup_final acyclic holds' (hplaced depths List.prefix_rfl).2 hfinish
  have hsettledEq : settled = (ids.zip finals).map fun x => (x.1, x.2.type, x.2.body) := by
    have hsettle (x : DefId × Member) : Within Balanced (settleProvisional fuel x.1 x.2) :=
      settleProvisional_within fuel x.1 x.2
    have hresults : List.Forall₂ (fun x result => id result = (x.1, x.2.type, x.2.body))
        (ids.zip finals) settled := by
      refine (run_mapM_ok hsettle hsettled).imp ?_
      rintro x result ⟨-, t, t', -, hrun, -⟩
      obtain ⟨_, _, -, hrun⟩ := run_bind_ok hrun
      obtain ⟨_, _, -, hpure⟩ := run_bind_ok hrun
      cases hpure
      rfl
    exact (List.map_id _).symm.trans (map_eq_map_of_forall₂ hresults)
  exact ⟨headers, ids, members, finals, hheadersLength.symm, hidsLength.symm,
    congrArg Declaration.functions hsettledEq, hruns, s₄, s₅, closing, hfinish, settles, hfinals⟩

theorem declareVal_finished {span : Span} {name : String} {type : Option Surface.Con}
    {body : Surface.Expr} {declaration : Declaration} (balanced : Session.empty.Balanced s)
    (h : ((declareVal fuel span name type body).run config).run s =
      some (.ok declaration, s')) :
    FinishedVal config fuel body declaration := by
  obtain ⟨_, s₁, hbegin, h⟩ := run_bind_ok h
  obtain ⟨type', s₂, htype, h⟩ := run_bind_ok h
  obtain ⟨body', s₃, hbody, h⟩ := run_bind_ok h
  obtain ⟨finals, s₄, hfinish, h⟩ := run_bind_ok h
  obtain ⟨holds, begun⟩ := beginGroup_holds hbegin
  have typed : s₁.Calm s₂ := checkTypeOption_within _ _ _ _ ⟨config, _, htype⟩
  have bodied : s₂.Balanced s₃ := checkExpr_within _ _ _ _ _ ⟨config, _, hbody⟩
  have hdepth : s₂.scope.valDepth = 0 :=
    typed.valDepth.trans (begun.valDepth.trans balanced.valDepth)
  obtain ⟨-, -, depths, -, holds', hplaced⟩ :=
    checkExpr_emits fuel body type' _ _ _ _ _ hbody hdepth (typed.holds holds)
  have acyclic : s₃.store.kinds.Acyclic :=
    bodied.kinds.acyclic <| typed.kinds.acyclic <| begun.kinds.acyclic balanced.acyclic
  obtain ⟨closing, settles, hfinals⟩ := finishGroup_final acyclic holds'
    (List.forall_mem_singleton.mpr (hplaced depths List.prefix_rfl)) hfinish
  cases hfinals with
  | @cons _ final _ _ hfinal hnil =>
    cases hnil
    obtain ⟨id, _, -, h⟩ := run_bind_ok h
    obtain ⟨_, _, -, h⟩ := run_bind_ok h
    obtain ⟨_, _, -, hpure⟩ := run_bind_ok h
    cases hpure
    exact ⟨id, _, final, rfl, ⟨_, _, hbody⟩, s₃, s₄, closing, hfinish, settles,
      .cons hfinal .nil⟩

/-- A class of types. -/
def declareShow : ElaborateM Unit := do
  let _ ← declareClass 10 default "show" (some ⟨.arrow ⟨.type, default⟩ ⟨.type, default⟩, default⟩)
    none

/-- A function that uses itself, in which an argument `f` asks for a dictionary of the class at the
type of its other argument. -/
def describe : Surface.Function where
  name := "describe"
  params := [.val "f" (some ⟨.poly "a" true (some ⟨.type, default⟩)
      ⟨.arrow ⟨.app ⟨.var "show", default⟩ ⟨.var "a", default⟩, default⟩
        ⟨.arrow ⟨.var "a", default⟩ ⟨.var "string", default⟩, default⟩, default⟩, default⟩),
    .val "x" none]
  result := none
  body := ⟨.ite ⟨.lit (.bool true), default⟩
    ⟨.app ⟨.var "f", default⟩ ⟨.var "x", default⟩, default⟩
    ⟨.app ⟨.app ⟨.var "describe", default⟩ ⟨.var "f", default⟩, default⟩ ⟨.var "x", default⟩,
      default⟩, default⟩
  span := default

/-- Whether a function has a quantifier and a dictionary of the first class as its parameters. -/
def takesDictionary : Declaration → Bool
  | .functions [(_, .poly _ true _ (.arrow (.app (.global 0) (.bvar 0)) _),
      .cabs _ _ (.abs _ (.app (.global 0) (.bvar 0)) _))] => true
  | _ => false

def declaresDictionary (s : Session) (group : List Surface.Function) : Bool :=
  match ((declareFunctions 20 group).run default).run s with
  | some (.ok declaration, _) => takesDictionary declaration
  | _ => false

end Elaborate

end RowML
