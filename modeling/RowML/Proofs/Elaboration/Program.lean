import RowML.Proofs.Elaboration.Declaration

/-!
# Steps of a whole program

Signatures and structures hold declarations of their own, so their elaboration is no longer made of
steps inside one declaration.  Besides such steps there are the starts of declarations, and changes
of what a declaration has made itself: the types of functions that are elaborated together, and the
instances of structures that are sealed.  Whatever allows all these allows what a program does
between the empty session and its end; so nothing else happens, as `elaborate_reaches` says.
-/

namespace RowML

namespace Elaborate

open Session (AllowsScoping AllowsRestarts AllowsRevising)

section Revising

variable {R : Session → Session → Prop} [AllowsRevising R] {α β : Type}

/-! ## Undoing and settling -/

/-- A change of the session that is not one of the store or of the queue. -/
theorem revise_within {f : Session → Session} (hstore : ∀ s, (f s).store = s.store)
    (hqueue : ∀ s, (f s).queue = s.queue) (hscope : ∀ s, (f s).scope = s.scope)
    (hkeeps : ∀ s : Session, s.KeepsIdentities (f s)) :
    Within R (modify f : ElaborateM PUnit) := by
  rintro s s' ⟨config, r, heffect⟩
  cases heffect
  exact AllowsRevising.of_revision (hstore s) (hqueue s) (hscope s) (hkeeps s)

theorem declareProvisionally_within (function : Surface.Function) (header : Header) :
    Within R (declareProvisionally function header) :=
  .bind (addDefinition_within _ _ _) fun _ =>
    .bind (revise_within (fun _ => rfl) (fun _ => rfl) (fun _ => rfl) fun _ =>
      .of_eq rfl rfl rfl) fun _ =>
    .bind (bindName_within _ _ _) fun _ => .pure _

theorem settleProvisional_within (fuel : Nat) (id : DefId) (member : Member) :
    Within R (settleProvisional fuel id member) :=
  .bind (revise_within (fun _ => rfl) (fun _ => rfl) (fun _ => rfl) fun _ =>
    .of_eq rfl rfl rfl) fun _ =>
    .bind (registerValue_within fuel _ _) fun _ => .pure _

theorem declareFunctions_within (fuel : Nat) (group : List Surface.Function) :
    Within R (declareFunctions fuel group) :=
  .bind beginGroup_within fun _ =>
    .bind (.mapM (elaborateHeader_within fuel) group) fun _ =>
    .bind (.mapM (fun _ => declareProvisionally_within _ _) _) fun _ =>
    .bind (.mapM (fun _ => .bind (elaborateBody_within fuel _ _) fun _ => .pure _) _) fun _ =>
    .bind (finishGroup_within fuel _) fun _ =>
    .bind (revise_within (fun _ => rfl) (fun _ => rfl) (fun _ => rfl) fun _ =>
      .of_eq rfl rfl rfl) fun _ =>
    .bind (.mapM (fun _ => settleProvisional_within fuel _ _) _) fun _ => .pure _

theorem retractInstances_within (count : Nat) : Within R (retractInstances count) :=
  revise_within (fun _ => rfl) (fun _ => rfl) (fun _ => rfl) fun _ => .of_eq rfl rfl rfl

theorem sealModule_within (fuel : Nat) (span : Span) (name : String) (inner : ModuleRef)
    (sig : Signature) (instances : Nat) :
    Within R (sealModule fuel span name inner sig instances) :=
  .bind (requireMatch_within fuel span inner sig) fun _ =>
    .bind (retractInstances_within instances) fun _ =>
    .bind (qualify_within name) fun _ => .bind (addModule_within _) fun _ =>
    .bind (declare_within _ _) fun _ => .bind (registerInstances_within fuel _ sig) fun _ => .pure _

/-- A declaration that fails leaves no obligations behind, nor binders and names of its own. -/
theorem recover_within {x : ElaborateM α} {s s' : Session} (h : Within R x) (hx : Effect x s s')
    (diagnostic : Diagnostic) :
    R s (let session := recover (checkpoint s) s'
      { session with errors := session.errors ++ [diagnostic] }) := by
  have left : R s { s' with scope := s'.scope.reset s.scope.mark } := by
    obtain ⟨R', -, encloses⟩ := AllowsScoping.encloses (R := R)
    exact encloses.leaving (encloses.le (h s s' hx))
  have hkept := Globals.setDefinitions_modules s'.provisional (.val .error) s'.globals
  refine trans_of R left (trans_of R (AllowsRestarts.of_restart _) ?_)
  exact AllowsRevising.of_revision rfl rfl rfl (.of_eq hkept.1 hkept.2 rfl)

/-- The failure of a declaration is handled in the knowledge of where the declaration started. -/
theorem recovering_within {x : ElaborateM α} {f : Session → Except Diagnostic α → ElaborateM β}
    {g : ElaborateM β} (hx : Within R x) (hok : ∀ s a, Within R (f s (.ok a))) (hg : Within R g)
    (herror : ∀ s diagnostic, f s (.error diagnostic) = do
      modify fun session =>
        let session := recover (checkpoint s) session
        { session with errors := session.errors ++ [diagnostic] }
      g) :
    Within R (do f (← get) (← outcome x)) := by
  rintro s s' ⟨config, r, heffect⟩
  obtain ⟨⟨result, s₁⟩, hrun, hrest⟩ := Option.bind_eq_some_iff.mp heffect
  obtain ⟨⟨inner, s₂⟩, hx', hinner⟩ := Option.bind_eq_some_iff.mp hrun
  cases hinner
  cases inner with
  | ok a => exact trans_of R (hx s s₁ ⟨config, _, hx'⟩) (hok s a s₁ s' ⟨config, r, hrest⟩)
  | error diagnostic =>
    have hrest : ((f s (.error diagnostic)).run config).run s₁ = some (r, s') := hrest
    rw [herror] at hrest
    exact trans_of R (recover_within hx ⟨config, _, hx'⟩ diagnostic) (hg _ s' ⟨config, r, hrest⟩)

/-- The five mutually recursive functions with the same fuel. -/
private structure DeclWithin (R : Session → Session → Prop) (fuel : Nat) : Prop where
  decls : ∀ decls, Within R (elaborateDecls fuel decls)
  decl : ∀ decl, Within R (elaborateDecl fuel decl)
  str : ∀ name str, Within R (elaborateStr fuel name str)
  functor : ∀ span name param paramSig result body,
    Within R (elaborateFunctor fuel span name param paramSig result body)
  body : ∀ span name result body, Within R (functorBody fuel span name result body)

section Declarations

variable {fuel : Nat} (ih : DeclWithin R fuel)
include ih

private theorem elaborateDecls_succ (decls : List Surface.Decl) :
    Within R (elaborateDecls (fuel + 1) decls) := by
  unfold elaborateDecls
  refine .foldlM (fun block decl => ?_) decls Block.empty
  exact recovering_within (ih.decl decl) (fun _ _ => .bind get_within fun _ => .pure _)
    (poison_within block decl) fun _ _ => rfl

private theorem elaborateDecl_succ (decl : Surface.Decl) :
    Within R (elaborateDecl (fuel + 1) decl) := by
  obtain ⟨node, span⟩ := decl
  unfold elaborateDecl
  cases node with
  | con => exact declareCon_within _ _ _ _ _
  | «class» => exact declareClass_within _ _ _ _ _
  | val => exact declareVal_within _ _ _ _ _
  | functions => exact declareFunctions_within _ _
  | signature => exact declareSignature_within _ _ _
  | «structure» name sig body =>
    refine .bind beginGroup_within fun _ => .bind getGlobals_within fun globals => ?_
    refine .bind (ih.str name body) fun result => ?_
    cases sig with
    | some sig =>
      exact .bind (elaborateSignature_within fuel sig) fun _ =>
        .bind (sealModule_within _ _ _ _ _ _) fun _ =>
        .bind (bindName_within _ _ _) fun _ => .pure _
    | none =>
      exact .bind (.pure _) fun _ => .bind (bindName_within _ _ _) fun _ => .pure _
  | opened => exact openStructure_within _ _

private theorem elaborateStr_succ (name : String) (str : Surface.Str) :
    Within R (elaborateStr (fuel + 1) name str) := by
  obtain ⟨node, span⟩ := str
  unfold elaborateStr
  cases node with
  | struct decls =>
    exact .bind (qualify_within name) fun _ =>
      .bind (modify_within fun _ => rfl) fun _ =>
      .bind (inScope_within (ih.decls decls)) fun _ =>
      .bind (modify_within fun _ => rfl) fun _ =>
      .bind (addModule_within _) fun _ => .bind (declare_within _ _) fun _ => .pure _
  | path path => exact .bind (modulePath_within _ _) fun _ => .pure _
  | functor => exact ih.functor _ _ _ _ _ _
  | app path argument =>
    refine .bind (moduleOrFunctor_within _ _) fun functor => ?_
    refine .bind getGlobals_within fun globals => ?_
    split
    · refine .bind (aliasOf_within functor) fun id => ?_
      split
      · exact .bind (modulePath_within _ _) fun _ => .bind (.pure _) fun _ =>
          .bind (applyFunctor_within _ _ _ _ _ _ _ _) fun _ => .pure _
      · exact .bind (ih.str _ _) fun _ =>
          .bind (applyFunctor_within _ _ _ _ _ _ _ _) fun _ => .pure _
    · exact .pure _
    · exact fail_within _ _
  | «sealed» inner sig =>
    exact .bind getGlobals_within fun _ => .bind (ih.str name inner) fun _ =>
      .bind (elaborateSignature_within fuel sig) fun _ =>
      .bind (sealModule_within _ _ _ _ _ _) fun _ => .pure _

private theorem elaborateFunctor_succ (span : Span) (name param : String) (paramSig : Surface.Sig)
    (result : Option Surface.Sig) (body : Surface.Str) :
    Within R (elaborateFunctor (fuel + 1) span name param paramSig result body) := by
  unfold elaborateFunctor
  refine .bind (elaborateSignature_within fuel paramSig) fun paramSig => ?_
  refine .bind (addModule_within _) fun paramId => ?_
  refine .bind getGlobals_within fun _ => .bind getGlobals_within fun _ => ?_
  refine .bind get_within fun session => .bind (outcome_within ?_) fun inner => ?_
  · refine inScope_within (.bind (bindName_within _ _ _) fun _ => ?_)
    exact .bind (registerInstances_within fuel _ paramSig) fun _ =>
      .bind (modify_within fun _ => rfl) fun _ =>
      ensuring_within (ih.body span name result body) (modify_within fun _ => rfl)
  · refine .bind (retractInstances_within _) fun _ => ?_
    split
    · exact .bind (modify_within fun _ => rfl) fun _ => throw_within _
    · exact .bind get_within fun _ => .bind (qualify_within name) fun _ =>
        .bind (modify_within fun _ => rfl) fun _ =>
        .bind getGlobals_within fun _ =>
        .bind (addFunctor_within _ _ _ _) fun _ => .pure _

private theorem functorBody_succ (span : Span) (name : String) (result : Option Surface.Sig)
    (body : Surface.Str) : Within R (functorBody (fuel + 1) span name result body) := by
  unfold functorBody
  refine .bind (ih.str name body) fun inner => ?_
  cases result with
  | some result =>
    exact .bind (elaborateSignature_within fuel result) fun _ =>
      .bind (requireMatch_within _ _ _ _) fun _ => .pure _
  | none => exact .bind get_within fun _ => .pure _

end Declarations

private theorem decl_within (fuel : Nat) : DeclWithin R fuel := by
  induction fuel with
  | zero =>
    exact ⟨fun _ => noFuel_within, fun _ => noFuel_within, fun _ _ => noFuel_within,
      fun _ _ _ _ _ _ => noFuel_within, fun _ _ _ _ => noFuel_within⟩
  | succ fuel ih =>
    exact ⟨elaborateDecls_succ ih, elaborateDecl_succ ih, elaborateStr_succ ih,
      elaborateFunctor_succ ih, functorBody_succ ih⟩

theorem elaborateDecls_within (fuel : Nat) (decls : List Surface.Decl) :
    Within R (elaborateDecls fuel decls) :=
  (decl_within fuel).decls decls

end Revising

end Elaborate

/-- Whatever allows the steps of elaboration holds between the empty session and the end of a
program. -/
theorem elaborate_within {R : Session → Session → Prop} [Session.AllowsRevising R] {config : Config}
    {fuel : Nat} {decls : List Surface.Decl} {elaborated : Elaborated}
    (h : elaborate config fuel decls = some elaborated) :
    ∃ s, R Session.empty s ∧ elaborated.store = s.store ∧
      elaborated.globals = s.globals ∧ elaborated.errors = s.errors := by
  unfold elaborate at h
  split at h
  · cases h
  next result s hrun =>
    cases h
    exact ⟨s, Elaborate.elaborateDecls_within fuel decls _ _ ⟨config, result, hrun⟩, rfl, rfl, rfl⟩

theorem elaborate_reaches {config : Config} {fuel : Nat} {decls : List Surface.Decl}
    {elaborated : Elaborated} (h : elaborate config fuel decls = some elaborated) :
    ∃ s, Session.empty.Reaches s ∧ elaborated.store = s.store ∧
      elaborated.globals = s.globals ∧ elaborated.errors = s.errors :=
  elaborate_within h

end RowML
