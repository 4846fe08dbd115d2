import RowML.Elaboration.Program
import RowML.Proofs.Elaboration.Expression
import RowML.Proofs.Elaboration.Finish

/-!
# Steps of declarations

Registering structures and instances, matching and elaborating signatures and all definitions but
those of functions only add to the global table.  Whatever allows such additions, and the start of a
declaration where there is one, allows what these computations do.
-/

namespace RowML

namespace Elaborate

open Session (AllowsDeclaring AllowsRestarts)

section Declaring

variable {R : Session → Session → Prop} [AllowsDeclaring R] {α : Type}

/-! ## Changes of the session -/

theorem modifyGet_within {f : Session → α × Session} (hstore : ∀ s, (f s).2.store = s.store)
    (hqueue : ∀ s, (f s).2.queue = s.queue) (hscope : ∀ s, (f s).2.scope = s.scope)
    (hextends : ∀ s : Session, s.Extends (f s).2)
    (hkeeps : ∀ s : Session, s.KeepsIdentities (f s).2) :
    Within R (modifyGet f : ElaborateM α) := by
  rintro s s' ⟨config, r, heffect⟩
  cases heffect
  exact AllowsDeclaring.of_extends (hstore s) (hqueue s) (hscope s) (hextends s) (hkeeps s)

/-- A change of where elaboration is and of what it remembers of modules. -/
theorem modify_within {f : Session → Session}
    (h : ∀ s : Session, f s = { s with
      path := (f s).path
      level := (f s).level
      functorDepth := (f s).functorDepth
      declared := (f s).declared }) : Within R (modify f : ElaborateM PUnit) :=
  modifyGet_within (fun s => by rw [h s]) (fun s => by rw [h s]) (fun s => by rw [h s])
    (fun s => by
      rw [h s]
      exact .of_globals (.refl _) rfl rfl)
    fun s => by
      rw [h s]
      exact .of_eq rfl rfl rfl

theorem onGlobals_within {f : Globals → α × Globals}
    (hextends : ∀ globals : Globals, globals.Extends (f globals).2)
    (happlications : ∀ globals : Globals, (f globals).2.applications = globals.applications) :
    Within R (onGlobals f) :=
  modifyGet_within (fun _ => rfl) (fun _ => rfl) (fun _ => rfl)
    (fun s => .of_globals (hextends s.globals) rfl rfl)
    fun s => ⟨(hextends s.globals).modules, fun h => happlications s.globals ▸ h, rfl⟩

theorem addDefinition_within (name : String) (definition : Definition) (span : Span) :
    Within R (addDefinition name definition span) :=
  .bind (qualify_within name) fun _ => onGlobals_within (·.addDefinition_extends _) fun _ => rfl

theorem addModule_within (entry : ModuleEntry) : Within R (onGlobals (·.addModule entry)) :=
  onGlobals_within (·.addModule_extends entry) fun _ => rfl

theorem addSignature_within (entry : SignatureEntry) :
    Within R (onGlobals (·.addSignature entry)) :=
  onGlobals_within (·.addSignature_extends entry) fun _ => rfl

omit [AllowsDeclaring R] in
/-- What depends on the global table may use that it is the one of the session. -/
theorem readGlobals_within {f : Globals → ElaborateM α}
    (h : ∀ s s' : Session, Effect (f s.globals) s s' → R s s') : Within R (getGlobals >>= f) :=
  fun s s' heffect => h s s' heffect

/-- A functor is applied, and the table with the result is the new one. -/
theorem applyFunctor_then {s s' : Session} {functor argument id : ModuleId} {name : String}
    {globals : Globals} {x : ElaborateM α}
    (happly : s.globals.applyFunctor functor argument name = some (id, globals)) (hx : Within R x)
    (heffect : Effect (do modify fun session : Session => { session with globals }; x) s s') :
    R s s' := by
  have hextends := Globals.applyFunctor_extends happly
  have applied : R s { s with globals } :=
    AllowsDeclaring.of_extends rfl rfl rfl (.of_globals hextends rfl rfl)
      ⟨hextends.modules, (Globals.applyFunctor_applications happly).2, rfl⟩
  rcases effect_bind heffect with ⟨config, r, hmodify⟩ | ⟨_, s₁, ⟨config, r, hmodify⟩, hrest⟩
  · cases hmodify
    exact applied
  · cases hmodify
    exact trans_of R applied (hx _ s' hrest)

/-! ## Identities -/

theorem bindName_within (name : String) (sort : Namespace) (meaning : Meaning) :
    Within R (bindName name sort meaning) := by
  rintro s s' ⟨config, r, heffect⟩
  cases heffect
  exact AllowsDeclaring.of_naming s name sort meaning

theorem aliasOf_within (ref : ModuleRef) : Within R (aliasOf ref) :=
  fun _ _ => AllowsDeclaring.of_alias ref

theorem declare_within (id : ModuleId) (qualified : List String) :
    Within R (declare id qualified) :=
  modify_within fun _ => by split <;> rfl

theorem registerValue_within (fuel : Nat) (source : InstanceSource) (type : Con) :
    Within R (registerValue fuel source type) := by
  refine .bind getGlobals_within fun globals => ?_
  refine .bind (onStore_within (.isInstanceType globals fuel type)) fun isInstance => ?_
  split
  · exact onGlobals_within (·.addInstance_extends _) fun _ => rfl
  · exact .pure _

theorem registerMember_within (fuel : Nat) (ref : ModuleRef) (name : String) :
    Within R (registerMember fuel ref name) := by
  refine .bind getGlobals_within fun globals => ?_
  split
  · refine .bind (onStore_within (.isInstanceType globals fuel _)) fun isInstance => ?_
    split
    · split
      · exact .pure _
      · exact onGlobals_within (·.addInstance_extends _) fun _ => rfl
    · exact .pure _
  · exact .pure _

mutual
theorem registerInstances_within (fuel : Nat) (ref : ModuleRef) (sig : Signature) :
    Within R (registerInstances fuel ref sig) := by
  cases sig with
  | items entries => exact registerItems_within fuel ref entries
  | functor | error => exact .pure _
theorem registerItem_within (fuel : Nat) (ref : ModuleRef) (item : SignatureItem) :
    Within R (registerItem fuel ref item) := by
  cases item with
  | val name => exact registerMember_within fuel ref name
  | «structure» name sig => exact registerInstances_within fuel (ref.child name) sig
  | con | «class» | signature => exact .pure _
theorem registerItems_within (fuel : Nat) (ref : ModuleRef) (entries : List SignatureItem) :
    Within R (registerItems fuel ref entries) := by
  cases entries with
  | nil => exact .pure _
  | cons entry rest =>
    exact .bind (registerItem_within fuel ref entry) fun _ => registerItems_within fuel ref rest
end

/-! ## Matching -/

theorem matchCon_within (fuel : Nat) (span : Span) (actual : ModuleRef) (item : SignatureItem)
    (isClass : Bool) (kind : Kind) (definition : Option Con) :
    Within R (matchCon fuel span actual item isClass kind definition) := by
  unfold matchCon
  extract_lets mismatch found compare
  have hmismatch {α : Type} (m : ItemMismatch) : Within R (mismatch m : ElaborateM α) :=
    fail_within _ _
  have hcompare (shown : Kind × Bool) : Within R (compare shown) := by
    simp -zeta only [compare]
    extract_lets kinds
    have hkinds (sorted : Unit) : Within R (kinds sorted) := by
      refine .bind (onStore_within (.unifyKinds fuel kind _)) fun result => ?_
      split
      · exact hmismatch _
      · split
        · exact .pure _
        · refine .bind (outcome_within (unify_within fuel span _ _)) fun result => ?_
          split
          · exact .pure _
          · exact hmismatch _
    split
    · exact .bind (hmismatch _) hkinds
    · exact hkinds ()
  refine .bind getGlobals_within fun globals => ?_
  split
  · exact .bind (.pure _) hcompare
  · exact .bind (.pure _) hcompare
  · exact .bind (hmismatch _) hcompare

theorem matchVal_within (fuel : Nat) (span : Span) (actual : ModuleRef) (item : SignatureItem)
    (type : Con) : Within R (matchVal fuel span actual item type) := by
  refine .bind getGlobals_within fun globals => ?_
  split
  · refine .bind (outcome_within (unify_within fuel span _ _)) fun result => ?_
    split
    · exact .pure _
    · exact fail_within _ _
  · exact fail_within _ _

/-- The three mutually recursive functions with the same fuel. -/
private structure MatchWithin (R : Session → Session → Prop) (fuel : Nat) : Prop where
  signature : ∀ span actual expected, Within R (matchSignature fuel span actual expected)
  item : ∀ span actual item, Within R (matchItem fuel span actual item)
  functor : ∀ span actual param paramSig result foundParam,
    Within R (matchFunctor fuel span actual param paramSig result foundParam)

section Match

variable {fuel : Nat} (ih : MatchWithin R fuel)
include ih

private theorem matchSignature_succ (span : Span) (actual : ModuleRef) (expected : Signature) :
    Within R (matchSignature (fuel + 1) span actual expected) := by
  unfold matchSignature
  refine .bind getGlobals_within fun globals => ?_
  simp only
  split
  · exact fail_within _ _
  · exact .pure _
  · exact .pure _
  · split
    · exact .forM (fun item => ih.item _ _ _) _
    · exact .pure _
  · exact ih.functor _ _ _ _ _ _
  · exact fail_within _ _

private theorem matchItem_succ (span : Span) (actual : ModuleRef) (item : SignatureItem) :
    Within R (matchItem (fuel + 1) span actual item) := by
  unfold matchItem
  cases item with
  | con | «class» => exact matchCon_within _ _ _ _ _ _ _
  | val => exact matchVal_within _ _ _ _ _
  | «structure» name sig =>
    refine .bind getGlobals_within fun globals => ?_
    split
    · exact fail_within _ _
    · refine .bind (outcome_within (ih.signature _ _ _)) fun result => ?_
      split
      · exact .pure _
      · split
        · exact fail_within _ _
        · exact throw_within _
  | signature => exact .pure _

private theorem matchFunctor_succ (span : Span) (actual : ModuleRef) (param : String)
    (paramSig result foundParam : Signature) :
    Within R (matchFunctor (fuel + 1) span actual param paramSig result foundParam) := by
  unfold matchFunctor
  refine .bind (aliasOf_within actual) fun functor => .bind (addModule_within _) fun id => ?_
  refine .bind (ih.signature _ _ _) fun _ => .bind getGlobals_within fun globals => ?_
  refine readGlobals_within fun s s' => ?_
  split
  next => exact fail_within _ _ s s'
  next happly => exact applyFunctor_then happly (ih.signature _ _ _)

end Match

private theorem match_within (fuel : Nat) : MatchWithin R fuel := by
  induction fuel with
  | zero => exact ⟨fun _ _ _ => noFuel_within, fun _ _ _ => noFuel_within,
      fun _ _ _ _ _ _ => noFuel_within⟩
  | succ fuel ih => exact ⟨matchSignature_succ ih, matchItem_succ ih, matchFunctor_succ ih⟩

theorem requireMatch_within (fuel : Nat) (span : Span) (actual : ModuleRef) (expected : Signature) :
    Within R (requireMatch fuel span actual expected) :=
  .bind ((match_within fuel).signature span actual expected) fun _ => forceAll_within fuel

/-! ## Structures -/

theorem poisonVal_within (block : Block) (name : String) (span : Span) :
    Within R (poisonVal block name span) :=
  .bind (addDefinition_within _ _ _) fun _ => .bind (bindName_within _ _ _) fun _ => .pure _

theorem poison_within (block : Block) (decl : Surface.Decl) : Within R (poison block decl) := by
  obtain ⟨node, span⟩ := decl
  unfold poison
  cases node with
  | con | «class» =>
    exact .bind (addDefinition_within _ _ _) fun _ => .bind (bindName_within _ _ _) fun _ => .pure _
  | val => exact poisonVal_within _ _ _
  | functions group => exact .foldlM (fun _ _ => poisonVal_within _ _ _) group block
  | signature =>
    exact .bind (qualify_within _) fun _ => .bind (addSignature_within _) fun _ =>
      .bind (bindName_within _ _ _) fun _ => .pure _
  | «structure» =>
    exact .bind (qualify_within _) fun _ => .bind (addModule_within _) fun _ =>
      .bind (bindName_within _ _ _) fun _ => .pure _
  | opened => exact .pure _

theorem poisonVal_decls (block : Block) (name : String) (span : Span) :
    Returns (poisonVal block name span) fun poisoned => poisoned.decls = block.decls :=
  .after fun _ => .after fun _ => .pure rfl

/-- Nothing counts as declared by a declaration that failed. -/
theorem poison_decls (block : Block) (decl : Surface.Decl) :
    Returns (poison block decl) fun poisoned => poisoned.decls = block.decls := by
  obtain ⟨node, span⟩ := decl
  unfold poison
  cases node with
  | con | «class» => exact .after fun _ => .after fun _ => .pure rfl
  | val => exact poisonVal_decls _ _ _
  | functions group =>
    refine .foldlM (fun poisoned function hpoisoned => ?_) group rfl
    exact fun config s a s' hrun =>
      (poisonVal_decls poisoned _ _ config s a s' hrun).trans hpoisoned
  | signature | «structure» => exact .after fun _ => .after fun _ => .after fun _ => .pure rfl
  | opened => exact .pure rfl

theorem openStructure_within (span : Span) (path : List String) :
    Within R (openStructure span path) := by
  refine .bind (modulePath_within span path) fun ref => .bind getGlobals_within fun globals => ?_
  split
  · exact .bind (.forM (fun _ => bindName_within _ _ _) _) fun _ => .pure _
  · exact .bind (.pure _) fun _ => .pure _

theorem addFunctor_within (name param : String) (paramSig result : Signature) :
    Within R (addFunctor name param paramSig result) :=
  .bind (qualify_within name) fun _ => .bind (addModule_within _) fun _ =>
    .bind (declare_within _ _) fun _ => .pure _

theorem applyFunctor_within (fuel : Nat) (span argumentSpan : Span) (name : String)
    (path : List String) (functor : ModuleId) (paramSig : Signature) (argument : ModuleRef) :
    Within R (applyFunctor fuel span argumentSpan name path functor paramSig argument) := by
  refine .bind (requireMatch_within fuel _ _ _) fun _ => .bind (aliasOf_within argument) ?_
  refine fun argument => readGlobals_within fun s s' => ?_
  split
  next => exact fail_within _ _ s s'
  next happly =>
    exact applyFunctor_then happly <|
      .bind (qualify_within name) fun _ => .bind (declare_within _ _) fun _ =>
      .bind (registerInstances_within fuel _ _) fun _ => .pure _

end Declaring

section Restarting

variable {R : Session → Session → Prop} [AllowsRestarts R] {α : Type}

/-! ## Signatures -/

theorem beginGroup_within : Within R beginGroup := by
  rintro s s' ⟨config, r, heffect⟩
  cases heffect
  exact AllowsRestarts.of_restart s

theorem atNextLevel_within {x : ElaborateM α} (h : Within R x) : Within R (atNextLevel x) :=
  .bind (modify_within fun _ => rfl) fun _ => ensuring_within h (modify_within fun _ => rfl)

theorem elaborateKinded_within (fuel : Nat) (fallback : Kind) (kind : Option Surface.Kind)
    (definition : Option Surface.Con) :
    Within R (elaborateKinded fuel fallback kind definition) := by
  unfold elaborateKinded
  split
  · exact .bind (elaborateKind_within fuel _) fun _ =>
      .bind (checkCon_within fuel _ _) fun _ => .pure _
  · exact .bind (inferCon_within fuel _) fun _ => .pure _
  · exact .bind (elaborateKind_within fuel _) fun _ => .pure _
  · exact .pure _

theorem closeKinded_within (fuel : Nat) (span : Span) (kind : Kind) (definition : Option Con) :
    Within R (closeKinded fuel span kind definition) :=
  .bind (.mapM_option (closeCon_within fuel span) definition) fun _ =>
    .bind (closeKind_within fuel kind) fun _ => .pure _

theorem elaborateConItem_within (fuel : Nat) (span : Span) (fallback : Kind) (name : String)
    (kind : Option Surface.Kind) (definition : Option Surface.Con) :
    Within R (elaborateConItem fuel span fallback name kind definition) :=
  .bind beginGroup_within fun _ =>
    .bind (elaborateKinded_within fuel fallback kind definition) fun _ =>
    .bind (closeKinded_within fuel span _ _) fun _ => .bind get_within fun _ =>
    .bind (bindName_within _ _ _) fun _ => .pure _

theorem moduleSignatureItem_within (span : Span) (ref : ModuleRef) (name : String) :
    Within R (moduleSignatureItem span ref name) := by
  refine .bind getGlobals_within fun globals => ?_
  split
  · exact fail_within _ _
  · exact .pure _
  · split
    · exact .pure _
    · exact fail_within _ _

theorem namedSignature_within (span : Span) (modules : List String) (name : String) :
    Within R (namedSignature span modules name) := by
  cases modules with
  | nil =>
    refine .bind (meaning_within name .signature) fun meaning => ?_
    split
    · exact .bind getGlobals_within fun _ => .pure _
    · exact moduleSignatureItem_within _ _ _
    · exact fail_within _ _
  | cons => exact .bind (modulePath_within _ _) fun _ => moduleSignatureItem_within _ _ _

theorem whereCon_within (fuel : Nat) (span : Span) (sig : Signature) (path : List String)
    (con : Surface.Con) : Within R (whereCon fuel span sig path con) := by
  unfold whereCon
  split
  · exact fail_within _ _
  · extract_lets nested replace
    have hreplace (kind : Kind) (existing : Option Con) : Within R (replace kind existing) := by
      refine .bind beginGroup_within fun _ => .bind (checkCon_within fuel con kind) ?_
      refine fun con => .bind (closeCon_within fuel span con) fun con => ?_
      split
      · exact .bind (unify_within fuel span _ _) fun _ => .pure _
      · exact .pure _
    refine .bind (nestedSignature_within span sig nested) fun target => ?_
    split
    · exact .pure _
    · split
      · exact hreplace _ _
      · exact hreplace _ _
      · exact fail_within _ _

/-- The three mutually recursive functions with the same fuel. -/
private structure SigWithin (R : Session → Session → Prop) (fuel : Nat) : Prop where
  below : ∀ sig, Within R (elaborateSignature fuel sig)
  here : ∀ sig, Within R (signatureHere fuel sig)
  item : ∀ item, Within R (elaborateItem fuel item)

section Signatures

variable {fuel : Nat} (ih : SigWithin R fuel)
include ih

private theorem signatureHere_succ (sig : Surface.Sig) :
    Within R (signatureHere (fuel + 1) sig) := by
  obtain ⟨node, span⟩ := sig
  unfold signatureHere
  cases node with
  | items entries => exact .bind (.mapM ih.item entries) fun _ => .pure _
  | path modules name => exact (namedSignature_within _ _ _)
  | functor param paramSig result =>
    exact .bind (ih.below paramSig) fun _ => .bind get_within fun _ =>
      .bind (bindName_within _ _ _) fun _ =>
      .bind (atNextLevel_within (ih.below result)) fun _ => .pure _
  | whereCon inner path con =>
    exact .bind (inScope_within (ih.here inner)) fun _ => whereCon_within _ _ _ _ _

private theorem elaborateItem_succ (item : Surface.SigItem) :
    Within R (elaborateItem (fuel + 1) item) := by
  obtain ⟨node, span⟩ := item
  unfold elaborateItem
  cases node with
  | con | «class» => exact .bind (elaborateConItem_within _ _ _ _ _ _) fun _ => .pure _
  | val name type =>
    exact .bind beginGroup_within fun _ => .bind (checkCon_within fuel type _) fun _ =>
      .bind (closeCon_within fuel span _) fun _ => .pure _
  | «structure» name sig =>
    exact .bind (ih.below sig) fun _ => .bind get_within fun _ =>
      .bind (bindName_within _ _ _) fun _ => .pure _

end Signatures

private theorem signature_within (fuel : Nat) : SigWithin R fuel := by
  induction fuel with
  | zero => exact ⟨fun _ => noFuel_within, fun _ => noFuel_within, fun _ => noFuel_within⟩
  | succ fuel ih =>
    exact ⟨fun sig => atNextLevel_within (inScope_within (ih.here sig)),
      signatureHere_succ ih, elaborateItem_succ ih⟩

theorem elaborateSignature_within (fuel : Nat) (sig : Surface.Sig) :
    Within R (elaborateSignature fuel sig) :=
  (signature_within fuel).below sig

/-! ## Definitions -/

theorem declareCon_within (fuel : Nat) (span : Span) (name : String) (kind : Option Surface.Kind)
    (definition : Surface.Con) : Within R (declareCon fuel span name kind definition) := by
  refine .bind beginGroup_within fun _ => ?_
  extract_lets rest
  have hrest (found : Con × Kind) : Within R (rest found) :=
    .bind (closeCon_within fuel span _) fun _ => .bind (closeKind_within fuel _) fun _ =>
      .bind (addDefinition_within _ _ _) fun _ => .bind (bindName_within _ _ _) fun _ => .pure _
  cases kind with
  | some kind =>
    exact .bind (elaborateKind_within fuel kind) fun _ =>
      .bind (checkCon_within fuel definition _) fun _ => .bind (.pure _) hrest
  | none => exact .bind (inferCon_within fuel definition) hrest

theorem declareClass_within (fuel : Nat) (span : Span) (name : String)
    (kind : Option Surface.Kind) (definition : Option Surface.Con) :
    Within R (declareClass fuel span name kind definition) :=
  .bind beginGroup_within fun _ =>
    .bind (elaborateKinded_within fuel _ kind definition) fun _ =>
    .bind (closeKinded_within fuel span _ _) fun _ => .bind (addDefinition_within _ _ _) fun _ =>
    .bind (bindName_within _ _ _) fun _ => .pure _

theorem declareVal_within (fuel : Nat) (span : Span) (name : String) (type : Option Surface.Con)
    (body : Surface.Expr) : Within R (declareVal fuel span name type body) := by
  refine .bind beginGroup_within fun _ => ?_
  refine .bind (checkTypeOption_within fuel type) fun type => ?_
  refine .bind (checkExpr_within fuel body type) fun body => ?_
  refine .bind (finishGroup_within fuel _) fun finished => ?_
  split
  · exact .bind (addDefinition_within _ _ _) fun _ => .bind (bindName_within _ _ _) fun _ =>
      .bind (registerValue_within fuel _ _) fun _ => .pure _
  · exact fail_within _ _

theorem declareSignature_within (fuel : Nat) (name : String) (sig : Surface.Sig) :
    Within R (declareSignature fuel name sig) :=
  .bind beginGroup_within fun _ => .bind (elaborateSignature_within fuel sig) fun _ =>
    .bind (qualify_within name) fun _ => .bind (addSignature_within _) fun _ =>
    .bind (bindName_within _ _ _) fun _ => .pure _

end Restarting

end Elaborate

end RowML
