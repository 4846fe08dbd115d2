import RowML.Proofs.Elaboration.Program

/-!
# What is finished stays as it is

Two operations of elaboration do more than add to what there is: the definitions of a group of
functions get their final types, or become poison if the group fails, and the instances of a sealed
structure or of a functor body are retracted.  Both only reach what the current declaration has
made.  The main statement, `elaborate_append`, is that declarations which follow others leave the
results of these in place: the declarations, the errors and all that is in the global table.
-/

namespace RowML

namespace Session

/-- `s` has everything that `s₀` has in its global table and its errors, and only younger
definitions have types that are not final. -/
structure Retains (s₀ s : Session) : Prop where
  globals : s₀.globals.Extends s.globals
  errors : s₀.errors <+: s.errors
  younger : ∀ id ∈ s.provisional, s₀.globals.definitions.size ≤ id

/-- Every definition has its final type. -/
def Settled (s : Session) : Prop := s.provisional = []

theorem Settled.retains {s : Session} (h : s.Settled) : s.Retains s where
  globals := .refl _
  errors := List.prefix_rfl
  younger := by simp [show s.provisional = [] from h]

theorem Retains.extend {s₀ s s' : Session} (h : s₀.Retains s) (h' : s.Extends s') :
    s₀.Retains s' where
  globals := h.globals.trans h'.globals
  errors := h.errors.trans h'.errors
  younger := h'.provisional ▸ h.younger

end Session

namespace Elaborate

open Session (Retains Settled Extends)

variable {s₀ : Session} {α β : Type}

/-- From every session that retains what `s₀` has and satisfies `Pre`, the computation leads to one
that does, and to one that satisfies `Post` if it succeeds. -/
def Keeps (s₀ : Session) (Pre : Session → Prop) (x : ElaborateM α) (Post : α → Session → Prop) :
    Prop :=
  ∀ config s result s', (x.run config).run s = some (result, s') → s₀.Retains s → Pre s →
    s₀.Retains s' ∧ ∀ a, result = .ok a → Post a s'

namespace Keeps

variable {Pre : Session → Prop} {x : ElaborateM α} {f : α → ElaborateM β}
  {Q : α → Session → Prop} {Post : β → Session → Prop}

theorem pure {a : α} (h : ∀ s, Pre s → Q a s) : Keeps s₀ Pre (Pure.pure a) Q := by
  rintro config s result s' ⟨⟩ ok hpre
  refine ⟨ok, ?_⟩
  rintro _ ⟨⟩
  exact h s hpre

theorem bind (hx : Keeps s₀ Pre x Q) (hf : ∀ a, Keeps s₀ (Q a) (f a) Post) :
    Keeps s₀ Pre (x >>= f) Post := by
  intro config s result s'' hrun ok hpre
  obtain ⟨⟨first, s'⟩, hx', hf'⟩ :=
    Option.bind_eq_some_iff.mp (show Option.bind ((x.run config).run s) _ = _ from hrun)
  obtain ⟨ok', hmid⟩ := hx config s first s' hx' ok hpre
  cases first with
  | ok a => exact hf a config s' result s'' hf' ok' (hmid a rfl)
  | error diagnostic =>
    cases hf'
    refine ⟨ok', ?_⟩
    rintro _ ⟨⟩

/-- What only adds undoes nothing. -/
theorem of_extends (h : Within Extends x) (hpost : ∀ a {s s'}, s.Extends s' → Pre s → Q a s') :
    Keeps s₀ Pre x Q := by
  intro config s result s' hrun ok hpre
  have extended : s.Extends s' := h s s' ⟨config, result, hrun⟩
  exact ⟨ok.extend extended, fun a _ => hpost a extended hpre⟩

theorem throw (diagnostic : Diagnostic) : Keeps s₀ Pre (throw diagnostic) Q := by
  rintro config s result s' ⟨⟩ ok hpre
  refine ⟨ok, ?_⟩
  rintro _ ⟨⟩

/-- What follows the outcome of a computation knows the state only if the computation succeeded. -/
theorem outcome_bind {f : Except Diagnostic α → ElaborateM β} (hx : Keeps s₀ Pre x Q)
    (hok : ∀ a, Keeps s₀ (Q a) (f (.ok a)) Post)
    (herror : ∀ diagnostic, Keeps s₀ (fun _ => True) (f (.error diagnostic)) Post) :
    Keeps s₀ Pre (outcome x >>= f) Post := by
  intro config s result s'' hrun ok hpre
  obtain ⟨⟨first, s'⟩, hx', hf'⟩ :=
    Option.bind_eq_some_iff.mp (show Option.bind (((outcome x).run config).run s) _ = _ from hrun)
  obtain ⟨⟨inner, s₁⟩, hrun', ht⟩ := Option.bind_eq_some_iff.mp hx'
  cases ht
  obtain ⟨ok', hmid⟩ := hx config s inner s' hrun' ok hpre
  cases inner with
  | ok a => exact hok a config s' result s'' hf' ok' (hmid a rfl)
  | error diagnostic => exact herror diagnostic config s' result s'' hf' ok' trivial

theorem ensuring {after : ElaborateM Unit} (hx : Keeps s₀ Pre x Q)
    (hafter : Within Extends after) (hpost : ∀ a {s s'}, s.Extends s' → Q a s → Q a s') :
    Keeps s₀ Pre (Elaborate.ensuring x after) Q :=
  .outcome_bind hx
    (fun a => .bind (.of_extends hafter fun _ {_ _} => hpost a) fun _ => .pure fun _ h => h)
    fun diagnostic => .bind (.of_extends hafter fun _ {_ _} _ h => h) fun _ => .throw diagnostic

/-- What depends on the session may use that it retains what `s₀` has. -/
theorem read {f : Session → ElaborateM β}
    (hf : ∀ s, s₀.Retains s → Keeps s₀ (fun t => Pre t) (f s) Post) :
    Keeps s₀ Pre (get >>= f) Post :=
  fun config s result s' hrun ok hpre => hf s ok config s result s' hrun ok hpre

theorem modify {f : Session → Session} {Post : PUnit → Session → Prop}
    (h : ∀ s, s₀.Retains s → Pre s → s₀.Retains (f s) ∧ Post () (f s)) :
    Keeps s₀ Pre (modify f) Post := by
  rintro config s result s' ⟨⟩ ok hpre
  obtain ⟨ok', hpost⟩ := h s ok hpre
  refine ⟨ok', ?_⟩
  rintro _ ⟨⟩
  exact hpost

theorem mono {Q' : α → Session → Prop} (hx : Keeps s₀ Pre x Q)
    (h : ∀ a s, Q a s → Q' a s) : Keeps s₀ Pre x Q' := by
  intro config s result s' hrun ok hpre
  obtain ⟨ok', hmid⟩ := hx config s result s' hrun ok hpre
  exact ⟨ok', fun a ha => h a s' (hmid a ha)⟩

theorem returning {P : α → Prop} (hx : Keeps s₀ Pre x Q) (hP : Returns x P) :
    Keeps s₀ Pre x fun a s => Q a s ∧ P a := by
  intro config s result s' hrun ok hpre
  obtain ⟨ok', hmid⟩ := hx config s result s' hrun ok hpre
  refine ⟨ok', ?_⟩
  rintro a rfl
  exact ⟨hmid a rfl, hP config s a s' hrun⟩

/-- What is known of an earlier result. -/
theorem assuming {p : Prop} (h : p → Keeps s₀ Pre x Q) :
    Keeps s₀ (fun s => Pre s ∧ p) x Q :=
  fun config s result s' hrun ok hpre => h hpre.2 config s result s' hrun ok hpre.1

theorem mapM {f : α → ElaborateM β} {P : β → Prop} {as : List α}
    (h : ∀ a ∈ as, Keeps s₀ Pre (f a) fun b s => Pre s ∧ P b) :
    Keeps s₀ Pre (as.mapM f) fun bs s => Pre s ∧ ∀ b ∈ bs, P b := by
  induction as with
  | nil => exact pure fun s hs => ⟨hs, by simp⟩
  | cons a as ih =>
    rw [List.mapM_cons]
    refine bind (h a (by simp)) fun b => assuming fun hb => ?_
    refine bind (ih fun a ha => h a (by simp [ha])) fun bs => assuming fun hbs => ?_
    exact pure fun s hs => ⟨hs, List.forall_mem_cons.mpr ⟨hb, hbs⟩⟩

theorem foldlM {f : β → α → ElaborateM β} {I : β → Session → Prop}
    (h : ∀ b a, Keeps s₀ (I b) (f b a) I) (as : List α) (b : β) :
    Keeps s₀ (I b) (as.foldlM f b) I := by
  induction as generalizing b with
  | nil => exact pure fun _ h => h
  | cons a as ih => exact bind (h b a) ih

end Keeps

/-- A computation that only adds, between sessions without provisional definitions. -/
theorem settled_of_extends {x : ElaborateM α} (h : Within Extends x) :
    Keeps s₀ Settled x fun _ => Settled :=
  .of_extends h fun _ {_ _} extended hs => extended.provisional.trans hs

theorem ensuring_keeps {x : ElaborateM α} {after : ElaborateM Unit}
    (hx : Keeps s₀ Settled x fun _ => Settled) (hafter : Within Extends after) :
    Keeps s₀ Settled (ensuring x after) fun _ => Settled :=
  .ensuring hx hafter fun _ {_ _} extended hs => extended.provisional.trans hs

theorem inScope_keeps {x : ElaborateM α} (hx : Keeps s₀ Settled x fun _ => Settled) :
    Keeps s₀ Settled (inScope x) fun _ => Settled := by
  refine .read fun _ _ => ensuring_keeps hx ?_
  rintro s s' ⟨config, r, heffect⟩
  cases heffect
  exact .of_globals (.refl _) rfl rfl

/-! ## Groups of functions -/

theorem addDefinition_keeps (name : String) (definition : Definition) (span : Span) :
    Keeps s₀ (fun _ => True) (addDefinition name definition span)
      fun id _ => True ∧ s₀.globals.definitions.size ≤ id := by
  rintro config s result s' ⟨⟩ ok -
  refine ⟨ok.extend (.of_globals (s.globals.addDefinition_extends _) rfl rfl), ?_⟩
  rintro _ ⟨⟩
  simpa using ok.globals.definitions.length_le

theorem declareProvisionally_keeps (function : Surface.Function) (header : Header) :
    Keeps s₀ (fun _ => True) (declareProvisionally function header)
      fun id _ => True ∧ s₀.globals.definitions.size ≤ id := by
  refine .bind (addDefinition_keeps _ _ _) fun id => .assuming fun hid => ?_
  refine .bind (Q := fun _ _ => True)
    (.modify fun s ok _ => ⟨⟨ok.globals, ok.errors, ?_⟩, trivial⟩) ?_
  · simpa [or_imp, forall_and] using ⟨ok.younger, hid⟩
  · exact fun _ => .bind (Q := fun _ _ => True) (.of_extends (bindName_within _ _ _)
      fun _ {_ _} _ h => h) fun _ => .pure fun _ h => ⟨h, hid⟩

theorem settleProvisional_keeps (fuel : Nat) {id : DefId} (member : Member)
    (hid : s₀.globals.definitions.size ≤ id) :
    Keeps s₀ Settled (settleProvisional fuel id member) fun _ s => s.Settled ∧ True := by
  refine .bind (Q := fun _ => Settled) (.modify fun s ok hs => ?_) fun _ =>
    .bind (settled_of_extends (registerValue_within fuel _ _)) fun _ =>
      .pure fun _ h => ⟨h, trivial⟩
  exact ⟨⟨ok.globals.setDefinition hid _, ok.errors, ok.younger⟩, hs⟩

theorem declareFunctions_keeps (fuel : Nat) (group : List Surface.Function) :
    Keeps s₀ Settled (declareFunctions fuel group) fun _ => Settled := by
  have anywhere {γ : Type} {x : ElaborateM γ} {Pre : Session → Prop} (h : Within Extends x) :
      Keeps s₀ Pre x fun _ _ => True := .of_extends h fun _ {_ _} _ _ => trivial
  refine .bind (anywhere beginGroup_within) fun _ => ?_
  refine .bind (anywhere (.mapM (elaborateHeader_within fuel) group)) fun headers => ?_
  refine .bind (.mapM fun _ _ => declareProvisionally_keeps _ _) fun ids => .assuming fun hids => ?_
  refine .bind (anywhere (.mapM (fun _ => ?_) _)) fun members => ?_
  · exact .bind (elaborateBody_within fuel _ _) fun _ => .pure _
  refine .bind (anywhere (finishGroup_within fuel members)) fun finished => ?_
  refine .bind (Q := fun _ => Settled) (.modify fun s ok _ => ?_) fun _ => ?_
  · exact ⟨⟨ok.globals, ok.errors, by simp⟩, rfl⟩
  · refine .bind (.mapM (P := fun _ => True) fun settled hsettled => ?_) fun _ =>
      .pure fun _ h => h.1
    exact settleProvisional_keeps fuel _ (hids _ (List.of_mem_zip hsettled).1)

/-! ## Structures -/

theorem retractInstances_keeps {Pre : Session → Prop} {Post : Unit → Session → Prop} {count : Nat}
    (hcount : s₀.globals.instances.size ≤ count)
    (hpost : ∀ s, Pre s → Post () { s with globals := s.globals.retractInstances count }) :
    Keeps s₀ Pre (retractInstances count) Post :=
  .modify fun s ok hs =>
    ⟨⟨ok.globals.retractInstances hcount, ok.errors, ok.younger⟩, hpost s hs⟩

theorem sealModule_keeps (fuel : Nat) (span : Span) (name : String) (inner : ModuleRef)
    (sig : Signature) {instances : Nat} (hcount : s₀.globals.instances.size ≤ instances) :
    Keeps s₀ Settled (sealModule fuel span name inner sig instances) fun _ => Settled :=
  .bind (settled_of_extends (requireMatch_within fuel span inner sig)) fun _ =>
    .bind (Q := fun _ => Settled) (retractInstances_keeps hcount fun _ h => h) fun _ =>
    settled_of_extends <|
    .bind (qualify_within name) fun _ => .bind (addModule_within _) fun _ =>
    .bind (declare_within _ _) fun _ => .bind (registerInstances_within fuel _ sig) fun _ => .pure _

/-- Giving up a declaration makes its provisional definitions poison and no others. -/
theorem recover_keeps (start : Checkpoint) (diagnostic : Diagnostic) :
    Keeps s₀ (fun _ => True) (modify fun session =>
      let session := recover start session
      { session with errors := session.errors ++ [diagnostic] }) fun _ => Settled := by
  refine .modify fun s ok _ =>
    ⟨⟨?_, ok.errors.trans (List.prefix_append _ _), by simp [recover]⟩, rfl⟩
  exact ok.globals.setDefinitions ok.younger _

theorem poison_keeps (block : Block) (decl : Surface.Decl) :
    Keeps s₀ Settled (poison block decl)
      fun poisoned s => s.Settled ∧ poisoned.decls = block.decls :=
  (settled_of_extends (poison_within block decl)).returning (poison_decls block decl)

theorem exportDecl_decls (s : Session) (block : Block) (decl : Declaration) :
    (exportDecl s block decl).decls = block.decls ++ [decl] := by
  cases decl with
  | con | «class» | val | signature | opened => rfl
  | functions group =>
    exact List.foldlRecOn (motive := fun later : Block => later.decls = block.decls ++ [_])
      group _ rfl fun _ h _ _ => h
  | «structure» x ref decls =>
    unfold exportDecl
    simp only
    split <;> rfl

/-! ## Declarations in order -/

/-- Elaborates a declaration after those that `block` holds. -/
def addDeclaration (fuel : Nat) (block : Block) (decl : Surface.Decl) : ElaborateM Block := do
  let start := checkpoint (← get)
  match ← outcome (elaborateDecl fuel decl) with
  | .ok declared => return exportDecl (← get) block declared
  | .error diagnostic =>
    modify fun session =>
      let session := recover start session
      { session with errors := session.errors ++ [diagnostic] }
    poison block decl

theorem elaborateDecls_eq (fuel : Nat) (decls : List Surface.Decl) :
    elaborateDecls (fuel + 1) decls = decls.foldlM (addDeclaration fuel) Block.empty := by
  rw [elaborateDecls]
  rfl

/-! ## Failures of declarations -/

/-- The computation does not fail. -/
def Succeeds (x : ElaborateM α) : Prop :=
  ∀ config s result s', (x.run config).run s = some (result, s') → ∃ a, result = .ok a

namespace Succeeds

theorem pure (a : α) : Succeeds (Pure.pure a) := by
  rintro config s result s' ⟨⟩
  exact ⟨a, rfl⟩

theorem modifyGet (f : Session → α × Session) : Succeeds (modifyGet f) := by
  rintro config s result s' ⟨⟩
  exact ⟨_, rfl⟩

theorem bind {x : ElaborateM α} {f : α → ElaborateM β} (hx : Succeeds x)
    (hf : ∀ a, Succeeds (f a)) : Succeeds (x >>= f) := by
  intro config s result s'' hrun
  obtain ⟨⟨first, s'⟩, hx', hf'⟩ :=
    Option.bind_eq_some_iff.mp (show Option.bind ((x.run config).run s) _ = _ from hrun)
  obtain ⟨a, rfl⟩ := hx config s first s' hx'
  exact hf a config s' result s'' hf'

theorem outcome (x : ElaborateM α) : Succeeds (outcome x) := by
  intro config s result s' hrun
  obtain ⟨⟨inner, s₁⟩, -, h⟩ := Option.bind_eq_some_iff.mp hrun
  cases h
  exact ⟨inner, rfl⟩

theorem foldlM {f : β → α → ElaborateM β} (h : ∀ b a, Succeeds (f b a)) (as : List α) (b : β) :
    Succeeds (as.foldlM f b) := by
  induction as generalizing b with
  | nil => exact pure b
  | cons a as ih => exact bind (h b a) ih

end Succeeds

theorem addDefinition_succeeds (name : String) (definition : Definition) (span : Span) :
    Succeeds (addDefinition name definition span) :=
  .bind (.bind (.modifyGet _) fun _ => .pure _) fun _ => .modifyGet _

theorem poisonVal_succeeds (block : Block) (name : String) (span : Span) :
    Succeeds (poisonVal block name span) :=
  .bind (addDefinition_succeeds _ _ _) fun _ => .bind (.modifyGet _) fun _ => .pure _

theorem poison_succeeds (block : Block) (decl : Surface.Decl) : Succeeds (poison block decl) := by
  obtain ⟨node, span⟩ := decl
  unfold poison
  cases node with
  | con | «class» =>
    exact .bind (addDefinition_succeeds _ _ _) fun _ => .bind (.modifyGet _) fun _ => .pure _
  | val => exact poisonVal_succeeds _ _ _
  | functions group => exact .foldlM (fun _ _ => poisonVal_succeeds _ _ _) group block
  | signature | «structure» =>
    exact .bind (.bind (.modifyGet _) fun _ => .pure _) fun _ => .bind (.modifyGet _) fun _ =>
      .bind (.modifyGet _) fun _ => .pure _
  | opened => exact .pure _

/-- The failure of a declaration is recorded and does not end the elaboration. -/
theorem addDeclaration_succeeds (fuel : Nat) (block : Block) (decl : Surface.Decl) :
    Succeeds (addDeclaration fuel block decl) := by
  refine .bind (.modifyGet _) fun _ => .bind (.outcome _) fun result => ?_
  cases result with
  | ok declared => exact .bind (.modifyGet _) fun _ => .pure _
  | error diagnostic => exact .bind (.modifyGet _) fun _ => poison_succeeds block decl

/-- What the declarations of a structure keep to, together with what has been gathered of them. -/
def Gathers (first block : Block) (s : Session) : Prop := s.Settled ∧ first.decls <+: block.decls

theorem addDeclaration_keeps {fuel : Nat} {decl : Surface.Decl}
    (h : Keeps s₀ Settled (elaborateDecl fuel decl) fun _ => Settled) (first block : Block) :
    Keeps s₀ (Gathers first block) (addDeclaration fuel block decl) (Gathers first) := by
  refine .assuming fun hfirst => .read fun s ok => .outcome_bind h (fun declared => ?_) ?_
  · refine .read fun s' ok' => .pure fun t ht => ⟨ht, ?_⟩
    rw [exportDecl_decls]
    exact hfirst.trans (List.prefix_append _ _)
  · refine fun diagnostic => .bind (recover_keeps _ diagnostic) fun _ => ?_
    exact (poison_keeps block decl).mono fun _ _ h => ⟨h.1, h.2 ▸ hfirst⟩

/-- The five mutually recursive functions with the same fuel. -/
private structure DeclKeeps (s₀ : Session) (fuel : Nat) : Prop where
  decls : ∀ decls, Keeps s₀ Settled (elaborateDecls fuel decls) fun _ => Settled
  decl : ∀ decl, Keeps s₀ Settled (elaborateDecl fuel decl) fun _ => Settled
  str : ∀ name str, Keeps s₀ Settled (elaborateStr fuel name str) fun _ => Settled
  functor : ∀ span name param paramSig result body,
    Keeps s₀ Settled (elaborateFunctor fuel span name param paramSig result body) fun _ => Settled
  body : ∀ span name result body,
    Keeps s₀ Settled (functorBody fuel span name result body) fun _ => Settled

section Declarations

variable {fuel : Nat} (ih : DeclKeeps s₀ fuel)
include ih

private theorem elaborateDecls_keeps (decls : List Surface.Decl) :
    Keeps s₀ Settled (elaborateDecls (fuel + 1) decls) fun _ => Settled := by
  rw [elaborateDecls_eq]
  intro config s result s' hrun ok hs
  have hfold := Keeps.foldlM (I := Gathers Block.empty)
    (fun block decl => addDeclaration_keeps (ih.decl decl) Block.empty block) decls Block.empty
  exact (hfold.mono fun _ _ h => h.1) config s result s' hrun ok ⟨hs, List.prefix_rfl⟩

private theorem elaborateDecl_keeps (decl : Surface.Decl) :
    Keeps s₀ Settled (elaborateDecl (fuel + 1) decl) fun _ => Settled := by
  obtain ⟨node, span⟩ := decl
  unfold elaborateDecl
  cases node with
  | con => exact settled_of_extends (declareCon_within _ _ _ _ _)
  | «class» => exact settled_of_extends (declareClass_within _ _ _ _ _)
  | val => exact settled_of_extends (declareVal_within _ _ _ _ _)
  | functions => exact declareFunctions_keeps _ _
  | signature => exact settled_of_extends (declareSignature_within _ _ _)
  | «structure» name sig body =>
    refine .bind (settled_of_extends beginGroup_within) fun _ => .read fun s ok => ?_
    refine .bind (ih.str name body) fun result => ?_
    cases sig with
    | some sig =>
      exact .bind (settled_of_extends (elaborateSignature_within fuel sig)) fun _ =>
        .bind (sealModule_keeps _ _ _ _ _ (by simpa using ok.globals.instances.length_le)) fun _ =>
        .bind (settled_of_extends (bindName_within _ _ _)) fun _ => .pure fun _ h => h
    | none =>
      exact .bind (.pure fun _ h => h) fun _ =>
        .bind (settled_of_extends (bindName_within _ _ _)) fun _ => .pure fun _ h => h
  | opened => exact settled_of_extends (openStructure_within _ _)

private theorem elaborateStr_keeps (name : String) (str : Surface.Str) :
    Keeps s₀ Settled (elaborateStr (fuel + 1) name str) fun _ => Settled := by
  obtain ⟨node, span⟩ := str
  unfold elaborateStr
  cases node with
  | struct decls =>
    refine .bind (settled_of_extends (qualify_within name)) fun _ => ?_
    refine .bind (settled_of_extends (modify_within fun _ => rfl)) fun _ => ?_
    refine .bind (inScope_keeps (ih.decls decls)) fun _ => ?_
    exact settled_of_extends <| .bind (modify_within fun _ => rfl) fun _ =>
      .bind (addModule_within _) fun _ => .bind (declare_within _ _) fun _ => .pure _
  | path path => exact settled_of_extends (.bind (modulePath_within _ _) fun _ => .pure _)
  | functor => exact ih.functor _ _ _ _ _ _
  | app path argument =>
    refine .bind (settled_of_extends (moduleOrFunctor_within _ _)) fun functor =>
      .read fun s _ => ?_
    change Keeps s₀ Settled _ _
    split
    · refine .bind (settled_of_extends (aliasOf_within functor)) fun id => ?_
      split
      · exact settled_of_extends <| .bind (modulePath_within _ _) fun _ => .bind (.pure _) fun _ =>
          .bind (applyFunctor_within _ _ _ _ _ _ _ _) fun _ => .pure _
      · exact .bind (ih.str _ _) fun _ => settled_of_extends <|
          .bind (applyFunctor_within _ _ _ _ _ _ _ _) fun _ => .pure _
    · exact .pure fun _ h => h
    · exact settled_of_extends (fail_within _ _)
  | «sealed» inner sig =>
    exact .read fun s ok => .bind (ih.str name inner) fun _ =>
      .bind (settled_of_extends (elaborateSignature_within fuel sig)) fun _ =>
      .bind (sealModule_keeps _ _ _ _ _ (by simpa using ok.globals.instances.length_le)) fun _ =>
      .pure fun _ h => h

private theorem elaborateFunctor_keeps (span : Span) (name param : String) (paramSig : Surface.Sig)
    (result : Option Surface.Sig) (body : Surface.Str) :
    Keeps s₀ Settled (elaborateFunctor (fuel + 1) span name param paramSig result body)
      fun _ => Settled := by
  unfold elaborateFunctor
  refine .bind (settled_of_extends (elaborateSignature_within fuel paramSig)) fun paramSig => ?_
  refine .bind (settled_of_extends (addModule_within _)) fun paramId => ?_
  refine .read fun s ok => .read fun _ _ => .read fun _ _ => ?_
  have hcount : s₀.globals.instances.size ≤ s.globals.instances.size := by
    simpa using ok.globals.instances.length_le
  refine .outcome_bind (inScope_keeps ?_) (fun result => ?_) fun diagnostic => ?_
  · refine .bind (settled_of_extends (bindName_within _ _ _)) fun _ => ?_
    refine .bind (settled_of_extends (registerInstances_within fuel _ paramSig)) fun _ => ?_
    refine .bind (settled_of_extends (modify_within fun _ => rfl)) fun _ => ?_
    exact ensuring_keeps (ih.body span name result body) (modify_within fun _ => rfl)
  · refine .bind (Q := fun _ => Settled) (retractInstances_keeps hcount fun _ h => h) fun _ => ?_
    exact .read fun s' _ => settled_of_extends <| .bind (qualify_within name) fun _ =>
      .bind (modify_within fun _ => rfl) fun _ => .bind getGlobals_within fun _ =>
      .bind (addFunctor_within _ _ _ _) fun _ => .pure _
  · refine .bind (Q := fun _ _ => True) (retractInstances_keeps hcount fun _ h => h) fun _ => ?_
    exact .bind (Q := fun _ _ => True)
      (.of_extends (modify_within fun _ => rfl) fun _ {_ _} _ h => h) fun _ => .throw diagnostic

private theorem functorBody_keeps (span : Span) (name : String) (result : Option Surface.Sig)
    (body : Surface.Str) :
    Keeps s₀ Settled (functorBody (fuel + 1) span name result body) fun _ => Settled := by
  unfold functorBody
  refine .bind (ih.str name body) fun inner => ?_
  cases result with
  | some result =>
    exact settled_of_extends <| .bind (elaborateSignature_within fuel result) fun _ =>
      .bind (requireMatch_within _ _ _ _) fun _ => .pure _
  | none => exact .read fun _ _ => .pure fun _ h => h

end Declarations

private theorem decl_keeps (s₀ : Session) (fuel : Nat) : DeclKeeps s₀ fuel := by
  induction fuel with
  | zero =>
    have noFuel_keeps {γ : Type} : Keeps s₀ Settled (noFuel : ElaborateM γ) fun _ => Settled :=
      settled_of_extends noFuel_within
    exact ⟨fun _ => noFuel_keeps, fun _ => noFuel_keeps, fun _ _ => noFuel_keeps,
      fun _ _ _ _ _ _ => noFuel_keeps, fun _ _ _ _ => noFuel_keeps⟩
  | succ fuel ih =>
    exact ⟨elaborateDecls_keeps ih, elaborateDecl_keeps ih, elaborateStr_keeps ih,
      elaborateFunctor_keeps ih, functorBody_keeps ih⟩

/-- Declarations after those of `block` leave these and all that `s₀` has in place. -/
theorem addDeclarations_keeps (s₀ : Session) (fuel : Nat) (block : Block)
    (decls : List Surface.Decl) :
    Keeps s₀ (Gathers block block) (decls.foldlM (addDeclaration fuel) block) (Gathers block) :=
  .foldlM (fun later decl => addDeclaration_keeps ((decl_keeps s₀ fuel).decl decl) block later)
    decls block

end Elaborate

/-! ## Programs -/

/-- What is reported of a run. -/
def Elaborated.ofRun : Except Diagnostic Block × Session → Elaborated
  | (.ok block, s) => ⟨block.decls, s.errors, s.store, s.globals⟩
  | (.error _, s) => ⟨[], s.errors, s.store, s.globals⟩

theorem elaborate_eq (config : Config) (fuel : Nat) (decls : List Surface.Decl) :
    elaborate config fuel decls =
      (((Elaborate.elaborateDecls fuel decls).run config).run Session.empty).map
        Elaborated.ofRun := by
  unfold elaborate
  rcases ((Elaborate.elaborateDecls fuel decls).run config).run Session.empty
    with _ | ⟨_ | _, _⟩ <;> rfl

/-- Everything in the first result is in the same place in the second one. -/
structure Elaborated.Extends (first whole : Elaborated) : Prop where
  decls : first.decls <+: whole.decls
  errors : first.errors <+: whole.errors
  globals : first.globals.Extends whole.globals

/-- Declarations that follow others, be they elaborated or not, change nothing of the declarations,
the errors, the definitions, the modules, the signatures and the instances of these. -/
theorem elaborate_append {config : Config} {fuel : Nat} {decls later : List Surface.Decl}
    {whole : Elaborated} (h : elaborate config fuel (decls ++ later) = some whole) :
    ∃ first, elaborate config fuel decls = some first ∧ first.Extends whole := by
  obtain _ | fuel := fuel
  · cases h
  rw [elaborate_eq, Elaborate.elaborateDecls_eq, List.foldlM_append] at h
  obtain ⟨⟨result, s'⟩, hrun, rfl⟩ := Option.map_eq_some_iff.mp h
  obtain ⟨⟨first, s⟩, hfirst, hlater⟩ := Option.bind_eq_some_iff.mp
    (show Option.bind (((decls.foldlM (Elaborate.addDeclaration fuel) Block.empty).run config).run
      Session.empty) _ = _ from hrun)
  rw [elaborate_eq, Elaborate.elaborateDecls_eq, hfirst]
  obtain ⟨block, rfl⟩ := Elaborate.Succeeds.foldlM (Elaborate.addDeclaration_succeeds fuel) decls
    Block.empty config _ _ _ hfirst
  have start : Session.empty.Settled := rfl
  -- between the declarations of the first part and those of the second one nothing is provisional
  obtain ⟨-, gathered⟩ := Elaborate.addDeclarations_keeps Session.empty fuel Block.empty decls
    config _ _ _ hfirst start.retains ⟨start, List.prefix_rfl⟩
  obtain ⟨settled, -⟩ := gathered block rfl
  obtain ⟨retains, gathered⟩ := Elaborate.addDeclarations_keeps s fuel block later
    config _ _ _ hlater settled.retains ⟨settled, List.prefix_rfl⟩
  obtain ⟨blocks, rfl⟩ := Elaborate.Succeeds.foldlM (Elaborate.addDeclaration_succeeds fuel) later
    block config _ _ _ hlater
  exact ⟨_, rfl, (gathered blocks rfl).2, retains.errors, retains.globals⟩

def unitDecl : Surface.Decl := ⟨.con "t" none ⟨.unit, default⟩, default⟩

/-- A function whose body is a name that has no meaning. -/
def failingDecl : Surface.Decl :=
  ⟨.functions [⟨"f", [], none, ⟨.var "missing", default⟩, default⟩], default⟩

theorem elaborate_append_failingDecl :
    ∃ whole, elaborate default 20 ([unitDecl] ++ [failingDecl]) = some whole ∧ whole.errors ≠ [] ∧
      ∃ first, elaborate default 20 [unitDecl] = some first ∧ first.Extends whole := by
  have hfails : (elaborate default 20 ([unitDecl] ++ [failingDecl])).any (!·.errors.isEmpty) := by
    decide +kernel
  obtain ⟨whole, hwhole, herrors⟩ := (Option.any_eq_true _ _).mp hfails
  exact ⟨whole, hwhole, by simpa using herrors, elaborate_append hwhole⟩

end RowML
