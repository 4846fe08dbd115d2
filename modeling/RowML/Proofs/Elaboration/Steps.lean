import RowML.Elaboration.Identity
import RowML.Proofs.Effect
import RowML.Elaboration.Closing
import RowML.Proofs.Module.Growth
import RowML.Proofs.Store.Composition
import Mathlib.Logic.Relation

/-!
# The steps of elaboration

Whatever is elaborated, the store and the queue of a session change in a few ways only: an operation
on the store, an obligation that is pushed, woken, taken or drained, a dictionary slot that is made
or filled, and a new queue at the start of a declaration.  A session passes to another one if such
steps lead there inside one declaration, and reaches it if they do with any number of declarations.

A structure inside a module gets a module that stands for it when it is first asked for, and the
same one ever after.  Nothing but the global table and the list of such modules changes then.
-/

namespace RowML

/-! ## Modules that stand for structures -/

/-- The session in which the structure `ref`, called `name`, has got a module. -/
def Session.withAlias (s : Session) (ref : ModuleRef) (name : String) : Session :=
  { s with
    globals := (s.globals.addModule ⟨name, [], Elaborate.itemSignature s ref, .struct, []⟩).2
    aliases := (ref, s.globals.modules.size) :: s.aliases }

namespace Elaborate

variable {config : Config} {s s' : Session} {ref : ModuleRef}

theorem run_get_bind {α : Type} (f : Session → ElaborateM α) (config : Config) (s : Session) :
    ((do f (← get) : ElaborateM α).run config).run s = ((f s).run config).run s := rfl

theorem aliasOf_eq (config : Config) (s : Session) (ref : ModuleRef) :
    ((aliasOf ref).run config).run s =
      some (match (s.globals.canonical ref).path.getLast? with
        | none => (.ok (s.globals.canonical ref).module, s)
        | some name =>
          match s.aliases.lookup (s.globals.canonical ref) with
          | some id => (.ok id, s)
          | none => (.ok s.globals.modules.size, s.withAlias (s.globals.canonical ref) name)) := by
  change ((match (s.globals.canonical ref).path.getLast? with
    | none => _
    | some name => _ : ElaborateM ModuleId).run config).run s = _
  split
  next => rfl
  next =>
    rw [run_get_bind]
    cases s.aliases.lookup (s.globals.canonical ref) <;> rfl

/-- A module itself stands for no structure but itself. -/
theorem aliasOf_module (hpath : (s.globals.canonical ref).path = []) :
    ((aliasOf ref).run config).run s = some (.ok (s.globals.canonical ref).module, s) := by
  simp [aliasOf_eq, hpath]

/-- A structure that has a module keeps it. -/
theorem aliasOf_known {id : ModuleId} (hpath : (s.globals.canonical ref).path ≠ [])
    (hknown : s.aliases.lookup (s.globals.canonical ref) = some id) :
    ((aliasOf ref).run config).run s = some (.ok id, s) := by
  rw [aliasOf_eq, List.getLast?_eq_some_getLast hpath, hknown]

/-- A structure without a module gets a new one. -/
theorem aliasOf_new (hpath : (s.globals.canonical ref).path ≠ [])
    (hnew : s.aliases.lookup (s.globals.canonical ref) = none) :
    ((aliasOf ref).run config).run s = some (.ok s.globals.modules.size,
      s.withAlias (s.globals.canonical ref) ((s.globals.canonical ref).path.getLast hpath)) := by
  rw [aliasOf_eq, List.getLast?_eq_some_getLast hpath, hnew]

/-- All that naming a structure can do. -/
theorem aliasOf_cases {result : Except Diagnostic ModuleId}
    (hrun : ((aliasOf ref).run config).run s = some (result, s')) :
    ∃ id, result = .ok id ∧
      ((s.globals.canonical ref).path = [] ∧ id = (s.globals.canonical ref).module ∧ s' = s ∨
        (s.globals.canonical ref).path ≠ [] ∧
          s.aliases.lookup (s.globals.canonical ref) = some id ∧ s' = s ∨
        (s.globals.canonical ref).path ≠ [] ∧
          s.aliases.lookup (s.globals.canonical ref) = none ∧ id = s.globals.modules.size ∧
          ∃ name, s' = s.withAlias (s.globals.canonical ref) name) := by
  by_cases hpath : (s.globals.canonical ref).path = []
  · cases (aliasOf_module hpath).symm.trans hrun
    exact ⟨_, rfl, .inl ⟨hpath, rfl, rfl⟩⟩
  · cases hlookup : s.aliases.lookup (s.globals.canonical ref) with
    | some id =>
      cases (aliasOf_known hpath hlookup).symm.trans hrun
      exact ⟨id, rfl, .inr (.inl ⟨hpath, rfl, rfl⟩)⟩
    | none =>
      cases (aliasOf_new hpath hlookup).symm.trans hrun
      exact ⟨_, rfl, .inr (.inr ⟨hpath, rfl, rfl, _, rfl⟩)⟩

theorem aliasOf_effect (h : Effect (aliasOf ref) s s') :
    s' = s ∨ ∃ name, s' = s.withAlias (s.globals.canonical ref) name := by
  obtain ⟨config, result, hrun⟩ := h
  obtain ⟨id, -, ⟨-, -, rfl⟩ | ⟨-, -, rfl⟩ | ⟨-, -, -, hnamed⟩⟩ := aliasOf_cases hrun
  · exact .inl rfl
  · exact .inl rfl
  · exact .inr hnamed

end Elaborate

/-! ## Steps -/

/-- What is computed with a store to give kinds and constructors their final form. -/
inductive Store.Closing : {α : Type} → FuelM α → Prop where
  | zonkKind (kind : Kind) : Closing (liftM (onKinds (KindStore.zonk kind)))
  | defaultKind (fuel : Nat) (kind : Kind) :
      Closing (onKindsFuelled (KindStore.defaultUnsolved fuel kind))
  | defaultKinds (fuel : Nat) (c : Con) : Closing (onKindsFuelled (c.defaultKinds fuel))
  | zonk (fuel : Nat) (c : Con) : Closing (Store.zonk fuel c)
  | unsolvedMVars (fuel : Nat) (c : Con) : Closing (Store.unsolvedMVars fuel c)

/-- What elaboration computes with a store. -/
inductive Store.Operation : {α : Type} → FuelM α → Prop where
  | closing {α : Type} {x : FuelM α} (h : Store.Closing x) : Operation x
  | kinds {α : Type} {x : KindM α} (h : Throughout KindStore.Orderly x) :
      Operation (liftM (onKinds x))
  | unifyKinds (fuel : Nat) (a b : Kind) :
    Operation (onKindsFallibly (KindStore.unify fuel a b)).run
  | fresh (kind : Kind) (depth : Nat) : Operation (liftM (Store.fresh kind depth))
  | freshSkolem (name : String) (kind : Kind) : Operation (liftM (Store.freshSkolem name kind))
  | quantify (var : MetaId) (skolem : SkolemId) :
      Operation (liftM (Store.assign var (.skolem skolem)).run)
  | skolemsOf (fuel : Nat) (c : Con) : Operation (Store.skolemsOf fuel c)
  | headNormal (globals : Globals) (fuel : Nat) (c : Con) : Operation (headNormal globals fuel c)
  | isGoal (globals : Globals) (fuel : Nat) (c : Con) : Operation (Class.isGoal globals fuel c)
  | isInstanceType (globals : Globals) (fuel : Nat) (c : Con) :
      Operation (Class.isInstanceType globals fuel c)
  | unify (globals : Globals) (fuel depth : Nat) (a b : Con) :
      Operation (unify globals fuel depth a b)
  | checkDisjoint (globals : Globals) (fuel : Nat) (left right : Con) (facts : List Fact) :
      Operation (Row.checkDisjoint globals fuel left right facts).run
  | resolve (context : Class.Context) (fuel : Nat) (goal : Con) :
      Operation (Class.resolve context fuel goal).run

/-- What is bound, a name or a binder, is added to a scope. -/
inductive Scope.Enters : Scope → Scope → Prop where
  | con (scope : Scope) (name : String) (kind : Kind) : Enters scope (scope.pushCon name kind)
  | kind (scope : Scope) (name : String) : Enters scope (scope.pushKind name)
  | val (scope : Scope) (name : String) (type : Con) (isDict : Bool) :
      Enters scope (scope.pushVal name type isDict)
  | fact (scope : Scope) (left right : Con) : Enters scope (scope.pushFact left right)
  | name (scope : Scope) (name : String) (sort : Namespace) (meaning : Meaning) :
      Enters scope (scope.bind name sort meaning)

namespace Session

inductive Step : Session → Session → Prop where
  | compute {s : Session} {α : Type} {x : FuelM α} {a : α} {store : Store}
      (operation : Store.Operation x) (hrun : x s.store = some (a, store)) : Step s { s with store }
  | push (s : Session) (obligation : Obligation) (blockers : List MetaId) :
      Step s { s with queue := s.queue.push obligation blockers }
  /-- What waits for the solved cells becomes ready, and the list of solved cells starts anew. -/
  | wake (s : Session) :
      Step s { s with
        store := { s.store with solved := #[] }
        queue := s.queue.wake s.store.solved.toList }
  | pop (s : Session) : Step s { s with queue := s.queue.pop.2 }
  | drain (s : Session) : Step s { s with queue := s.queue.drain.2 }
  | newSlot (s : Session) (goal : Con) : Step s { s with queue := (s.queue.newSlot goal).2 }
  | fillSlot (s : Session) (slot : SlotId) (dict : Dict) :
      Step s { s with queue := s.queue.fillSlot slot dict }
  | elsewhere {s s' : Session} (hstore : s'.store = s.store) (hqueue : s'.queue = s.queue) :
      Step s s'

/-- Steps inside one declaration lead from the first session to the second one. -/
def Passes : Session → Session → Prop := Relation.ReflTransGen Step

/-- The second session has no obligations any more, nor slots. -/
def Restarts (s s' : Session) : Prop := s'.store = s.store ∧ s'.queue = Queue.empty

/-- Steps lead from the first session to the second one, through any number of declarations. -/
def Reaches : Session → Session → Prop :=
  Relation.ReflTransGen fun s s' => Step s s' ∨ Restarts s s'

instance : IsPreorder Session Passes where
  refl _ := .refl
  trans _ _ _ := .trans

instance : IsPreorder Session Reaches where
  refl _ := .refl
  trans _ _ _ := .trans

theorem Step.passes {s s' : Session} (h : Step s s') : s.Passes s' := .single h

theorem Passes.reaches {s s' : Session} (h : s.Passes s') : s.Reaches s' :=
  Relation.ReflTransGen.mono (fun _ _ => .inl) _ _ h

theorem Restarts.reaches {s s' : Session} (h : s.Restarts s') : s.Reaches s' := .single (.inr h)

theorem Step.rescoped (s : Session) (scope : Scope) : Step s { s with scope } := .elsewhere rfl rfl

/-- A step that changes nothing besides the store and the queue. -/
structure SolvingStep (s s' : Session) : Prop where
  step : Step s s'
  rest : s' = { s with store := s'.store, queue := s'.queue }

/-- What there was is still there: to the global table and to the errors something may have been
added, and the definitions whose types are not final are the same. -/
structure Extends (s s' : Session) : Prop where
  globals : s.globals.Extends s'.globals
  errors : s.errors <+: s'.errors
  provisional : s'.provisional = s.provisional

/-- Relations that allow what closing may do. -/
class AllowsClosing (R : Session → Session → Prop) : Prop extends IsPreorder Session R where
  of_closing : ∀ {s : Session} {α : Type} {x : FuelM α} {a : α} {store : Store},
    Store.Closing x → x s.store = some (a, store) → R s { s with store }

/-- Relations that allow everything that is computed with the store. -/
class AllowsComputing (R : Session → Session → Prop) : Prop extends IsPreorder Session R where
  of_compute : ∀ {s : Session} {α : Type} {x : FuelM α} {a : α} {store : Store},
    Store.Operation x → x s.store = some (a, store) → R s { s with store }

instance {R : Session → Session → Prop} [AllowsComputing R] : AllowsClosing R where
  of_closing closing hrun := AllowsComputing.of_compute (.closing closing) hrun

/-- Relations that allow what trying an obligation may do. -/
class AllowsTrying (R : Session → Session → Prop) : Prop extends AllowsComputing R where
  of_push : ∀ (s : Session) (obligation : Obligation) (blockers : List MetaId),
    R s { s with queue := s.queue.push obligation blockers }
  of_fillSlot : ∀ (s : Session) (slot : SlotId) (dict : Dict),
    R s { s with queue := s.queue.fillSlot slot dict }

/-- Relations that allow equations and demands for disjointness, and what is done under a binder of
its own. -/
class AllowsAsking (R : Session → Session → Prop) : Prop extends AllowsComputing R where
  of_unify : ∀ (fuel : Nat) (span : Span) (expected found : Con),
    Within R (Elaborate.unify fuel span expected found)
  of_requireDisjoint : ∀ (fuel : Nat) (span : Span) (left right : Con),
    Within R (Elaborate.requireDisjoint fuel span left right)
  of_inside : ∀ {s s' : Session} {scope : Scope}, s.scope.Enters scope → R { s with scope } s' →
    R s { s' with scope := s'.scope.reset s.scope.mark }

/-- Relations that allow every step by which obligations are decided. -/
class AllowsForcing (R : Session → Session → Prop) : Prop extends IsPreorder Session R where
  of_solving : ∀ {s s'}, SolvingStep s s' → R s s'

instance {R : Session → Session → Prop} [AllowsForcing R] : AllowsTrying R where
  of_compute operation hrun := AllowsForcing.of_solving ⟨.compute operation hrun, rfl⟩
  of_push s obligation blockers := AllowsForcing.of_solving ⟨.push s obligation blockers, rfl⟩
  of_fillSlot s slot dict := AllowsForcing.of_solving ⟨.fillSlot s slot dict, rfl⟩

/-- Relations that allow whatever a computation may do that declares nothing. -/
class AllowsSolving (R : Session → Session → Prop) : Prop extends AllowsForcing R where
  of_entering : ∀ {s : Session} {scope : Scope}, s.scope.Enters scope → R s { s with scope }
  of_leaving : ∀ {s s'}, R s s' → R s { s' with scope := s'.scope.reset s.scope.mark }

/-- Once its binders and names are forgotten, a computation that keeps to the second relation has
kept to the first one. -/
structure Encloses (R R' : Session → Session → Prop) : Prop where
  le : ∀ {s s'}, R s s' → R' s s'
  leaving : ∀ {s s'}, R' s s' → R s { s' with scope := s'.scope.reset s.scope.mark }

/-- Relations that allow what a computation may do that declares nothing and forgets its binders. -/
class AllowsScoping (R : Session → Session → Prop) : Prop extends AllowsForcing R where
  encloses : ∃ R', AllowsSolving R' ∧ Encloses R R'

/-- Modules stay what they are, structures keep the modules that stand for them, and functors give
again what they have given. -/
structure KeepsIdentities (s s' : Session) : Prop where
  modules : s.globals.modules.toList <+: s'.globals.modules.toList
  applications : ∀ {key : ModuleId × ModuleId} {id : ModuleId},
    s.globals.applications.lookup key = some id → s'.globals.applications.lookup key = some id
  aliases : s'.aliases = s.aliases

/-- Relations that also allow declarations, and modules that stand for structures. -/
class AllowsDeclaring (R : Session → Session → Prop) : Prop extends AllowsScoping R where
  of_naming : ∀ (s : Session) (name : String) (sort : Namespace) (meaning : Meaning),
    R s { s with scope := s.scope.bind name sort meaning }
  of_extends : ∀ {s s' : Session}, s'.store = s.store → s'.queue = s.queue → s'.scope = s.scope →
    s.Extends s' → s.KeepsIdentities s' → R s s'
  of_alias : ∀ {s s' : Session} (ref : ModuleRef), Effect (Elaborate.aliasOf ref) s s' → R s s'

/-- Relations that also allow the start of a declaration. -/
class AllowsRestarts (R : Session → Session → Prop) : Prop extends AllowsDeclaring R where
  of_restart : ∀ s : Session, R s { s with queue := Queue.empty }

/-- Relations that also allow changes of what a declaration has made. -/
class AllowsRevising (R : Session → Session → Prop) : Prop extends AllowsRestarts R where
  of_revision : ∀ {s s' : Session}, s'.store = s.store → s'.queue = s.queue →
    s'.scope = s.scope → s.KeepsIdentities s' → R s s'

theorem KeepsIdentities.of_eq {s s' : Session} (hmodules : s'.globals.modules = s.globals.modules)
    (happlications : s'.globals.applications = s.globals.applications)
    (haliases : s'.aliases = s.aliases) : s.KeepsIdentities s' where
  modules := hmodules ▸ List.prefix_rfl
  applications h := happlications ▸ h
  aliases := haliases

theorem SolvingStep.keepsIdentities {s s' : Session} (h : SolvingStep s s') :
    s.KeepsIdentities s' := by
  rw [h.rest]
  exact .of_eq rfl rfl rfl

instance : AllowsSolving Passes where
  of_solving h := h.step.passes
  of_entering _ := (Step.rescoped _ _).passes
  of_leaving h := h.tail (.rescoped _ _)

instance : AllowsSolving Reaches where
  of_solving h := h.step.passes.reaches
  of_entering _ := (Step.rescoped _ _).passes.reaches
  of_leaving h := h.tail (.inl (.rescoped _ _))

namespace Extends

variable {s s' s'' : Session}

theorem refl (s : Session) : s.Extends s := ⟨.refl _, List.prefix_rfl, rfl⟩

theorem trans (h : s.Extends s') (h' : s'.Extends s'') : s.Extends s'' where
  globals := h.globals.trans h'.globals
  errors := h.errors.trans h'.errors
  provisional := h'.provisional.trans h.provisional

/-- A change of the global table and of nothing else of the kind. -/
theorem of_globals (hglobals : s.globals.Extends s'.globals) (herrors : s'.errors = s.errors)
    (hprovisional : s'.provisional = s.provisional) : s.Extends s' :=
  ⟨hglobals, herrors ▸ List.prefix_rfl, hprovisional⟩

end Extends

instance : IsPreorder Session Extends where
  refl := .refl
  trans _ _ _ := .trans

instance : AllowsSolving Extends where
  of_solving h := by
    rw [h.rest]
    exact .of_globals (.refl _) rfl rfl
  of_entering _ := .of_globals (.refl _) rfl rfl
  of_leaving h := h.trans (.of_globals (.refl _) rfl rfl)

end Session

namespace Elaborate

open Session (AllowsClosing AllowsComputing AllowsTrying AllowsAsking AllowsForcing AllowsSolving
  AllowsScoping Encloses)

/-! ## Runs that succeed -/

section Runs

variable {config : Config} {s s' : Session}

/-- A run that succeeds is one of the first part and one of the second part. -/
theorem run_bind_ok {α β : Type} {x : ElaborateM α} {f : α → ElaborateM β} {b : β}
    (h : ((x >>= f).run config).run s = some (.ok b, s')) :
    ∃ a t, (x.run config).run s = some (.ok a, t) ∧
      ((f a).run config).run t = some (.ok b, s') := by
  obtain ⟨⟨result, t⟩, hx, hf⟩ :=
    Option.bind_eq_some_iff.mp (show Option.bind ((x.run config).run s) _ = _ from h)
  cases result with
  | ok a => exact ⟨a, t, hx, hf⟩
  | error diagnostic => cases hf

theorem run_bind_of_ok {α β : Type} {x : ElaborateM α} {a : α} {t : Session}
    (h : (x.run config).run s = some (.ok a, t)) (f : α → ElaborateM β) :
    ((x >>= f).run config).run s = ((f a).run config).run t := by
  change Option.bind ((x.run config).run s) _ = _
  rw [h]
  rfl

theorem onStore_ok {α : Type} {x : FuelM α} {a : α}
    (h : ((onStore x).run config).run s = some (.ok a, s')) :
    ∃ store, x s.store = some (a, store) ∧ s' = { s with store } := by
  obtain ⟨⟨b, store⟩, hrun, hr⟩ := Option.map_eq_some_iff.mp h
  cases hr
  exact ⟨store, hrun, rfl⟩

end Runs

/-! ## Results -/

section Results

variable {α β : Type}

/-- Every run that succeeds gives a result with the property. -/
def Returns (x : ElaborateM α) (P : α → Prop) : Prop :=
  ∀ config s a s', (x.run config).run s = some (.ok a, s') → P a

namespace Returns

variable {P : α → Prop} {Q : β → Prop}

theorem pure {a : α} (h : P a) : Returns (Pure.pure a) P := by
  rintro config s _ s' ⟨⟩
  exact h

theorem bind {x : ElaborateM α} {f : α → ElaborateM β} (hx : Returns x P)
    (hf : ∀ a, P a → Returns (f a) Q) : Returns (x >>= f) Q := by
  intro config s b s' hrun
  obtain ⟨a, t, hx', hf'⟩ := run_bind_ok hrun
  exact hf a (hx _ _ _ _ hx') _ _ _ _ hf'

theorem fail (span : Span) (cause : Cause) : Returns (fail span cause) P := by
  rintro config s a s' ⟨⟩

theorem after {x : ElaborateM α} {f : α → ElaborateM β} (hf : ∀ a, Returns (f a) Q) :
    Returns (x >>= f) Q := by
  intro config s b s' hrun
  obtain ⟨a, t, -, hf'⟩ := run_bind_ok hrun
  exact hf a _ _ _ _ hf'

theorem mapM {f : α → ElaborateM β} (h : ∀ a, Returns (f a) Q) (as : List α) :
    Returns (as.mapM f) fun bs => bs.length = as.length ∧ ∀ b ∈ bs, Q b := by
  induction as with
  | nil => exact pure (by simp)
  | cons a as ih =>
    rw [List.mapM_cons]
    refine bind (h a) fun b hb => bind ih fun bs hbs => pure ?_
    exact ⟨congrArg (· + 1) hbs.1, List.forall_mem_cons.mpr ⟨hb, hbs.2⟩⟩

theorem foldlM {f : β → α → ElaborateM β} (h : ∀ b a, Q b → Returns (f b a) Q) (as : List α) {b : β}
    (hb : Q b) : Returns (as.foldlM f b) Q := by
  induction as generalizing b with
  | nil => exact pure hb
  | cons a as ih => exact bind (h b a hb) fun b hb => ih hb

end Returns

end Results

/-! ## Failures and outcomes -/

section Outcomes

variable {R : Session → Session → Prop} {α : Type}

theorem noFuel_within : Within R (noFuel : ElaborateM α) := by
  rintro s s' ⟨config, r, heffect⟩
  cases heffect

variable [IsPreorder Session R]

theorem fail_within (span : Span) (cause : Cause) : Within R (fail span cause : ElaborateM α) :=
  .still fun ⟨_, _, heffect⟩ => by cases heffect; rfl

theorem throw_within (diagnostic : Diagnostic) :
    Within R (throw diagnostic : ElaborateM α) :=
  .still fun ⟨_, _, heffect⟩ => by cases heffect; rfl

theorem get_within : Within R (get : ElaborateM Session) :=
  .still fun ⟨_, _, heffect⟩ => by cases heffect; rfl

theorem read_within : Within R (read : ElaborateM Config) :=
  .still fun ⟨_, _, heffect⟩ => by cases heffect; rfl

theorem getGlobals_within : Within R getGlobals := .bind get_within fun _ => .pure _

theorem conDepth_within : Within R conDepth := .bind get_within fun _ => .pure _

theorem meaning_within (name : String) (sort : Namespace) : Within R (meaning? name sort) :=
  .bind get_within fun _ => .pure _

theorem qualify_within (name : String) : Within R (qualify name) :=
  .bind get_within fun _ => .pure _

omit [IsPreorder Session R] in
theorem outcome_within {x : ElaborateM α} (h : Within R x) : Within R (outcome x) := by
  rintro s s' ⟨config, r, heffect⟩
  obtain ⟨⟨result, s₁⟩, hrun, hr⟩ := Option.bind_eq_some_iff.mp heffect
  cases hr
  exact h s s' ⟨config, result, hrun⟩

theorem ofOutcome_within (result : Except Diagnostic α) :
    Within R (ofOutcome result) := by
  cases result with
  | ok a => exact .pure a
  | error diagnostic => exact throw_within diagnostic

omit [IsPreorder Session R] in
/-- Whatever a computation leads to, its binders and names are forgotten then. -/
theorem inScope_effect {x : ElaborateM α} {s s' : Session} (h : Effect (inScope x) s s') :
    ∃ s₁, Effect x s s₁ ∧ s' = { s₁ with scope := s₁.scope.reset s.scope.mark } := by
  obtain ⟨config, r, heffect⟩ := h
  obtain ⟨⟨result, s₁⟩, hrun, hr⟩ := Option.bind_eq_some_iff.mp heffect
  obtain ⟨⟨inner, s₂⟩, hx, hinner⟩ := Option.bind_eq_some_iff.mp hrun
  cases hinner
  refine ⟨s₁, ⟨config, inner, hx⟩, ?_⟩
  cases inner with
  | ok | error =>
    cases hr
    rfl

theorem ensuring_within {x : ElaborateM α} {after : ElaborateM Unit} (hx : Within R x)
    (hafter : Within R after) : Within R (ensuring x after) :=
  .bind (outcome_within hx) fun result => .bind hafter fun _ => ofOutcome_within result

end Outcomes

/-! ## Computing with the store -/

theorem onStore_effect {α : Type} {x : FuelM α} {s s' : Session} (h : Effect (onStore x) s s') :
    ∃ a store, x s.store = some (a, store) ∧ s' = { s with store } := by
  obtain ⟨config, r, heffect⟩ := h
  obtain ⟨⟨a, store⟩, hrun, hr⟩ := Option.map_eq_some_iff.mp heffect
  cases hr
  exact ⟨a, store, hrun, rfl⟩

section Closing

variable {R : Session → Session → Prop} [AllowsClosing R] {α : Type}

theorem closing_within {x : FuelM α} (closing : Store.Closing x) : Within R (onStore x) := by
  intro s s' heffect
  obtain ⟨a, store, hrun, rfl⟩ := onStore_effect heffect
  exact AllowsClosing.of_closing closing hrun

theorem zonk_within (fuel : Nat) (c : Con) : Within R (zonk fuel c) :=
  closing_within (.zonk fuel c)

theorem residualCause_within (fuel : Nat) (obligation : Obligation) (blockers : List MetaId) :
    Within R (residualCause fuel obligation blockers) := by
  unfold residualCause
  split
  · exact .pure _
  · split
    · exact .bind (zonk_within fuel _) fun _ => .bind (zonk_within fuel _) fun _ => .pure _
    · exact .bind (zonk_within fuel _) fun _ => .bind (zonk_within fuel _) fun _ => .pure _
    · exact .bind (zonk_within fuel _) fun _ => .pure _

end Closing

section Computing

variable {R : Session → Session → Prop} [AllowsComputing R] {α : Type}

theorem onStore_within {x : FuelM α} (operation : Store.Operation x) : Within R (onStore x) := by
  intro s s' heffect
  obtain ⟨a, store, hrun, rfl⟩ := onStore_effect heffect
  exact AllowsComputing.of_compute operation hrun

theorem onKindM_within {x : KindM α} (h : Throughout KindStore.Orderly x) :
    Within R (onKindM x) :=
  onStore_within (.kinds h)

theorem freshCon_within (kind : Kind) : Within R (freshCon kind) :=
  .bind conDepth_within fun _ => onStore_within (.fresh kind _)

theorem freshKind_within : Within R freshKind := onKindM_within (.fresh .any)

theorem head_within (fuel : Nat) (c : Con) : Within R (head fuel c) :=
  .bind getGlobals_within fun _ => onStore_within (.headNormal _ fuel c)

theorem isGoal_within (fuel : Nat) (c : Con) : Within R (isGoal fuel c) :=
  .bind getGlobals_within fun _ => onStore_within (.isGoal _ fuel c)

theorem unifyKinds_within (fuel : Nat) (span : Span) (site : Option Con) (expected found : Kind) :
    Within R (unifyKinds fuel span site expected found) := by
  refine .bind (onStore_within (.unifyKinds fuel expected found)) fun result => ?_
  split
  · exact .pure _
  · exact fail_within _ _

theorem resolveClass_within (fuel : Nat) (goal : Con) (locals : List LocalDict)
    (depth valDepth : Nat) : Within R (resolveClass fuel goal locals depth valDepth) :=
  .bind getGlobals_within fun _ => .bind read_within fun _ => onStore_within (.resolve _ fuel goal)

end Computing

/-! ## Trying an obligation -/

section Trying

variable {R : Session → Session → Prop} [AllowsTrying R]

theorem push_within (obligation : Obligation) (blockers : List MetaId) :
    Within R (modifyQueue (·.push obligation blockers)) := by
  rintro s s' ⟨config, r, heffect⟩
  cases heffect
  exact AllowsTrying.of_push s obligation blockers

theorem fillSlot_within (slot : SlotId) (dict : Dict) :
    Within R (modifyQueue (·.fillSlot slot dict)) := by
  rintro s s' ⟨config, r, heffect⟩
  cases heffect
  exact AllowsTrying.of_fillSlot s slot dict

theorem dischargeDisjoint_within (fuel : Nat) (left right : Con) (facts : List Fact) (depth : Nat)
    (span : Span) : Within R (dischargeDisjoint fuel left right facts depth span) := by
  refine .bind getGlobals_within fun globals => ?_
  refine .bind (onStore_within (.checkDisjoint globals fuel left right facts)) fun result => ?_
  split
  · exact .pure _
  · exact .bind (push_within _ _) fun _ => .pure _
  · exact fail_within _ _

theorem discharge_within (fuel : Nat) (obligation : Obligation) :
    Within R (discharge fuel obligation) := by
  unfold discharge
  simp only
  split
  · refine .bind getGlobals_within fun globals => ?_
    refine .bind (onStore_within (.unify globals fuel _ _ _)) fun result => ?_
    split
    · exact fail_within _ _
    · exact .bind (.forM (fun p => push_within _ _) _) fun _ => .pure _
  · exact dischargeDisjoint_within _ _ _ _ _ _
  · refine .bind (resolveClass_within fuel _ _ _ _) fun result => ?_
    split
    · refine .bind (fillSlot_within _ _) fun _ => .bind (.forM (fun pair => ?_) _) fun _ => .pure _
      exact .bind (dischargeDisjoint_within _ _ _ _ _ _) fun _ => .pure _
    · exact .bind (push_within _ _) fun _ => .pure _
    · exact fail_within _ _

end Trying

/-! ## Single steps -/

section Solving

variable {R : Session → Session → Prop} [AllowsSolving R] {α : Type}

theorem modifyScope_within {f : Scope → Scope} (h : ∀ scope : Scope, scope.Enters (f scope)) :
    Within R (modifyScope f) := by
  rintro s s' ⟨config, r, heffect⟩
  cases heffect
  exact AllowsSolving.of_entering (h s.scope)

theorem pushVal_within (fuel : Nat) (name : String) (type : Con) :
    Within R (pushVal fuel name type) :=
  .bind (isGoal_within fuel type) fun isDict =>
    modifyScope_within fun scope => .val scope name type isDict

end Solving

/-! ## The queue -/

section Forcing

variable {R : Session → Session → Prop} [AllowsForcing R]

theorem wakeSolved_within : Within R wakeSolved := by
  rintro s s' ⟨config, r, heffect⟩
  cases heffect
  exact AllowsForcing.of_solving ⟨.wake s, rfl⟩

theorem popReady_within : Within R popReady := by
  rintro s s' ⟨config, r, heffect⟩
  cases heffect
  exact AllowsForcing.of_solving ⟨.pop s, rfl⟩

theorem drainQueue_within : Within R drainQueue := by
  rintro s s' ⟨config, r, heffect⟩
  cases heffect
  exact AllowsForcing.of_solving ⟨.drain s, rfl⟩

theorem newSlot_within (goal : Con) : Within R (modifyGet fun session =>
    let (slot, queue) := session.queue.newSlot goal
    (slot, { session with queue }) : ElaborateM SlotId) := by
  rintro s s' ⟨config, r, heffect⟩
  cases heffect
  exact AllowsForcing.of_solving ⟨.newSlot s goal, rfl⟩

/-! ## Obligations -/

theorem runReady_within (fuel : Nat) : Within R (runReady fuel) := by
  induction fuel with
  | zero => exact noFuel_within
  | succ fuel ih =>
    refine .bind wakeSolved_within fun _ => .bind popReady_within fun popped => ?_
    split
    · exact .pure _
    · exact .bind (discharge_within fuel _) fun _ => ih

theorem forceRounds_within (fuel rounds : Nat) : Within R (forceRounds fuel rounds) := by
  induction rounds with
  | zero => exact .pure _
  | succ rounds ih =>
    refine .bind (runReady_within fuel) fun _ => .bind drainQueue_within fun pending => ?_
    split
    · exact .pure _
    · refine .bind (.mapM (fun entry => discharge_within fuel _) pending) fun decided => ?_
      refine .bind wakeSolved_within fun solved => ?_
      split
      · exact ih
      · exact .pure _

theorem force_within (fuel : Nat) : Within R (force fuel) :=
  .bind read_within fun _ => .bind (forceRounds_within fuel _) fun _ =>
    .bind (runReady_within fuel) fun _ => drainQueue_within

theorem requireClass_within (fuel : Nat) (span : Span) (goal : Con) :
    Within R (requireClass fuel span goal) :=
  .bind (newSlot_within goal) fun _ => .bind get_within fun _ =>
    .bind (discharge_within fuel _) fun _ => .bind (runReady_within fuel) fun _ => .pure _

theorem forceAll_within (fuel : Nat) : Within R (forceAll fuel) := by
  refine .bind (force_within fuel) fun residue => ?_
  split
  · exact .pure _
  · exact .bind (residualCause_within fuel _ _) fun _ => fail_within _ _

end Forcing

/-! ## Equations and demands for disjointness -/

instance {R : Session → Session → Prop} [solving : AllowsSolving R] : AllowsScoping R where
  encloses := ⟨R, solving, fun h => h, AllowsSolving.of_leaving⟩

instance {R : Session → Session → Prop} [AllowsScoping R] : AllowsAsking R where
  of_unify fuel _ _ _ :=
    .bind conDepth_within fun _ => .bind (discharge_within fuel _) fun _ => runReady_within fuel
  of_requireDisjoint fuel _ _ _ :=
    .bind get_within fun _ => .bind (discharge_within fuel _) fun _ => runReady_within fuel
  of_inside {s _ _} enters h := by
    obtain ⟨R', solving, encloses⟩ := AllowsScoping.encloses (R := R)
    exact encloses.leaving (s := s) (trans_of R' (solving.of_entering enters) (encloses.le h))

section Asking

variable {R : Session → Session → Prop} [AllowsAsking R] {α : Type}

theorem unify_within (fuel : Nat) (span : Span) (expected found : Con) :
    Within R (unify fuel span expected found) :=
  AllowsAsking.of_unify fuel span expected found

theorem requireDisjoint_within (fuel : Nat) (span : Span) (left right : Con) :
    Within R (requireDisjoint fuel span left right) :=
  AllowsAsking.of_requireDisjoint fuel span left right

/-- A computation under a binder of its own. -/
theorem inside_within {f : Scope → Scope} {x : ElaborateM α}
    (h : ∀ scope : Scope, scope.Enters (f scope)) (hx : Within R x) :
    Within R (inScope do modifyScope f; x) := by
  intro s s' heffect
  obtain ⟨s₁, ⟨config, r, hrun⟩, rfl⟩ := inScope_effect heffect
  exact AllowsAsking.of_inside (h s.scope) (hx _ s₁ ⟨config, r, hrun⟩)

end Asking

/-! ## Computations whose binders are forgotten -/

theorem enclosed_within {R R' : Session → Session → Prop} {α : Type}
    {x : ElaborateM α} (encloses : Encloses R R') (h : Within R' x) :
    Within R (inScope x) := by
  intro s s' heffect
  obtain ⟨s₁, hx, rfl⟩ := inScope_effect heffect
  exact encloses.leaving (h s s₁ hx)

section Scoping

variable {R : Session → Session → Prop} [AllowsScoping R] {α : Type} {x : ElaborateM α}

theorem inScope_of_solving
    (h : ∀ {R' : Session → Session → Prop} [AllowsSolving R'], Within R' x) :
    Within R (inScope x) := by
  obtain ⟨R', solving, encloses⟩ := AllowsScoping.encloses (R := R)
  exact enclosed_within encloses h

theorem inScope_within (h : Within R x) : Within R (inScope x) := by
  obtain ⟨R', solving, encloses⟩ := AllowsScoping.encloses (R := R)
  exact enclosed_within encloses (h.mono encloses.le)

end Scoping

end Elaborate

namespace Session

/-! ## Relations that allow declarations -/

/-- What happens when a structure is named is not a matter of the store or of the queue. -/
theorem step_of_alias {s s' : Session} {ref : ModuleRef} (h : Effect (Elaborate.aliasOf ref) s s') :
    Step s s' := by
  rcases Elaborate.aliasOf_effect h with rfl | ⟨name, rfl⟩ <;> exact .elsewhere rfl rfl

instance : AllowsRevising Reaches where
  of_naming _ _ _ _ := (Step.rescoped _ _).passes.reaches
  of_extends hstore hqueue _ _ _ := (Step.elsewhere hstore hqueue).passes.reaches
  of_alias _ h := (step_of_alias h).passes.reaches
  of_restart _ := Restarts.reaches ⟨rfl, rfl⟩
  of_revision hstore hqueue _ _ := (Step.elsewhere hstore hqueue).passes.reaches

instance : AllowsRestarts Extends where
  of_naming _ _ _ _ := .of_globals (.refl _) rfl rfl
  of_extends _ _ _ h _ := h
  of_alias _ h := by
    rcases Elaborate.aliasOf_effect h with rfl | ⟨name, rfl⟩
    · exact .refl _
    · exact .of_globals (Globals.addModule_extends _ _) rfl rfl
  of_restart _ := .of_globals (.refl _) rfl rfl

end Session

end RowML
