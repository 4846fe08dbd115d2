import RowML.Module.Naming
import RowML.Proofs.Constructor.Algebra
import RowML.Proofs.Elaboration.Balance
import RowML.Proofs.Elaboration.Frame
import RowML.Proofs.Elaboration.Parameters
import RowML.Proofs.Elaboration.Settling
import RowML.Proofs.Store.Complete

/-!
# Declarations leave nothing unknown

A definition is closed before it is declared, and so is the type of a value: what has been solved is
put in, the kinds that are left get a default, and a metavariable that is left is an error.  So,
where kinds get defaults, nothing unknown is left in the kinds, the definitions and the types that
declarations give, and whatever is elaborated later, they are read as they are written.

The parameters of a group come in after its members have been read, so they have to be clear of
metavariables themselves; `Clears` is the invariant of settling that says so.
-/

namespace RowML

namespace Store

variable {store store' : Store} {c : Con}

/-- If nothing in a constructor is solved, then the list of what it waits for is empty only if it
waits for nothing. -/
theorem has_mvar_of_unsolvedMVars (acyclic : store.kinds.Acyclic) {fuel : Nat}
    (hc : ∀ i, c.Mentions i → store.isSolved i = false)
    (hrun : unsolvedMVars fuel c store = some ([], store')) : c.has .mvar = false := by
  obtain ⟨⟨r, store₁⟩, hzonk, hmvars⟩ :=
    Option.bind_eq_some_iff.mp (show Option.bind (zonk fuel c store) _ = _ from hrun)
  have hmvars : r.mvars = [] := congrArg Prod.fst (Option.some.inj hmvars)
  have ok : (followingKinds store).Ok store := ⟨rfl, .refl acyclic⟩
  obtain ⟨-, -, hr⟩ := zonk_unsolved_yields fuel ok hc _ _ (exec_of_run hzonk)
  refine Con.has_mvar_eq_false_iff.mpr fun v hv => ?_
  refine Con.not_mentions_of_has (Con.mvars_eq_nil_iff.mp hmvars) (v := v) ?_
  rw [hr r rfl]
  exact hv.traverse _

end Store

namespace Generalization

/-- No metavariable is written in the parameters. -/
structure Clear (generalization : Generalization) : Prop where
  facts : ∀ fact ∈ generalization.facts,
    fact.left.has .mvar = false ∧ fact.right.has .mvar = false
  dicts : ∀ c ∈ generalization.dicts, c.has .mvar = false

theorem clear_empty (skolems : List SkolemId) :
    Generalization.Clear { Generalization.empty with skolems } where
  facts _ h := nomatch h
  dicts _ h := nomatch h

theorem Clear.mentions_bindType {generalization : Generalization}
    (clear : generalization.Clear) {store : Store} {type : Con} {v : MetaId}
    (h : (generalization.bindType store type).Mentions v) : type.Mentions v := by
  have bound {c : Con} (hc : ¬ c.Mentions v) : ¬ (generalization.bindIn 0 c).Mentions v :=
    mt Con.mentions_abstractSkolems hc
  by_contra htype
  rw [bindType_eq] at h
  refine Parameters.not_mentions_type (bound htype) ?_ ?_ h
  · refine List.forall_mem_map.mpr fun fact hfact => ?_
    obtain ⟨hleft, hright⟩ := clear.facts fact hfact
    exact ⟨bound (Con.not_mentions_of_has hleft), bound (Con.not_mentions_of_has hright)⟩
  · exact List.forall_mem_map.mpr fun c hc => bound (Con.not_mentions_of_has (clear.dicts c hc))

end Generalization

namespace Declaration

mutual
/-- The kinds that a declaration gives, in order. -/
def kinds : Declaration → List Kind
  | .con _ kind _ | .class _ kind _ => [kind]
  | .structure _ _ decls => kindsOfList decls
  | .val _ _ _ | .functions _ | .signature _ _ | .opened _ => []
def kindsOfList : List Declaration → List Kind
  | [] => []
  | decl :: decls => decl.kinds ++ kindsOfList decls
end

mutual
/-- The definitions and the types of values that a declaration gives, in order. -/
def types : Declaration → List Con
  | .con _ _ definition => [definition]
  | .class _ _ definition => definition.toList
  | .val _ type _ => [type]
  | .functions group => group.map fun (_, type, _) => type
  | .structure _ _ decls => typesOfList decls
  | .signature _ _ | .opened _ => []
def typesOfList : List Declaration → List Con
  | [] => []
  | decl :: decls => decl.types ++ typesOfList decls
end

theorem kindsOfList_eq (decls : List Declaration) : kindsOfList decls = decls.flatMap kinds := by
  induction decls with
  | nil => rfl
  | cons decl decls ih => rw [kindsOfList, ih, List.flatMap_cons]

theorem typesOfList_eq (decls : List Declaration) : typesOfList decls = decls.flatMap types := by
  induction decls with
  | nil => rfl
  | cons decl decls ih => rw [typesOfList, ih, List.flatMap_cons]

/-- Nothing unknown is left in what a declaration gives. -/
structure Determined (decl : Declaration) : Prop where
  kinds : ∀ kind ∈ decl.kinds, kind.mvars = []
  types : ∀ type ∈ decl.types, type.Determined

/-- What gives neither kinds nor types is determined. -/
theorem Determined.of_nil {decl : Declaration} (hkinds : decl.kinds = [])
    (htypes : decl.types = []) : decl.Determined where
  kinds := by
    rw [hkinds]
    exact List.forall_mem_nil _
  types := by
    rw [htypes]
    exact List.forall_mem_nil _

theorem Determined.of_decls {decls : List Declaration} (h : ∀ decl ∈ decls, decl.Determined)
    (name : String) (ref : ModuleRef) : (Declaration.structure name ref decls).Determined where
  kinds kind hkind := by
    rw [Declaration.kinds, kindsOfList_eq] at hkind
    obtain ⟨decl, hdecl, hkind⟩ := List.mem_flatMap.mp hkind
    exact (h decl hdecl).kinds kind hkind
  types type htype := by
    rw [Declaration.types, typesOfList_eq] at htype
    obtain ⟨decl, hdecl, htype⟩ := List.mem_flatMap.mp htype
    exact (h decl hdecl).types type htype

end Declaration

namespace Elaborate

open Session (Reaches)

/-! ## Closing -/

section Closing

variable {config : Config} {s s' : Session} {c c' : Con} {fuel : Nat}

/-- What is read is not solved. -/
theorem zonk_unsolved (acyclic : s.Acyclic)
    (h : ((zonk fuel c).run config).run s = some (.ok c', s')) :
    s'.Acyclic ∧ (∀ i, s'.store.isSolved i = s.store.isSolved i) ∧
      ∀ i, c'.Mentions i → s'.store.isSolved i = false := by
  have reaches : s.Reaches s' := zonk_within fuel c _ _ ⟨config, _, h⟩
  obtain ⟨store, hrun, rfl⟩ := onStore_ok h
  obtain ⟨-, same, hunsolved⟩ :=
    Store.zonk_traces fuel c acyclic.solutions _ _ (exec_of_run hrun)
  exact ⟨reaches.acyclic acyclic, same, hunsolved c' rfl⟩

/-- Where kinds get defaults, closing a kind leaves nothing unknown in it. -/
theorem closeKind_determined {kind kind' : Kind}
    (h : ((closeKind fuel kind).run config).run s = some (.ok kind', s'))
    (hdefaults : config.defaultKinds = true) (acyclic : s.Acyclic) : kind'.mvars = [] := by
  obtain ⟨zonked, s₁, hzonk, h⟩ := run_bind_ok h
  have reaches : s.Reaches s₁ := closing_within (.zonkKind kind) _ _ ⟨config, _, hzonk⟩
  obtain ⟨_, _, hconfig, h⟩ := run_bind_ok h
  cases hconfig
  rw [if_pos hdefaults] at h
  obtain ⟨store, hrun, rfl⟩ := onStore_ok h
  obtain ⟨⟨k, kinds⟩, hdefault, hr⟩ := Option.map_eq_some_iff.mp hrun
  cases hr
  exact ((reaches.acyclic acyclic).kinds.defaultable_of_run hdefault).2

theorem closeKindsIn_closed (hdefaults : config.defaultKinds = true) (acyclic : s.Acyclic)
    (h : ((closeKindsIn fuel c).run config).run s = some (.ok c', s')) :
    c'.has .kindMVar = false ∧ c.Resembles c' ∧ s'.store.solution? = s.store.solution? := by
  obtain ⟨_, _, hconfig, h⟩ := run_bind_ok h
  cases hconfig
  rw [hdefaults, Bool.true_and] at h
  split at h
  · obtain ⟨store, hrun, rfl⟩ := onStore_ok h
    obtain ⟨kinds, hkinds⟩ := Store.onKindsFuelled_effect ⟨c', hrun⟩
    have halike := Store.defaultKinds_alike hrun acyclic.kinds (refl_of Store.Closes store)
    refine ⟨Store.defaultKinds_kindMVar hrun acyclic.kinds, halike.mono fun _ _ _ => trivial, ?_⟩
    rw [hkinds]
    rfl
  next hhas =>
    cases h
    exact ⟨by simpa using hhas, .refl c, rfl⟩

/-- The end of closing: what is not solved in a constructor is known, or a failure. -/
theorem close_determined {span : Span} (hdefaults : config.defaultKinds = true)
    (acyclic : s.Acyclic) (hc : ∀ i, c.Mentions i → s.store.isSolved i = false)
    (h : ((do
      let c ← closeKindsIn fuel c
      requireKnown fuel span c
      pure c : ElaborateM Con).run config).run s = some (.ok c', s')) : c'.Determined := by
  obtain ⟨closed, s₁, hclosed, h⟩ := run_bind_ok h
  have reaches : s.Reaches s₁ := closeKindsIn_within fuel c _ _ ⟨config, _, hclosed⟩
  obtain ⟨hkinds, hresembles, hsolutions⟩ := closeKindsIn_closed hdefaults acyclic hclosed
  obtain ⟨_, s₂, hknown, h⟩ := run_bind_ok h
  cases h
  obtain ⟨vars, s₃, hvars, hknown⟩ := run_bind_ok hknown
  cases vars with
  | cons var vars => cases hknown
  | nil =>
    obtain ⟨store, hrun, -⟩ := onStore_ok hvars
    refine ⟨Store.has_mvar_of_unsolvedMVars (reaches.acyclic acyclic).kinds (fun i hi => ?_) hrun,
      hkinds⟩
    rw [Store.isSolved, hsolutions]
    exact hc i (hresembles.mentions_iff.mp hi)

theorem closeCon_determined {span : Span}
    (h : ((closeCon fuel span c).run config).run s = some (.ok c', s'))
    (hdefaults : config.defaultKinds = true) (acyclic : s.Acyclic) : c'.Determined := by
  obtain ⟨_, s₁, hforce, h⟩ := run_bind_ok h
  obtain ⟨zonked, s₂, hzonk, h⟩ := run_bind_ok h
  have reaches : s.Reaches s₁ := forceAll_within fuel _ _ ⟨config, _, hforce⟩
  obtain ⟨acyclic₂, -, hunsolved⟩ := zonk_unsolved (reaches.acyclic acyclic) hzonk
  exact close_determined hdefaults acyclic₂ hunsolved h

end Closing

/-! ## What computations leave -/

section Leaves

variable {α β : Type} {P : α → Prop} {Q : β → Prop}

/-- Where kinds get defaults, the computation makes no cycle in a session without cycles, and its
results have the property. -/
def Leaves (x : ElaborateM α) (P : α → Prop) : Prop :=
  ∀ config s result s', (x.run config).run s = some (result, s') → config.defaultKinds = true →
    s.Acyclic → s'.Acyclic ∧ ∀ a, result = .ok a → P a

namespace Leaves

theorem of_runs {x : ElaborateM α} (hx : Within Reaches x)
    (h : ∀ {config s a s'}, (x.run config).run s = some (.ok a, s') → config.defaultKinds = true →
      s.Acyclic → P a) : Leaves x P := by
  intro config s result s' hrun hdefaults acyclic
  refine ⟨(hx s s' ⟨config, _, hrun⟩).acyclic acyclic, ?_⟩
  rintro a rfl
  exact h hrun hdefaults acyclic

theorem pure {a : α} (h : P a) : Leaves (Pure.pure a) P := .of_runs (.pure a) <| by
  rintro config s _ _ ⟨⟩ - -
  exact h

theorem bind {x : ElaborateM α} {f : α → ElaborateM β} (hx : Leaves x P)
    (hf : ∀ a, P a → Leaves (f a) Q) : Leaves (x >>= f) Q := by
  intro config s result s'' hrun hdefaults acyclic
  obtain ⟨⟨first, s'⟩, hx', hf'⟩ :=
    Option.bind_eq_some_iff.mp (show Option.bind ((x.run config).run s) _ = _ from hrun)
  obtain ⟨acyclic', hfirst⟩ := hx config s first s' hx' hdefaults acyclic
  cases first with
  | ok a => exact hf a (hfirst a rfl) config s' result s'' hf' hdefaults acyclic'
  | error diagnostic =>
    cases hf'
    exact ⟨acyclic', nofun⟩

/-- A result of which nothing needs to be known. -/
theorem after {x : ElaborateM α} {f : α → ElaborateM β} (hx : Within Reaches x)
    (hf : ∀ a, Leaves (f a) Q) : Leaves (x >>= f) Q :=
  (of_runs (P := fun _ => True) hx fun _ _ _ => trivial).bind fun a _ => hf a

theorem throw (diagnostic : Diagnostic) : Leaves (throw diagnostic) P :=
  .of_runs (throw_within diagnostic) <| by rintro config s a s' ⟨⟩

theorem fail (span : Span) (cause : Cause) : Leaves (fail span cause) P := throw _

theorem mapM {f : α → ElaborateM β} {as : List α} (h : ∀ a ∈ as, Leaves (f a) Q) :
    Leaves (as.mapM f) fun bs => ∀ b ∈ bs, Q b := by
  induction as with
  | nil => exact pure nofun
  | cons a as ih =>
    rw [List.forall_mem_cons] at h
    rw [List.mapM_cons]
    exact h.1.bind fun b hb => (ih h.2).bind fun bs hbs =>
      pure (List.forall_mem_cons.mpr ⟨hb, hbs⟩)

theorem foldlM {f : β → α → ElaborateM β} (h : ∀ b a, Q b → Leaves (f b a) Q) (as : List α)
    {b : β} (hb : Q b) : Leaves (as.foldlM f b) Q := by
  induction as generalizing b with
  | nil => exact pure hb
  | cons a as ih => exact (h b a hb).bind fun b hb => ih hb

theorem outcome {x : ElaborateM α} (h : Leaves x P) :
    Leaves (Elaborate.outcome x) fun result => ∀ a, result = .ok a → P a := by
  intro config s result s' hrun hdefaults acyclic
  obtain ⟨⟨inner, s₁⟩, hinner, hr⟩ := Option.bind_eq_some_iff.mp hrun
  cases hr
  obtain ⟨acyclic', ha⟩ := h config s inner s' hinner hdefaults acyclic
  refine ⟨acyclic', ?_⟩
  rintro _ ⟨⟩
  exact ha

theorem ensuring {x : ElaborateM α} {after : ElaborateM Unit} (h : Leaves x P)
    (hafter : Within Reaches after) : Leaves (ensuring x after) P := by
  refine h.outcome.bind fun result hresult => .after hafter fun _ => ?_
  cases result with
  | ok a => exact pure (hresult a rfl)
  | error diagnostic => exact throw diagnostic

end Leaves

end Leaves

theorem inScope_leaves {α : Type} {P : α → Prop} {x : ElaborateM α} (h : Leaves x P) :
    Leaves (inScope x) P := by
  refine .after get_within fun s => h.ensuring ?_
  rintro s s' ⟨config, r, heffect⟩
  cases heffect
  exact (Session.Step.rescoped s _).passes.reaches

theorem closeKind_leaves (fuel : Nat) (kind : Kind) :
    Leaves (closeKind fuel kind) fun kind => kind.mvars = [] :=
  .of_runs (closeKind_within fuel kind) closeKind_determined

theorem closeCon_leaves (fuel : Nat) (span : Span) (c : Con) :
    Leaves (closeCon fuel span c) Con.Determined :=
  .of_runs (closeCon_within fuel span c) closeCon_determined

/-! ## Parameters -/

section Parameters

variable {config : Config} {s s' : Session} {c : Con} {fuel : Nat}

/-- A constructor that becomes a parameter waits for nothing. -/
theorem isLiftable_known {skolems : List SkolemId} (acyclic : s.Acyclic)
    (hc : ∀ i, c.Mentions i → s.store.isSolved i = false)
    (h : ((isLiftable fuel skolems c).run config).run s = some (.ok true, s')) :
    c.has .mvar = false := by
  obtain ⟨vars, s₁, hvars, h⟩ := run_bind_ok h
  obtain ⟨store, hrun, -⟩ := onStore_ok hvars
  cases vars with
  | nil => exact Store.has_mvar_of_unsolvedMVars acyclic.kinds hc hrun
  | cons var vars => cases h

theorem liftFact_leaves (skolems : List SkolemId) (left right : Con) (depth : Nat) :
    Leaves (liftFact? fuel skolems left right depth) fun fact =>
      ∀ found ∈ fact, found.left.has .mvar = false ∧ found.right.has .mvar = false := by
  refine .of_runs (liftFact_within fuel skolems left right depth) ?_
  rintro config s fact s' h - acyclic ⟨left', right'⟩ hfound
  obtain rfl := Option.mem_def.mp hfound
  obtain ⟨zleft, s₁, hleft, h⟩ := run_bind_ok h
  obtain ⟨zright, s₂, hright, h⟩ := run_bind_ok h
  obtain ⟨acyclic₁, -, hleft⟩ := zonk_unsolved acyclic hleft
  obtain ⟨acyclic₂, same, hright⟩ := zonk_unsolved acyclic₁ hright
  split at h
  next l r hl hr =>
    obtain ⟨liftable, s₃, hliftable, h⟩ := run_bind_ok h
    cases liftable with
    | false => cases h
    | true =>
      cases h
      have hknown := isLiftable_known acyclic₂ (fun i hi => ?_) hliftable
      · exact ⟨Con.has_of_part hknown (by simp [Con.parts]),
          Con.has_of_part hknown (by simp [Con.parts])⟩
      rcases Con.mentions_iff.mp hi with ⟨_, hmvar⟩ | ⟨p, hp, hmentions⟩
      · cases hmvar
      · rcases List.mem_pair.mp hp with rfl | rfl
        · rw [same]
          exact hleft i (Con.mentions_of_strengthen hl hmentions)
        · exact hright i (Con.mentions_of_strengthen hr hmentions)
  next => cases h

end Parameters

/-- Settling leaves parameters clear that are clear before. -/
def Clears {α : Type} (x : SettleM α) : Prop :=
  ∀ t, t.1.Clear → Leaves (x.run t) fun r => r.2.1.Clear

namespace Clears

variable {α β : Type}

theorem pure (a : α) : Clears (Pure.pure a) := fun _ ht => .pure ht

theorem bind {x : SettleM α} {f : α → SettleM β} (hx : Clears x) (hf : ∀ a, Clears (f a)) :
    Clears (x >>= f) :=
  fun t ht => (hx t ht).bind fun r hr => hf r.1 r.2 hr

theorem lift {x : ElaborateM α} (hx : Within Reaches x) : Clears (liftM x) :=
  fun _ ht => .after hx fun _ => .pure ht

theorem mapM {f : α → SettleM β} (h : ∀ a, Clears (f a)) (as : List α) : Clears (as.mapM f) := by
  induction as with
  | nil => exact pure _
  | cons a as ih =>
    rw [List.mapM_cons]
    exact bind (h a) fun _ => bind ih fun _ => pure _

theorem forM {f : α → SettleM PUnit} (h : ∀ a, Clears (f a)) (as : List α) :
    Clears (as.forM f) := by
  induction as with
  | nil => exact pure _
  | cons a as ih => exact bind (h a) fun _ => ih

theorem fail (span : Span) (cause : Cause) : Clears (liftM (fail span cause) : SettleM α) :=
  lift (fail_within span cause)

end Clears

variable {fuel : Nat}

theorem Clears.of_runs {α : Type} {x : SettleM α} (hx : Within Reaches x)
    (h : ∀ {config s t a t' s'}, ((x.run t).run config).run s = some (.ok (a, t'), s') →
      config.defaultKinds = true → s.Acyclic → t.1.Clear → t'.1.Clear) : Clears x :=
  fun t ht => .of_runs (hx.run_state t) fun hrun hdefaults acyclic => h hrun hdefaults acyclic ht

theorem settleDisjoint_clears (left right : Con) (facts : List Fact) (depth : Nat) (span : Span) :
    Clears (settleDisjoint fuel left right facts depth span) := by
  refine .of_runs (settleDisjoint_within fuel left right facts depth span) ?_
  intro config s t _ t' s' h hdefaults acyclic clear
  obtain ⟨_, _, _, hget, h⟩ := run_state_bind_ok h
  cases hget
  obtain ⟨globals, _, s₁, hglobals, h⟩ := run_state_bind_ok h
  obtain ⟨rfl, hread⟩ := run_lift_ok hglobals
  obtain ⟨result, _, s₂, hcheck, h⟩ := run_state_bind_ok h
  obtain ⟨rfl, hchecked⟩ := run_lift_ok hcheck
  have reaches : s.Reaches s₂ := trans_of Reaches (getGlobals_within _ _ ⟨config, _, hread⟩)
    (onStore_within (.checkDisjoint globals fuel left right facts) _ _ ⟨config, _, hchecked⟩)
  split at h
  · cases h
    exact clear
  · obtain ⟨-, hfail⟩ := run_lift_ok h
    cases hfail
  · obtain ⟨fact, _, s₃, hfact, h⟩ := run_state_bind_ok h
    obtain ⟨rfl, hfound⟩ := run_lift_ok hfact
    split at h
    next fact =>
      cases h
      have hknown := (liftFact_leaves _ _ _ _ _ _ _ _ hfound hdefaults
        (reaches.acyclic acyclic)).2 _ rfl
      refine ⟨fun other hother => ?_, clear.dicts⟩
      rcases of_mem_insertLast hother with hother | rfl
      · exact clear.facts other hother
      · exact hknown _ rfl
    next =>
      obtain ⟨_, _, _, -, h⟩ := run_state_bind_ok h
      obtain ⟨_, _, _, -, h⟩ := run_state_bind_ok h
      obtain ⟨-, hfail⟩ := run_lift_ok h
      cases hfail
  · obtain ⟨-, hfail⟩ := run_lift_ok h
    cases hfail

theorem liftGoal_clears (slot : SlotId) (goal : Con) (depth valDepth : Nat) (span : Span) :
    Clears (liftGoal fuel slot goal depth valDepth span) := by
  refine .of_runs (liftGoal_within fuel slot goal depth valDepth span) ?_
  intro config s t _ t' s' h hdefaults acyclic clear
  obtain ⟨_, _, _, hget, h⟩ := run_state_bind_ok h
  cases hget
  obtain ⟨zonked, _, s₁, hzonk, h⟩ := run_state_bind_ok h
  obtain ⟨rfl, hread⟩ := run_lift_ok hzonk
  obtain ⟨acyclic₁, -, hunsolved⟩ := zonk_unsolved acyclic hread
  split at h
  · obtain ⟨-, hfail⟩ := run_lift_ok h
    cases hfail
  next type htype =>
    obtain ⟨liftable, _, s₂, hliftable, h⟩ := run_state_bind_ok h
    obtain ⟨rfl, hlifted⟩ := run_lift_ok hliftable
    split at h
    next hlift =>
      subst hlift
      cases h
      have hknown := isLiftable_known acyclic₁
        (fun i hi => hunsolved i (Con.mentions_of_strengthen htype hi)) hlifted
      refine ⟨clear.facts, fun c hc => ?_⟩
      rcases of_mem_insertLast hc with hc | rfl
      · exact clear.dicts c hc
      · exact hknown
    next =>
      obtain ⟨-, hfail⟩ := run_lift_ok h
      cases hfail

theorem settle_clears (obligation : Obligation) : Clears (settle fuel obligation) := by
  unfold settle
  simp only
  split
  · exact .bind (.lift (residualCause_within fuel _ _)) fun _ => .fail _ _
  · exact .bind (settleDisjoint_clears _ _ _ _ _) fun _ => .pure _
  · refine .bind (.lift (resolveClass_within fuel _ _ _ _)) fun result => ?_
    split
    · exact .bind (.lift (fillSlot_within _ _)) fun _ => .pure _
    · exact .fail _ _
    · exact .fail _ _
    · exact .bind (liftGoal_clears _ _ _ _ _) fun _ => .pure _
    · exact .bind (liftGoal_clears _ _ _ _ _) fun _ => .pure _
    · exact .fail _ _

theorem settleAll_clears (obligations : List Obligation) : Clears (settleAll fuel obligations) :=
  .bind (.mapM settle_clears obligations) fun _ =>
    .forM (fun obligation => .bind (settle_clears obligation) fun _ => .pure _) _

/-! ## Groups -/

theorem finishType_leaves {finishing : Finishing} (clear : finishing.generalization.Clear)
    (span : Span) (type : Con) : Leaves (finishType finishing span type) Con.Determined := by
  refine .of_runs (finishType_within finishing span type) fun h hdefaults acyclic => ?_
  obtain ⟨zonked, s₁, hzonk, h⟩ := run_bind_ok h
  obtain ⟨acyclic₁, -, hunsolved⟩ := zonk_unsolved acyclic hzonk
  obtain ⟨_, _, hget, h⟩ := run_bind_ok h
  cases hget
  exact close_determined hdefaults acyclic₁ (fun i hi => hunsolved i (clear.mentions_bindType hi)) h

theorem finishGroup_leaves (fuel : Nat) (members : List Member) :
    Leaves (finishGroup fuel members) fun members =>
      ∀ member ∈ members, member.type.Determined := by
  unfold finishGroup
  refine .after (force_within fuel) fun residue => ?_
  refine .after (rejectEquations_within fuel residue) fun _ => .after read_within fun config => ?_
  -- what follows the choice of the quantifiers is the same in both branches
  extract_lets _ rest
  have hrest (skolems : List SkolemId) : Leaves (rest skolems) fun members =>
      ∀ member ∈ members, member.type.Determined := by
    refine (settleAll_clears _ _ (Generalization.clear_empty skolems)).bind fun settled clear => ?_
    refine .after (.forM (fun _ => fillSlot_within _ _) _) fun _ => .mapM fun member _ => ?_
    exact (finishType_leaves clear _ _).bind fun type htype =>
      .after (finishBody_within _ _ _) fun _ => .pure htype
  split
  · exact .after (generalizeTypes_within fuel _) hrest
  · exact .after (.pure _) hrest

/-! ## Declarations -/

theorem declareCon_leaves (fuel : Nat) (span : Span) (name : String) (kind : Option Surface.Kind)
    (definition : Surface.Con) :
    Leaves (declareCon fuel span name kind definition) Declaration.Determined := by
  refine .after beginGroup_within fun _ => ?_
  extract_lets rest
  have hrest (found : Con × Kind) : Leaves (rest found) Declaration.Determined :=
    (closeCon_leaves fuel span _).bind fun definition hdefinition =>
      (closeKind_leaves fuel _).bind fun kind hkind =>
      .after (addDefinition_within _ _ _) fun _ => .after (bindName_within _ _ _) fun _ =>
      .pure ⟨List.forall_mem_singleton.mpr hkind, List.forall_mem_singleton.mpr hdefinition⟩
  cases kind with
  | some kind =>
    exact .after (elaborateKind_within fuel kind) fun _ =>
      .after (checkCon_within fuel definition _) fun _ => .after (.pure _) hrest
  | none => exact .after (inferCon_within fuel definition) hrest

theorem closeKinded_leaves (fuel : Nat) (span : Span) (kind : Kind) (definition : Option Con) :
    Leaves (closeKinded fuel span kind definition) fun closed =>
      closed.1.mvars = [] ∧ ∀ c ∈ closed.2, c.Determined := by
  have hdefinition : Leaves (definition.mapM (closeCon fuel span)) fun definition =>
      ∀ c ∈ definition, c.Determined := by
    cases definition with
    | none => exact .pure nofun
    | some c =>
      exact (closeCon_leaves fuel span c).bind fun c hc => .pure fun d hd => by
        obtain rfl := Option.mem_some.mp hd
        exact hc
  exact hdefinition.bind fun definition hdefinition =>
    (closeKind_leaves fuel kind).bind fun kind hkind => .pure ⟨hkind, hdefinition⟩

theorem declareClass_leaves (fuel : Nat) (span : Span) (name : String) (kind : Option Surface.Kind)
    (definition : Option Surface.Con) :
    Leaves (declareClass fuel span name kind definition) Declaration.Determined :=
  .after beginGroup_within fun _ =>
    .after (elaborateKinded_within fuel _ kind definition) fun r =>
    (closeKinded_leaves fuel span r.1 r.2).bind fun _ hclosed =>
    .after (addDefinition_within _ _ _) fun _ => .after (bindName_within _ _ _) fun _ =>
    .pure ⟨List.forall_mem_singleton.mpr hclosed.1, fun c hc =>
      hclosed.2 c (Option.mem_toList.mp hc)⟩

theorem declareVal_leaves (fuel : Nat) (span : Span) (name : String) (type : Option Surface.Con)
    (body : Surface.Expr) :
    Leaves (declareVal fuel span name type body) Declaration.Determined := by
  refine .after beginGroup_within fun _ => .after (checkTypeOption_within fuel type) fun type => ?_
  refine .after (checkExpr_within fuel body type) fun body => ?_
  refine (finishGroup_leaves fuel _).bind fun members hmembers => ?_
  cases members with
  | nil => exact .fail _ _
  | cons member members =>
    exact .after (addDefinition_within _ _ _) fun _ => .after (bindName_within _ _ _) fun _ =>
      .after (registerValue_within fuel _ _) fun _ =>
      .pure ⟨List.forall_mem_nil _, List.forall_mem_singleton.mpr (hmembers member (by simp))⟩

theorem declareFunctions_leaves (fuel : Nat) (group : List Surface.Function) :
    Leaves (declareFunctions fuel group) Declaration.Determined := by
  refine .after beginGroup_within fun _ => .after (.mapM (elaborateHeader_within fuel) group) ?_
  refine fun headers => .after (.mapM (fun _ => declareProvisionally_within _ _) _) fun ids => ?_
  refine .after (.mapM (fun _ => .bind (elaborateBody_within fuel _ _) fun _ => .pure _) _) ?_
  refine fun members => (finishGroup_leaves fuel members).bind fun finished hfinished => ?_
  refine .after (revise_within (fun _ => rfl) (fun _ => rfl) (fun _ => rfl) fun _ =>
    .of_eq rfl rfl rfl) fun _ => ?_
  have hsettled : Leaves ((ids.zip finished).mapM fun entry =>
      settleProvisional fuel entry.1 entry.2) fun settled =>
        ∀ entry ∈ settled, entry.2.1.Determined :=
    .mapM fun entry hentry => .after (revise_within (fun _ => rfl) (fun _ => rfl) (fun _ => rfl)
      fun _ => .of_eq rfl rfl rfl) fun _ => .after (registerValue_within fuel _ _) fun _ =>
      .pure (hfinished _ (List.of_mem_zip hentry).2)
  exact hsettled.bind fun settled h => .pure ⟨List.forall_mem_nil _, List.forall_mem_map.mpr h⟩

/-- The declarations of the result are determined. -/
def DeclaresDetermined {α : Type} (r : α × List Declaration) : Prop :=
  ∀ decl ∈ r.2, decl.Determined

theorem declaresDetermined_nil {α : Type} (a : α) : DeclaresDetermined (a, []) :=
  List.forall_mem_nil _

theorem recover_leaves (start : Checkpoint) (diagnostic : Diagnostic) :
    Leaves (modify fun session =>
      let session := recover start session
      { session with errors := session.errors ++ [diagnostic] }) fun _ => True := by
  rintro config s _ _ ⟨⟩ - acyclic
  exact ⟨⟨acyclic.solutions, acyclic.kinds⟩, fun _ _ => trivial⟩

/-- What has been declared stays determined if what comes next is determined. -/
theorem addDeclaration_leaves {fuel : Nat} {decl : Surface.Decl}
    (h : Leaves (elaborateDecl fuel decl) Declaration.Determined) (block : Block)
    (hblock : ∀ decl ∈ block.decls, decl.Determined) :
    Leaves (addDeclaration fuel block decl) fun block => ∀ decl ∈ block.decls, decl.Determined := by
  refine .after get_within fun s => h.outcome.bind fun result hresult => ?_
  cases result with
  | ok declared =>
    refine .after get_within fun s' => .pure ?_
    rw [exportDecl_decls]
    exact List.forall_mem_append.mpr ⟨hblock, List.forall_mem_singleton.mpr (hresult _ rfl)⟩
  | error diagnostic =>
    refine (recover_leaves _ diagnostic).bind fun _ _ => .of_runs (poison_within block decl) ?_
    intro config s poisoned s' hrun _ _
    rw [poison_decls block decl config s poisoned s' hrun]
    exact hblock

/-- The five mutually recursive functions with the same fuel. -/
private structure DeclLeaves (fuel : Nat) : Prop where
  decls : ∀ decls, Leaves (elaborateDecls fuel decls) fun block =>
    ∀ decl ∈ block.decls, decl.Determined
  decl : ∀ decl, Leaves (elaborateDecl fuel decl) Declaration.Determined
  str : ∀ name str, Leaves (elaborateStr fuel name str) DeclaresDetermined
  functor : ∀ span name param paramSig result body,
    Leaves (elaborateFunctor fuel span name param paramSig result body) DeclaresDetermined
  body : ∀ span name result body,
    Leaves (functorBody fuel span name result body) DeclaresDetermined

section Declarations

variable {fuel : Nat} (ih : DeclLeaves fuel)
include ih

private theorem elaborateDecls_leaves (decls : List Surface.Decl) :
    Leaves (elaborateDecls (fuel + 1) decls) fun block => ∀ decl ∈ block.decls,
      decl.Determined := by
  rw [elaborateDecls_eq]
  exact .foldlM (fun block decl => addDeclaration_leaves (ih.decl decl) block) decls
    (List.forall_mem_nil _)

private theorem elaborateDecl_leaves (decl : Surface.Decl) :
    Leaves (elaborateDecl (fuel + 1) decl) Declaration.Determined := by
  obtain ⟨node, span⟩ := decl
  unfold elaborateDecl
  cases node with
  | con => exact declareCon_leaves _ _ _ _ _
  | «class» => exact declareClass_leaves _ _ _ _ _
  | val => exact declareVal_leaves _ _ _ _ _
  | functions => exact declareFunctions_leaves _ _
  | signature name sig =>
    exact .after beginGroup_within fun _ => .after (elaborateSignature_within fuel sig) fun _ =>
      .after (qualify_within name) fun _ => .after (addSignature_within _) fun _ =>
      .after (bindName_within _ _ _) fun _ => .pure (.of_nil rfl rfl)
  | «structure» name sig body =>
    refine .after beginGroup_within fun _ => .after getGlobals_within fun globals => ?_
    refine (ih.str name body).bind fun result hresult => ?_
    cases sig with
    | some sig =>
      exact .after (elaborateSignature_within fuel sig) fun _ =>
        .after (sealModule_within _ _ _ _ _ _) fun _ =>
        .after (bindName_within _ _ _) fun _ => .pure (.of_decls hresult _ _)
    | none =>
      exact .after (.pure _) fun _ => .after (bindName_within _ _ _) fun _ =>
        .pure (.of_decls hresult _ _)
  | opened path =>
    refine .after (modulePath_within _ _) fun ref => .after getGlobals_within fun globals => ?_
    split
    · exact .after (.forM (fun _ => bindName_within _ _ _) _) fun _ => .pure (.of_nil rfl rfl)
    · exact .after (.pure _) fun _ => .pure (.of_nil rfl rfl)

private theorem elaborateStr_leaves (name : String) (str : Surface.Str) :
    Leaves (elaborateStr (fuel + 1) name str) DeclaresDetermined := by
  obtain ⟨node, span⟩ := str
  unfold elaborateStr
  cases node with
  | struct decls =>
    refine .after (qualify_within name) fun _ => .after (modify_within fun _ => rfl) fun _ => ?_
    refine (inScope_leaves (ih.decls decls)).bind fun block hblock => ?_
    exact .after (modify_within fun _ => rfl) fun _ => .after (addModule_within _) fun _ =>
      .after (declare_within _ _) fun _ => .pure hblock
  | path path => exact .after (modulePath_within _ _) fun _ => .pure (declaresDetermined_nil _)
  | functor => exact ih.functor _ _ _ _ _ _
  | app path argument =>
    refine .after (moduleOrFunctor_within _ _) fun functor => ?_
    refine .after getGlobals_within fun globals => ?_
    split
    · refine .after (aliasOf_within functor) fun id => ?_
      split
      · exact .after (modulePath_within _ _) fun _ =>
          (Leaves.pure (declaresDetermined_nil _)).bind fun result hresult =>
          .after (applyFunctor_within _ _ _ _ _ _ _ _) fun _ => .pure hresult
      · exact (ih.str _ _).bind fun result hresult =>
          .after (applyFunctor_within _ _ _ _ _ _ _ _) fun _ => .pure hresult
    · exact .pure (declaresDetermined_nil _)
    · exact .fail _ _
  | «sealed» inner sig =>
    exact .after getGlobals_within fun _ => (ih.str name inner).bind fun result hresult =>
      .after (elaborateSignature_within fuel sig) fun _ =>
      .after (sealModule_within _ _ _ _ _ _) fun _ => .pure hresult

private theorem elaborateFunctor_leaves (span : Span) (name param : String)
    (paramSig : Surface.Sig) (result : Option Surface.Sig) (body : Surface.Str) :
    Leaves (elaborateFunctor (fuel + 1) span name param paramSig result body)
      DeclaresDetermined := by
  unfold elaborateFunctor
  refine .after (elaborateSignature_within fuel paramSig) fun paramSig => ?_
  refine .after (addModule_within _) fun paramId => ?_
  refine .after getGlobals_within fun _ => .after getGlobals_within fun _ => ?_
  refine .after get_within fun session => ?_
  refine (inScope_leaves (P := DeclaresDetermined) ?_).outcome.bind fun inner hinner => ?_
  · exact .after (bindName_within _ _ _) fun _ =>
      .after (registerInstances_within fuel _ paramSig) fun _ =>
      .after (modify_within fun _ => rfl) fun _ =>
      .ensuring (ih.body span name result body) (modify_within fun _ => rfl)
  · refine .after (retractInstances_within _) fun _ => ?_
    cases inner with
    | error diagnostic => exact .after (modify_within fun _ => rfl) fun _ => .throw _
    | ok inner =>
      exact .after get_within fun _ => .after (qualify_within name) fun _ =>
        .after (modify_within fun _ => rfl) fun _ => .after getGlobals_within fun _ =>
        .after (addFunctor_within _ _ _ _) fun _ => .pure (hinner _ rfl)

private theorem functorBody_leaves (span : Span) (name : String) (result : Option Surface.Sig)
    (body : Surface.Str) :
    Leaves (functorBody (fuel + 1) span name result body) DeclaresDetermined := by
  unfold functorBody
  refine (ih.str name body).bind fun inner hinner => ?_
  cases result with
  | some result =>
    exact .after (elaborateSignature_within fuel result) fun _ =>
      .after (requireMatch_within _ _ _ _) fun _ => .pure hinner
  | none => exact .after get_within fun _ => .pure hinner

end Declarations

private theorem decl_leaves (fuel : Nat) : DeclLeaves fuel := by
  induction fuel with
  | zero =>
    have noFuel_leaves {α : Type} {P : α → Prop} : Leaves (noFuel : ElaborateM α) P :=
      .of_runs noFuel_within nofun
    exact ⟨fun _ => noFuel_leaves, fun _ => noFuel_leaves, fun _ _ => noFuel_leaves,
      fun _ _ _ _ _ _ => noFuel_leaves, fun _ _ _ _ => noFuel_leaves⟩
  | succ fuel ih =>
    exact ⟨elaborateDecls_leaves ih, elaborateDecl_leaves ih, elaborateStr_leaves ih,
      elaborateFunctor_leaves ih, functorBody_leaves ih⟩

end Elaborate

/-! ## Programs -/

/-- Where kinds get defaults, nothing unknown is left in what a program declares. -/
theorem elaborate_determined {config : Config} {fuel : Nat} {decls : List Surface.Decl}
    {elaborated : Elaborated} (hdefaults : config.defaultKinds = true)
    (h : elaborate config fuel decls = some elaborated) :
    ∀ decl ∈ elaborated.decls, decl.Determined := by
  rw [elaborate_eq] at h
  obtain ⟨⟨result, s⟩, hrun, rfl⟩ := Option.map_eq_some_iff.mp h
  have hleaves := (Elaborate.decl_leaves fuel).decls decls config _ _ _ hrun hdefaults .empty
  cases result with
  | ok block => exact hleaves.2 block rfl
  | error diagnostic => exact nofun

/-- In the store, what a declaration gives is read as it is written: nothing is put in, and the text
names what the store and the global table name. -/
structure Declaration.ReadsIn (decl : Declaration) (store : Store) : Prop where
  kinds : ∀ kind ∈ decl.kinds, (KindStore.zonk kind).run store.kinds = (kind, store.kinds)
  kindTexts : ∀ kind ∈ decl.kinds, store.kinds.render kind = kind.render []
  types : ∀ type ∈ decl.types, ∀ fuel, Store.zonk (fuel + 1) type store = some (type, store)
  typeTexts : ∀ type ∈ decl.types, ∀ fuel globals, Store.render (fuel + 1) globals type store =
    some (type.render (globals.naming store) [] [] .top, store)

/-- What is determined is read as it is written, whatever is stored. -/
theorem Declaration.Determined.readsIn {decl : Declaration} (h : decl.Determined) (store : Store) :
    decl.ReadsIn store where
  kinds kind hkind := KindStore.Spelled.zonk fun v hv => by simp [h.kinds kind hkind] at hv
  kindTexts kind hkind := by
    rw [KindStore.render, KindStore.expand_of_closed (h.kinds kind hkind)]
  types type htype fuel := congrFun ((h.types type htype).zonk_eq fuel) store
  typeTexts type htype fuel globals := by
    rw [Store.render, (h.types type htype).zonk_eq fuel]
    rfl

/-- Where kinds get defaults, what the first declarations give is read in the end as it was read
when they were finished, whatever the later ones have stored. -/
theorem elaborate_append_reads {config : Config} {fuel : Nat} {decls later : List Surface.Decl}
    {whole : Elaborated} (hdefaults : config.defaultKinds = true)
    (h : elaborate config fuel (decls ++ later) = some whole) :
    ∃ first, elaborate config fuel decls = some first ∧ first.Extends whole ∧
      ∀ decl ∈ first.decls, decl.ReadsIn first.store ∧ decl.ReadsIn whole.store := by
  obtain ⟨first, hfirst, hextends⟩ := elaborate_append h
  refine ⟨first, hfirst, hextends, fun decl hdecl => ?_⟩
  have hdecl : decl.Determined := elaborate_determined hdefaults hfirst decl hdecl
  exact ⟨hdecl.readsIn first.store, hdecl.readsIn whole.store⟩

def identityDecl : Surface.Decl :=
  ⟨.con "f" none ⟨.abs "x" none ⟨.var "x", default⟩, default⟩, default⟩

def applicationDecl : Surface.Decl :=
  ⟨.con "g" none ⟨.app ⟨.var "f", default⟩ ⟨.unit, default⟩, default⟩, default⟩

/-- Without defaults a kind that is left open is found out by a later declaration. -/
example :
    let kinds := fun decls =>
      (elaborate { Config.default with defaultKinds := false } 20 decls).map fun elaborated =>
        (elaborated.decls.flatMap Declaration.kinds).map elaborated.store.kinds.expand
    kinds [identityDecl] = some [.arrow (.mvar 0) (.mvar 0)] ∧
      kinds [identityDecl, applicationDecl] = some [.arrow .unit .unit, .unit] := by
  decide +kernel

end RowML
