import RowML.Proofs.Store.Complete
import RowML.Unify.Engine

/-!
# Solving by a complete constructor

A metavariable without a spine is solved as soon as it is unified with a constructor that has its
kind and of which everything is known.
-/

namespace RowML

variable {globals : Globals} {store store' : Store} {v : MetaId} {c other : Con} {kind : Kind}

/-! ## Head normal forms -/

theorem headNormal_unsolved (globals : Globals) (hv : store.solution? v = none) (fuel : Nat) :
    headNormal globals (fuel + 1) (.mvar v []) store = some (.mvar v [], store) :=
  (bind_of_run (lift_run (Store.resolve_of_unsolved hv [])) _).trans rfl

theorem headNormal_record (globals : Globals) (store : Store) (r : Con) (fuel : Nat) :
    headNormal globals (fuel + 1) (.record r) store = some (.record r, store) :=
  (bind_of_run (lift_run (Store.resolve_other (c := .record r) nofun)) _).trans rfl

theorem headNormal_row (globals : Globals) (store : Store) (kind : Kind) (fields : List (Con × Con))
    (fuel : Nat) :
    headNormal globals (fuel + 1) (.row kind fields) store = some (.row kind fields, store) :=
  (bind_of_run (lift_run (Store.resolve_other (c := .row kind fields) nofun)) _).trans rfl

theorem headNormal_label (globals : Globals) (store : Store) (name : String) (fuel : Nat) :
    headNormal globals (fuel + 1) (.label name) store = some (.label name, store) :=
  (bind_of_run (lift_run (Store.resolve_other (c := .label name) nofun)) _).trans rfl

/-- A solved metavariable stands for the literal that solves it. -/
theorem headNormal_solved (globals : Globals) {fields : List (Con × Con)}
    (hv : store.solution? v = some (.row kind fields)) (h : (Con.row kind fields).Complete)
    (fuel : Nat) :
    headNormal globals (fuel + 1) (.mvar v []) store = some (.row kind fields, store) :=
  (bind_of_run (lift_run (Store.resolve_complete hv h)) _).trans rfl

theorem headNormal_concat {l r l' r' : Con} {fuel : Nat}
    (hl : headNormal globals fuel l store = some (l', store))
    (hr : headNormal globals fuel r store = some (r', store)) :
    headNormal globals (fuel + 1) (.concat l r) store = some (Con.concatHeads l' r', store) := by
  rw [headNormal, bind_of_run (lift_run (Store.resolve_other (c := .concat l r) nofun))]
  exact (bind_of_run hl _).trans ((bind_of_run hr _).trans rfl)

/-- A kind is unified with itself. -/
theorem unify_same_kind (store : Store) (kind : Kind) (fuel : Nat) :
    (onKindsFallibly (KindStore.unify (fuel + 1) kind kind)).run store = some (.ok (), store) := by
  have hsame : KindStore.unify (fuel + 1) kind kind = pure () := by
    rw [KindStore.unify, if_pos rfl]
  rw [hsame]
  rfl

namespace Unify

variable {α β : Type} {postponed postponed' : List Postponed}

/-- A computation that unifies goes on with what its first part has led to. -/
theorem run_bind {x : UnifyM α} {a : α}
    (h : x.run.run postponed store = some ((.ok a, postponed'), store')) (f : α → UnifyM β) :
    (x >>= f).run.run postponed store = (f a).run.run postponed' store' :=
  (bind_of_run (x := x.run.run postponed) h fun r => (ExceptT.bindCont f r.1).run r.2).trans rfl

/-- A computation on the store postpones nothing. -/
theorem run_lift {x : FuelM α} {a : α} (h : x store = some (a, store')) :
    (liftM x : UnifyM α).run.run postponed store = some ((.ok a, postponed), store') := by
  have hstate : (x >>= fun a => pure (a, postponed) : FuelM (α × List Postponed)) store =
      some ((a, postponed), store') := (bind_of_run h _).trans rfl
  exact (bind_of_run hstate fun r => pure (Except.ok r.1, r.2)).trans rfl

/-- A complete constructor of the right kind solves a metavariable. -/
theorem solve_of_complete (hzonk : ∀ fuel, Store.zonk (fuel + 2) other store = some (c, store))
    (hc : c.Complete) (hkind : kindOfHead? store c = some kind) (hcell : (store.cell v).kind = kind)
    (hassign : (Store.assign v c).run.run store = (.ok (), store')) (fuel depth : Nat) :
    (solve (fuel + 2) depth v [] other).run.run [] store = some ((.ok (), []), store') := by
  refine (run_bind (a := some []) rfl _).trans ?_
  refine (run_bind (run_lift (hzonk fuel)) _).trans ?_
  rw [hc.renameFor_eq]
  refine (run_bind (a := store) rfl _).trans ?_
  rw [hkind]
  refine (run_bind (a := store) rfl _).trans ?_
  rw [hcell]
  have hkinds : (unifyKinds (fuel + 2) kind kind).run.run [] store = some ((.ok (), []), store) :=
    (run_bind (run_lift (unify_same_kind store kind _)) _).trans rfl
  refine (run_bind hkinds _).trans ?_
  exact (run_bind (run_lift (lift_run hassign)) _).trans rfl

/-! ## Unification -/

theorem unifyAt_solve {fuel depth : Nat} (hv : store.solution? v = none)
    (hhead : headNormal globals (fuel + 1) c store = some (c, store))
    (hc : ∀ w spine, c ≠ .mvar w spine) (herror : c ≠ .error) :
    (unifyAt globals (fuel + 2) depth (.mvar v []) c).run.run [] store =
      (solve (fuel + 1) depth v [] c).run.run [] store := by
  rw [unifyAt, if_neg (hc v []).symm]
  refine (run_bind (run_lift (headNormal_unsolved globals hv fuel)) _).trans ?_
  refine (run_bind (run_lift hhead) _).trans ?_
  rw [if_neg (by simp [(hc v []).symm, herror])]
  unfold unifyHeads
  cases c <;> first | rfl | exact absurd rfl (hc _ _)

theorem unifyAt_record {fuel depth : Nat} {r r' : Con} (h : r ≠ r') :
    (unifyAt globals (fuel + 2) depth (.record r) (.record r')).run.run [] store =
      (unifyAt globals (fuel + 1) depth r r').run.run [] store := by
  rw [unifyAt, if_neg (by simp [h])]
  refine (run_bind (run_lift (headNormal_record globals store r fuel)) _).trans ?_
  refine (run_bind (run_lift (headNormal_record globals store r' fuel)) _).trans ?_
  rw [if_neg (by simp [h])]
  rfl

end Unify

theorem unify_of_unifyAt {a b : Con} {fuel depth : Nat}
    (h : (Unify.unifyAt globals fuel depth a b).run.run [] store = some ((.ok (), []), store')) :
    unify globals fuel depth a b store = some ((.ok (), []), store') :=
  (bind_of_run h _).trans rfl

/-- A metavariable takes a constructor in head normal form that reads as a complete one. -/
theorem unify_unsolved {fuel depth : Nat} (hv : store.solution? v = none)
    (hhead : ∀ fuel, headNormal globals (fuel + 1) other store = some (other, store))
    (hother : ∀ w spine, other ≠ .mvar w spine) (herror : other ≠ .error)
    (hzonk : ∀ fuel, Store.zonk (fuel + 2) other store = some (c, store)) (hc : c.Complete)
    (hkind : Unify.kindOfHead? store c = some kind) (hcell : (store.cell v).kind = kind)
    (hassign : (Store.assign v c).run.run store = (.ok (), store')) :
    unify globals (fuel + 3) depth (.mvar v []) other store = some ((.ok (), []), store') := by
  refine unify_of_unifyAt ?_
  rw [Unify.unifyAt_solve hv (hhead _) hother herror]
  exact Unify.solve_of_complete hzonk hc hkind hcell hassign _ _

/-- The row of a record type that is not known yet takes the fields of a known one. -/
theorem unify_record {fields : List (Con × Con)} {fuel depth : Nat}
    (hv : store.solution? v = none) (hfields : (Con.row .type fields).Complete)
    (hcell : (store.cell v).kind = .typeRow)
    (hassign : (Store.assign v (.row .type fields)).run.run store = (.ok (), store')) :
    unify globals (fuel + 4) depth (.record (.mvar v [])) (.record (.row .type fields)) store =
      some ((.ok (), []), store') := by
  refine unify_of_unifyAt ?_
  have hne : Con.mvar v [] ≠ .row .type fields := nofun
  rw [Unify.unifyAt_record hne,
    Unify.unifyAt_solve hv (headNormal_row globals store .type fields _) nofun nofun]
  exact Unify.solve_of_complete (fun _ => Store.zonk_complete hfields _) hfields rfl hcell hassign
    _ _

end RowML
