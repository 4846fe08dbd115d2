import RowML.Proofs.Store.Termination
import RowML.Unify.Rename

/-!
# Complete constructors

A closed constructor without metavariables has nothing in it that could still be found out: reading
solutions gives it back, and it is its own renaming.  A metavariable without a spine takes any of
them that has its kind.
-/

namespace RowML

/-- A computation goes on with what its first part has led to. -/
theorem bind_of_run {σ α β : Type} {x : Fuelled σ α} {s s' : σ} {a : α} (h : x s = some (a, s'))
    (f : α → Fuelled σ β) : (x >>= f) s = f a s' := by
  change Option.bind _ _ = _
  rw [h]
  rfl

/-- A computation that needs no fuel leads where it leads without fuel. -/
theorem lift_run {σ α : Type} {x : StateM σ α} {s s' : σ} {a : α} (h : x.run s = (a, s')) :
    (liftM x : Fuelled σ α) s = some (a, s') :=
  congrArg some h

/-- A loop of which no step changes anything. -/
theorem mapM_of_run {σ α β : Type} {f : α → Fuelled σ β} {g : α → β} {as : List α} {s : σ}
    (h : ∀ a ∈ as, f a s = some (g a, s)) : as.mapM f s = some (as.map g, s) := by
  induction as with
  | nil => rfl
  | cons a as ih =>
    rw [List.forall_mem_cons] at h
    rw [List.mapM_cons, bind_of_run h.1, bind_of_run (ih h.2)]
    rfl

namespace Con

/-- Nothing unknown is written in the constructor. -/
structure Determined (c : Con) : Prop where
  mvar : c.has .mvar = false
  kindMVar : c.has .kindMVar = false

/-- There is nothing in the constructor that could still be found out. -/
structure Complete (c : Con) : Prop where
  mvar : c.has .mvar = false
  kindMVar : c.has .kindMVar = false
  bound : c.bound = 0

variable {c : Con}

/-- A pass whose hook keeps the whole constructor. -/
theorem rebuildM_eq {m : Type → Type} [Monad m] [LawfulMonad m]
    {node : Depth → Con → m (Option Con)} {kind : Depth → Kind → m Kind} {depth : Depth}
    (h : node depth c = pure (some c)) :
    c.rebuildM node kind depth = pure c := by
  cases c <;> simp [rebuildM, orRebuild, h]

/-- What is determined is read as it is written, whatever is stored. -/
theorem Determined.zonk_eq (h : c.Determined) (fuel : Nat) : Store.zonk (fuel + 1) c = pure c := by
  refine rebuildM_eq ?_
  simp [h.mvar, h.kindMVar]

/-- A node of which all parts are complete. -/
theorem Complete.of_parts (hbvar : ∀ i, c ≠ .bvar i) (hmvar : c.exhibits .mvar = false)
    (hkinds : c.exhibits .kindMVar = false) (hparts : ∀ p ∈ c.parts, p.Complete) :
    c.Complete where
  mvar := by
    refine (has_eq_false_iff (d := Depth.zero)).mpr (Nodes.iff.mpr ⟨hmvar, fun p hp => ?_⟩)
    exact has_eq_false_iff.mp (hparts p hp).mvar
  kindMVar := by
    refine (has_eq_false_iff (d := Depth.zero)).mpr (Nodes.iff.mpr ⟨hkinds, fun p hp => ?_⟩)
    exact has_eq_false_iff.mp (hparts p hp).kindMVar
  bound := by
    refine Nat.le_zero.mp (bound_le_iff_parts.mpr ⟨fun i hi => absurd hi (hbvar i), fun p hp => ?_⟩)
    rw [(hparts p hp).bound]
    exact Nat.zero_le _

namespace Complete

variable {name : String} {l r : Con} {fields : List (Con × Con)}

theorem prim (type : Prim) : (Con.prim type).Complete := .of_parts nofun rfl rfl nofun

theorem label (name : String) : (Con.label name).Complete := .of_parts nofun rfl rfl nofun

theorem record (h : r.Complete) : (Con.record r).Complete :=
  .of_parts nofun rfl rfl (List.forall_mem_singleton.mpr h)

theorem concat (hl : l.Complete) (hr : r.Complete) : (Con.concat l r).Complete :=
  .of_parts nofun rfl rfl (List.forall_mem_cons.mpr ⟨hl, List.forall_mem_singleton.mpr hr⟩)

theorem row (h : ∀ field ∈ fields, field.1.Complete ∧ field.2.Complete) :
    (Con.row .type fields).Complete := by
  refine .of_parts nofun rfl rfl fun p hp => ?_
  obtain ⟨field, hfield, hp⟩ := List.mem_flatMap.mp hp
  rcases List.mem_pair.mp hp with rfl | rfl
  · exact (h field hfield).1
  · exact (h field hfield).2

theorem mvars_eq (h : c.Complete) : c.mvars = [] := mvars_eq_nil_iff.mpr h.mvar

theorem determined (h : c.Complete) : c.Determined := ⟨h.mvar, h.kindMVar⟩

theorem zonk_eq (h : c.Complete) (fuel : Nat) : Store.zonk (fuel + 1) c = pure c :=
  h.determined.zonk_eq fuel

theorem renameFor_eq (h : c.Complete) (target : MetaId) (spine : List Nat) (fuel : Nat) :
    c.renameFor target spine (fuel + 1) = some (c, .start) := by
  unfold renameFor renameAt
  rw [rebuildM_eq]
  · rfl
  · funext state
    by_cases hsettled : state.isSettled <;> simp [h.bound, h.mvar]

theorem instantiate_eq (h : c.Complete) (spine : List Con) : c.instantiate spine = pure c := by
  simp [instantiate, h.bound]

theorem ne_mvar (h : c.Complete) (v : MetaId) (spine : List Con) : c ≠ .mvar v spine := by
  rintro rfl
  have hnode := ((has_eq_false_iff (d := Depth.zero)).mp h.mvar).top
  cases hnode

end Complete

end Con

namespace Store

variable {store : Store} {c c' l l' r r' : Con} {v : MetaId}

/-- A solved metavariable stands for its solution, if that is complete. -/
theorem resolve_complete (hv : store.solution? v = some c) (h : c.Complete) :
    (resolve (.mvar v [])).run store = (c, store) := by
  obtain ⟨n, hn⟩ := Nat.exists_eq_add_one.mpr (Nat.zero_lt_of_lt (lt_of_solution hv))
  have hc : (resolveWithin n c).run store = (c, store) :=
    resolveWithin_unsolved (fun v spine hmvar => absurd hmvar (h.ne_mvar v spine)) n
  change (resolveWithin store.cells.size (.mvar v [])).run store = _
  rw [hn, resolveWithin_solved n [] hv, hc]
  simp only [ne_eq, not_true_eq_false, if_false, h.instantiate_eq]
  rfl

theorem resolve_other (h : ∀ v spine, c ≠ .mvar v spine) : (resolve c).run store = (c, store) :=
  resolveWithin_unsolved (fun v spine hc => absurd hc (h v spine)) _

theorem resolve_of_unsolved (hv : store.solution? v = none) (spine : List Con) :
    (resolve (.mvar v spine)).run store = (.mvar v spine, store) :=
  resolveWithin_unsolved (by rintro _ _ ⟨⟩; simp [isSolved, hv]) _

/-! ## Zonking -/

theorem zonk_complete (h : c.Complete) (fuel : Nat) : zonk (fuel + 1) c store = some (c, store) :=
  congrFun (h.zonk_eq fuel) store

theorem zonk_solved (hv : store.solution? v = some c) (h : c.Complete) (fuel : Nat) :
    zonk (fuel + 2) (.mvar v []) store = some (c, store) := by
  have hhook : (do
      let resolved ← (liftM (resolve (.mvar v [])) : FuelM Con)
      if resolved ≠ Con.mvar v [] then some <$> zonk (fuel + 1) resolved else pure none) store =
        some (some c, store) := by
    rw [bind_of_run (lift_run (resolve_complete hv h)), if_pos (h.ne_mvar v []), h.zonk_eq fuel]
    rfl
  change Option.bind ((do
      let resolved ← (liftM (resolve (.mvar v [])) : FuelM Con)
      if resolved ≠ Con.mvar v [] then some <$> zonk (fuel + 1) resolved else pure none)
      store) _ = _
  rw [hhook]
  rfl

theorem zonk_record (hmvar : Con.has Feature.mvar (.record r) = true) (fuel : Nat)
    (h : zonk (fuel + 1) r store = some (r', store)) :
    zonk (fuel + 1) (.record r) store = some (.record r', store) := by
  have hrebuild : zonk (fuel + 1) (.record r) = (do
      let r ← zonk (fuel + 1) r
      pure (.record r)) := by
    conv_lhs => rw [zonk, Con.rebuildM, Con.orRebuild]
    rw [if_neg (by simp [hmvar])]
    rfl
  rw [hrebuild, bind_of_run h]
  rfl

theorem zonk_concat (hmvar : Con.has Feature.mvar (.concat l r) = true) (fuel : Nat)
    (hl : zonk (fuel + 1) l store = some (l', store))
    (hr : zonk (fuel + 1) r store = some (r', store)) :
    zonk (fuel + 1) (.concat l r) store = some (.concat l' r', store) := by
  have hrebuild : zonk (fuel + 1) (.concat l r) = (do
      let l ← zonk (fuel + 1) l
      let r ← zonk (fuel + 1) r
      pure (.concat l r)) := by
    conv_lhs => rw [zonk, Con.rebuildM, Con.orRebuild]
    rw [if_neg (by simp [hmvar])]
    rfl
  rw [hrebuild, bind_of_run hl, bind_of_run hr]
  rfl

end Store

end RowML
