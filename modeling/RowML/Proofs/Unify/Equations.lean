import RowML.Proofs.Kind.Unification
import RowML.Proofs.Normal.Conversion
import RowML.Proofs.Unify.Renaming
import RowML.Unify.Monad

/-!
# Solving one equation is sound

Unification keeps a store well formed and keeps what the store knows.  An equation has been solved
once nothing is postponed and its sides are convertible; the step that solves a metavariable does so
because renaming inverts instantiation.
-/

namespace RowML

namespace Store

variable {layout : Layout} {store : Store}

/-- The store with another list of solved cells. -/
def withSolved (store : Store) (solved : Array MetaId) : Store := { store with solved }

theorem grows_withSolved (solved : Array MetaId) : store.Grows (store.withSolved solved) := by
  refine ⟨.refl _, Nat.le_refl _, fun _ _ => rfl, fun _ {a b} hab => ?_⟩
  cases hab with
  | intro hsolution hlength => exact .step (.intro hsolution hlength)

theorem WellFormed.withSolved (ok : store.WellFormed layout) (solved : Array MetaId) :
    (store.withSolved solved).WellFormed layout where
  kinds := ok.kinds
  cellKinds := ok.cellKinds
  solutions h := (ok.solutions h).mono (grows_withSolved solved)
  bounds := ok.bounds
  acyclic := ok.acyclic

/-- The store after a successful `assign` to an unsolved cell. -/
def assigned (store : Store) (id : MetaId) (solution : Con) : Store :=
  (store.put id solution).withSolved ((store.put id solution).solved.push id)

/-- An unsolved cell may be solved by a constructor whose metavariables are other unsolved cells. -/
theorem WellFormed.assigned (ok : store.WellFormed layout) {id : MetaId}
    (hid : id < store.cells.size) (hunsolved : store.solution? id = none) {solution : Con}
    (hsound : solution.Sound layout store) (hbound : solution.bound ≤ (store.cell id).arity)
    (hmentions : ∀ j, solution.Mentions j → j ≠ id ∧ store.isSolved j = false) :
    (store.assigned id solution).WellFormed layout ∧
      store.Grows (store.assigned id solution) := by
  obtain ⟨rank, hrank⟩ := ok.acyclic
  -- unsolved cells at the bottom, then the new solution, then the old ones
  let rank' : MetaId → Nat := fun i =>
    if i = id then 1 else if store.isSolved i then rank i + 2 else 0
  have acyclic : Ranks (store.put id solution).Leads rank' := by
    rintro i j ⟨x, hx, hj⟩
    rw [solution?_put hid] at hx
    split at hx
    next h =>
      cases hx
      obtain ⟨hne, hunsolved⟩ := hmentions j hj
      simp [rank', h, hne, hunsolved]
    next h =>
      have hsolved : store.isSolved i = true := by simp [isSolved, hx]
      have := hrank i j ⟨x, hx, hj⟩
      simp only [rank', h, hsolved, if_true, if_false]
      split_ifs <;> omega
  have ok' := ok.put hid hsound hbound ⟨rank', acyclic⟩
  have grows := grows_put hid ok' fun _ x hx => absurd (hunsolved.symm.trans hx) (by simp)
  exact ⟨ok'.withSolved _, grows.trans (grows_withSolved _)⟩

theorem solution?_assigned {id : MetaId} (hid : id < store.cells.size) (solution : Con) :
    (store.assigned id solution).solution? id = some solution :=
  (solution?_put hid solution id).trans (if_pos rfl)

theorem assign_run (store : Store) (id : MetaId) (solution : Con) :
    (assign id solution).run.run store =
      match store.solution? id with
      | some existing =>
        (if existing = solution then .ok () else .error ⟨id, existing, solution⟩, store)
      | none => (.ok (), store.assigned id solution) := by
  have hget : (assign id solution).run.run store = (match store.solution? id with
      | some existing => if existing = solution then pure () else throw ⟨id, existing, solution⟩
      | none => do
        setSolution id (some solution)
        modify fun store => { store with solved := store.solved.push id } :
        ExceptT AssignError StoreM Unit).run.run store := rfl
  rw [hget]
  rcases store.solution? id with _ | existing
  · rfl
  · simp only
    split <;> rfl

/-! ## New cells -/

/-- The store after `freshWithSpine`. -/
def extended (store : Store) (kind : Kind) (arity : Nat) : Store :=
  { store with cells := store.cells.push ⟨kind, arity, none⟩ }

theorem cell_extended (kind : Kind) (arity : Nat) (i : MetaId) :
    (store.extended kind arity).cell i =
      if i = store.cells.size then ⟨kind, arity, none⟩ else store.cell i := by
  unfold cell extended
  rw [Array.getElem?_push]
  split <;> rfl

theorem solution?_extended (kind : Kind) (arity : Nat) (i : MetaId) :
    (store.extended kind arity).solution? i = store.solution? i := by
  unfold solution?
  rw [cell_extended]
  split
  next h =>
    rw [cell, Array.getElem?_eq_none (Nat.le_of_eq h.symm)]
    rfl
  next => rfl

theorem grows_extended (kind : Kind) (arity : Nat) : store.Grows (store.extended kind arity) := by
  have hcell : ∀ i < store.cells.size, (store.extended kind arity).cell i = store.cell i := by
    intro i hi
    rw [cell_extended, if_neg (Nat.ne_of_lt hi)]
  refine ⟨.refl _, ?_, fun i hi => by rw [hcell i hi], fun _ {a b} hab => ?_⟩
  · simp [extended]
  · cases hab with
    | intro hsolution hlength =>
      refine .step (.intro ((solution?_extended _ _ _).trans hsolution) ?_)
      rw [hcell _ (lt_of_solution hsolution), hlength]

theorem WellFormed.extended (ok : store.WellFormed layout) {kind : Kind}
    (hkind : kind.Sound store.kinds.vars.size) (arity : Nat) :
    (store.extended kind arity).WellFormed layout where
  kinds := ok.kinds
  cellKinds i hi := by
    rw [cell_extended]
    split
    · exact hkind
    next h =>
      simp only [Store.extended, Array.size_push] at hi
      exact ok.cellKinds i (Nat.lt_of_le_of_ne (Nat.le_of_lt_succ hi) h)
  solutions h := by
    rw [solution?_extended] at h
    exact (ok.solutions h).mono (grows_extended kind arity)
  bounds h := by
    rw [solution?_extended] at h
    rw [cell_extended, if_neg (Nat.ne_of_lt (lt_of_solution h))]
    exact ok.bounds h
  acyclic := by
    obtain ⟨rank, hrank⟩ := ok.acyclic
    refine ⟨rank, ?_⟩
    rintro i j ⟨x, hx, hj⟩
    exact hrank i j ⟨x, (solution?_extended kind arity i).symm.trans hx, hj⟩

theorem freshWithSpine_yields (ok : store.WellFormed layout) {kind : Kind} {spine : List Con}
    (hkind : kind.Sound store.kinds.vars.size) (hspine : ∀ a ∈ spine, a.Sound layout store) :
    Yields (discipline layout) store (freshWithSpine kind spine) fun c store' =>
      c.Sound layout store' := by
  have grows := store.grows_extended kind spine.length
  have hrun : exec (freshWithSpine kind spine) store =
      some (some (.mvar store.cells.size spine), store.extended kind spine.length) := rfl
  refine Yields.of_exec hrun (ok.extended hkind spine.length) grows ?_
  refine .intro ⟨by simp, ?_, by simp [Con.annotations], trivial⟩ fun a ha =>
    (hspine a ha).mono grows
  rintro _ _ ⟨⟩
  refine ⟨by simp [Store.extended], ?_⟩
  rw [cell_extended, if_pos rfl]

theorem fresh_yields (ok : store.WellFormed layout) {kind : Kind} (depth : Nat)
    (hkind : kind.Sound store.kinds.vars.size) :
    Yields (discipline layout) store (fresh kind depth) fun c store' => c.Sound layout store' := by
  refine freshWithSpine_yields ok hkind fun a ha => ?_
  obtain ⟨i, -, rfl⟩ := List.mem_map.mp ha
  exact Con.bvar_sound i

end Store

namespace Unify

variable {globals : Globals} {layout : Layout} {state state' : List Postponed × Store}

/-! ## Equations and their solutions -/

/-- The second state knows all that the first one knows and still has its postponed equations. -/
structure Advances (state state' : List Postponed × Store) : Prop where
  postponed : state.1 <+: state'.1
  store : state.2.Grows state'.2

/-- The discipline of unification. -/
def discipline (layout : Layout) : Discipline (List Postponed × Store) where
  Ok state := state.2.WellFormed layout
  Grows := Advances
  refl state _ := ⟨List.prefix_rfl, .refl state.2⟩
  trans _ _ _ h h' := ⟨h.postponed.trans h'.postponed, h.store.trans h'.store⟩

/-- Nothing is postponed, and no kind that has been found has a free variable. -/
def Settled (state : List Postponed × Store) : Prop := state.1 = [] ∧ state.2.kinds.Closed

theorem Advances.settled (h : Advances state state') (hsettled : Settled state') : Settled state :=
  ⟨List.prefix_nil.mp (hsettled.1 ▸ h.postponed), h.store.kinds.closed hsettled.2⟩

/-- The equation has been solved unless something is postponed. -/
def Solved (globals : Globals) (a b : Con) (state : List Postponed × Store) : Prop :=
  Settled state → Convertible globals state.2 a b

theorem Solved.advances {a b : Con} (h : Solved globals a b state)
    (advances : Advances state state') :
    Solved globals a b state' := fun hsettled =>
  (h (advances.settled hsettled)).lift advances.store hsettled.2

theorem Solved.symm {a b : Con} (h : Solved globals a b state) : Solved globals b a state :=
  fun hsettled => (h hsettled).symm

/-- A computation over the store alone. -/
theorem yields_of_store {m : Type → Type} [Monad m] [Executes m Store] {α : Type} {x : UnifyM α}
    {y : m α} {Post : α → Store → Prop}
    (h : exec x state = (exec y state.2).map fun r => (r.1, state.1, r.2))
    (hy : Yields (Store.discipline layout) state.2 y Post) :
    Yields (discipline layout) state x fun a state' => Post a state'.2 := by
  intro r state' hexec
  rw [h, Option.map_eq_some_iff] at hexec
  obtain ⟨⟨r, store'⟩, hrun, hstate⟩ := hexec
  cases hstate
  obtain ⟨ok, grows, post⟩ := hy r store' hrun
  exact ⟨ok, ⟨List.prefix_rfl, grows⟩, post⟩

theorem exec_fuelM {α : Type} (x : FuelM α) (state : List Postponed × Store) :
    exec (liftM x : UnifyM α) state = (exec x state.2).map fun r => (r.1, state.1, r.2) := by
  change Option.map _ (Option.map _ (Option.bind (Option.bind (x state.2) _) _)) =
    Option.map _ (Option.map _ (x state.2))
  rcases x state.2 with _ | ⟨a, store⟩ <;> rfl

theorem exec_storeM {α : Type} (x : StoreM α) (state : List Postponed × Store) :
    exec (liftM x : UnifyM α) state = (exec x state.2).map fun r => (r.1, state.1, r.2) :=
  rfl

theorem postpone_yields (ok : state.2.WellFormed layout) {depth : Nat} {a b a' b' : Con}
    {blockers : List MetaId} :
    Yields (discipline layout) state (postpone depth a b blockers) fun _ state' =>
      Solved globals a' b' state' := by
  have hrun : exec (postpone depth a b blockers) state =
      some (some (), state.1 ++ [⟨a, b, depth, blockers⟩], state.2) := rfl
  refine Yields.of_exec hrun ok ⟨List.prefix_append _ _, .refl state.2⟩ fun hsettled => ?_
  exact absurd hsettled.1 (by simp)

theorem mismatch_yields {α : Type} {Post : α → List Postponed × Store → Prop}
    (ok : state.2.WellFormed layout) {a b : Con} {reason : MismatchReason} :
    Yields (discipline layout) state (mismatch a b reason : UnifyM α) Post :=
  Yields.of_failure ok rfl

/-! ## Kinds -/

theorem exec_unifyKinds (fuel : Nat) (k k' : Kind) (state : List Postponed × Store) :
    exec (unifyKinds fuel k k') state =
      (exec (KindStore.unify fuel k k') state.2.kinds).map fun r =>
        (r.1, state.1, state.2.withKinds r.2) := by
  have hrun : exec (onKindsFallibly (KindStore.unify fuel k k')).run state.2 =
      ((KindStore.unify fuel k k').run state.2.kinds).map fun r =>
        (some r.1, state.2.withKinds r.2) := by
    change Option.map _ (Option.map _ _) = _
    rw [Option.map_map]
    rfl
  have hkinds : exec (KindStore.unify fuel k k') state.2.kinds =
      ((KindStore.unify fuel k k').run state.2.kinds).map fun r => (succeeded r.1, r.2) := by
    change Option.map _ (Option.map _ _) = _
    rw [Option.map_map]
    rfl
  unfold unifyKinds
  rw [exec_bind, exec_fuelM, hrun, hkinds]
  rcases (KindStore.unify fuel k k').run state.2.kinds with _ | ⟨_ | _, kinds⟩ <;> rfl

/-- Unifying kinds changes nothing but kinds. -/
theorem unifyKinds_yields (fuel : Nat) {k k' : Kind} (ok : state.2.WellFormed layout)
    (hk : k.Sound state.2.kinds.vars.size) (hk' : k'.Sound state.2.kinds.vars.size) :
    Yields (discipline layout) state (unifyKinds fuel k k') fun _ state' =>
      state.2.Reads state'.2 ∧ KindConv state'.2.kinds k k' := by
  intro r state' hexec
  rw [exec_unifyKinds, Option.map_eq_some_iff] at hexec
  obtain ⟨⟨r, kinds⟩, hrun, hstate⟩ := hexec
  cases hstate
  obtain ⟨okKinds, grows, post⟩ := KindStore.unify_yields fuel ok.kinds hk hk' r kinds hrun
  have reads := Store.Reads.withKinds grows
  exact ⟨ok.withKinds okKinds grows, ⟨List.prefix_rfl, reads.toGrows⟩, fun a ha =>
    ⟨reads, post a ha⟩⟩

theorem kindOfHead_sound {store : Store} {c : Con} {k : Kind} (ok : store.WellFormed layout)
    (hc : c.Sound layout store) (h : kindOfHead? store c = some k) :
    k.Sound store.kinds.vars.size := by
  have leaf : ∀ {k : Kind}, k ≠ .error → (∀ v, k ≠ .mvar v) → k.parts = [] →
      k.Sound store.kinds.vars.size := fun hne hvar hparts =>
    .intro ⟨hne, fun v hv => absurd hv (hvar v)⟩ (by simp [hparts])
  cases c with
  | mvar id spine =>
    cases h
    exact ok.cellKinds id (hc.top.mvar rfl).1
  | row k fields =>
    cases h
    have hk : k.Sound store.kinds.vars.size := hc.kind (by simp [Con.annotations])
    exact .intro ⟨by simp, by simp⟩ (List.forall_mem_singleton.mpr hk)
  | prim | arrow | poly | kpoly | disjoint | record | variant | unit | label =>
    cases h
    exact leaf (by simp) (by simp) rfl
  | _ => cases h

/-! ## Patterns -/

/-- The elements of a spine that stand for variables, and the variables. -/
def Pattern (store : Store) (spine : List Con) (vars : List Nat) : Prop :=
  List.Forall₂ (fun c v => store.kinds.Closed → store.Same c (.bvar v)) spine vars

theorem patternVars_yields {store : Store} (ok : store.WellFormed layout) {spine : List Con}
    (hspine : ∀ c ∈ spine, c.Sound layout store) :
    Yields (Store.reading layout) store (patternVars spine) fun found store' =>
      ∀ vars, found = some vars → Pattern store' spine vars := by
  have hgo : ∀ (rest : List Con) (seen : List Nat) {store : Store}, store.WellFormed layout →
      (∀ c ∈ rest, c.Sound layout store) →
      Yields (Store.reading layout) store (patternVars.go seen rest) fun found store' =>
        ∀ vars, found = some vars → ∃ vars', vars = seen.reverse ++ vars' ∧
          Pattern store' rest vars' := by
    intro rest
    induction rest with
    | nil =>
      intro seen store ok _
      refine Yields.pure ok ?_
      rintro _ ⟨⟩
      exact ⟨[], by simp, .nil⟩
    | cons c rest ih =>
      intro seen store ok hrest
      refine Yields.bind ok (Store.resolve_yields ok (hrest c (by simp))) ?_
      intro r store₁ ok₁ reads₁ resolved
      split
      next i =>
        split
        · exact Yields.pure ok₁ (by simp)
        · have hrest₁ : ∀ c ∈ rest, c.Sound layout store₁ := fun c hc =>
            (hrest c (List.mem_cons_of_mem _ hc)).mono reads₁.toGrows
          refine (ih (i :: seen) ok₁ hrest₁).mono fun found store₂ _ reads₂ h vars hvars => ?_
          obtain ⟨vars', rfl, hpattern⟩ := h vars hvars
          refine ⟨i :: vars', by simp, .cons (fun hclosed => ?_) hpattern⟩
          exact reads₂.lift hclosed (resolved.same (reads₂.kinds.closed hclosed))
      · exact Yields.pure ok₁ (by simp)
  refine (hgo spine [] ok hspine).mono fun found store' _ _ h vars hvars => ?_
  obtain ⟨vars', rfl, hpattern⟩ := h vars hvars
  exact hpattern

theorem Pattern.same {store : Store} {spine : List Con} {vars : List Nat}
    (h : Pattern store spine vars) (hclosed : store.kinds.Closed) (v : MetaId) :
    store.Same (.mvar v spine) (.mvar v (Con.varSpine vars)) :=
  .mvar v (List.forall₂_map_right_iff.mpr (h.imp fun _ _ hc => hc hclosed))

theorem Pattern.grows {store store' : Store} {spine : List Con} {vars : List Nat}
    (h : Pattern store spine vars) (grows : store.Grows store') : Pattern store' spine vars :=
  h.imp fun _ _ hc hclosed => grows.lift hclosed (hc (grows.kinds.closed hclosed))

theorem unsolvedHeads_yields {store : Store} (ok : store.WellFormed layout) {spine : List Con}
    (hspine : ∀ c ∈ spine, c.Sound layout store) :
    Yields (Store.reading layout) store (unsolvedHeads spine) fun _ _ => True := by
  have hheads : Yields (Store.reading layout) store (spine.mapM Store.unsolvedHead)
      fun heads _ => List.Forall₂ (fun _ _ => True) spine heads := by
    refine Yields.mapM ok (fun _ _ h => h) fun c hc store' ok' reads => ?_
    refine Yields.bind ok' (Store.resolve_yields ok' ((hspine c hc).mono reads.toGrows)) ?_
    intro r store'' ok'' _ _
    split <;> exact Yields.pure ok'' trivial
  exact Yields.bind ok hheads fun _ _ ok' _ _ => Yields.pure ok' trivial

/-! ## Solving a metavariable -/

/-- The renamed solution fits the cell and makes the occurrence convertible to the other side. -/
theorem assign_yields {id : MetaId} {spine : List Con} {vars : List Nat}
    {other zonked solution : Con} (ok : state.2.WellFormed layout)
    (hmvar : (Con.mvar id spine).Sound layout state.2) (hpattern : Pattern state.2 spine vars)
    (hzonked : Store.Zonked layout state.2 other zonked)
    (hrenamed : Con.Renamed id vars Depth.zero zonked solution) :
    Yields (discipline layout) state (do
      match ← (Store.assign id solution).run with
      | .ok () => pure ()
      | .error _ => mismatch (.mvar id spine) other .structural : UnifyM Unit) fun _ state' =>
      Solved globals (.mvar id spine) other state' := by
  obtain ⟨hid, hlength⟩ := hmvar.top.mvar rfl
  have hvars : vars.length = (state.2.cell id).arity := hpattern.length_eq ▸ hlength
  have hsolved : ∀ {store' : Store}, state.2.Grows store' → store'.solution? id = some solution →
      store'.kinds.Closed → Convertible globals store' (.mvar id spine) other := by
    intro store' grows hsolution hclosed
    have hspine : store'.Same (.mvar id spine) (.mvar id (Con.varSpine vars)) :=
      (hpattern.grows grows).same hclosed id
    have hunfold : store'.Same (.mvar id (Con.varSpine vars)) zonked := by
      rw [← hrenamed.instantiates]
      refine .step (.intro hsolution ?_)
      rw [Con.length_varSpine, grows.arity id hid, hvars]
    have hother : store'.Same other zonked :=
      grows.lift hclosed (hzonked.same (grows.kinds.closed hclosed))
    exact .of_same ((hspine.trans hunfold).trans hother.symm)
  have hassign : exec (liftM (Store.assign id solution).run : UnifyM _) state =
      some (some ((Store.assign id solution).run.run state.2).1, state.1,
        ((Store.assign id solution).run.run state.2).2) := rfl
  rw [Store.assign_run] at hassign
  rcases hid' : state.2.solution? id with _ | existing
  · have hrun : exec (liftM (Store.assign id solution).run : UnifyM _) state =
        some (some (.ok ()), state.1, state.2.assigned id solution) := by
      rw [hassign, hid']
    have hsound : solution.Sound layout state.2 :=
      .of_instantiatedAt (hrenamed.instantiates ▸ hzonked.sound)
    have hbound : solution.bound ≤ (state.2.cell id).arity := hvars ▸ hrenamed.bound
    have hmentions : ∀ j, solution.Mentions j → j ≠ id ∧ state.2.isSolved j = false := by
      intro j hj
      refine ⟨fun h => hrenamed.avoids (h ▸ hj), hzonked.unsolved ?_⟩
      rw [← hrenamed.instantiates]
      exact hj.traverse _
    obtain ⟨ok', grows⟩ := ok.assigned hid hid' hsound hbound hmentions
    refine Yields.next hrun ok ok' ⟨List.prefix_rfl, grows⟩ ?_
    refine Yields.pure ok' fun hsettled => hsolved grows ?_ hsettled.2
    exact Store.solution?_assigned hid solution
  · have hrun : exec (liftM (Store.assign id solution).run : UnifyM _) state =
        some (some (if existing = solution then .ok () else .error ⟨id, existing, solution⟩),
          state) := by
      rw [hassign, hid']
    refine Yields.read hrun ok ?_
    split_ifs with h
    · exact Yields.pure ok fun hsettled => hsolved (.refl _) (h ▸ hid') hsettled.2
    · exact mismatch_yields ok

theorem solve_yields (fuel depth : Nat) {id : MetaId} {spine : List Con} {other : Con}
    (ok : state.2.WellFormed layout) (hmvar : (Con.mvar id spine).Sound layout state.2)
    (hother : other.Sound layout state.2) :
    Yields (discipline layout) state (solve fuel depth id spine other) fun _ state' =>
      Solved globals (.mvar id spine) other state' := by
  have hspine : ∀ c ∈ spine, c.Sound layout state.2 := fun c hc => hmvar.part hc
  refine Yields.bind ok (yields_of_store (exec_storeM _ _)
    (patternVars_yields ok hspine).of_reading) ?_
  rintro found state₁ ok₁ - ⟨reads₁, hfound⟩
  have hmvar₁ := hmvar.mono reads₁.toGrows
  have hother₁ := hother.mono reads₁.toGrows
  rcases found with _ | vars
  · refine Yields.bind ok₁ (yields_of_store (exec_storeM _ _) (unsolvedHeads_yields ok₁
      fun c hc => hmvar₁.part hc).of_reading) ?_
    intro heads state₂ ok₂ _ _
    exact postpone_yields ok₂
  have hpattern : Pattern state₁.2 spine vars := hfound vars rfl
  refine Yields.bind ok₁ (yields_of_store (exec_fuelM _ _)
    (Store.zonk_yields fuel ok₁ hother₁).of_reading) ?_
  rintro zonked state₂ ok₂ - ⟨reads₂, hzonked⟩
  have hmvar₂ := hmvar₁.mono reads₂.toGrows
  have hpattern₂ := hpattern.grows reads₂.toGrows
  split
  next => exact Yields.of_none rfl
  next solution rename hrename =>
  split
  next => exact mismatch_yields ok₂
  next => exact mismatch_yields ok₂
  next => exact postpone_yields ok₂
  next houtcome =>
    have hrenamed := Con.renamed_of_renameFor hrename houtcome
    have hsolution : solution.Sound layout state₂.2 :=
      .of_instantiatedAt (hrenamed.instantiates ▸ hzonked.sound)
    refine Yields.read (rfl : exec getStore state₂ = some (some state₂.2, state₂)) ok₂ ?_
    split
    next kind hkind =>
      refine Yields.read (rfl : exec getStore state₂ = some (some state₂.2, state₂)) ok₂ ?_
      refine Yields.bind ok₂ (unifyKinds_yields fuel ok₂
        (ok₂.cellKinds id (hmvar₂.top.mvar rfl).1) (kindOfHead_sound ok₂ hsolution hkind)) ?_
      rintro _ state₃ ok₃ - ⟨reads₃, -⟩
      exact assign_yields ok₃ (hmvar₂.mono reads₃.toGrows) (hpattern₂.grows reads₃.toGrows)
        (hzonked.grows reads₃) hrenamed
    next => exact assign_yields ok₂ hmvar₂ hpattern₂ hzonked hrenamed

end Unify

end RowML
