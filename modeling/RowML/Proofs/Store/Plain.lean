import RowML.Constructor.Shift
import RowML.Module.Reference
import RowML.Proofs.Constructor.Pool
import RowML.Proofs.Constructor.Step
import RowML.Proofs.Store.Lockstep
import RowML.Proofs.Store.Spelling
import RowML.Store.Zonk

/-!
# Passes that skip nothing

Bound and features of a constructor let a pass return a part as it is.  Each of these passes is
written here once more as the recursion over all nodes, which looks at nothing but the node.  Where
a pass goes by the bound, or by a feature that is written in the nodes, the two are the same
computation.  Shifting kinds goes by what is written in an annotation, while the annotation may lead
through a link to more.  There the two do the same if the annotations are spelled out, and they
agree up to links that the one has followed and the other has not if no annotation hides a kind
variable.
-/

namespace RowML

namespace Con

/-! ## The passes without skipping -/

namespace Plain

/-- What a pass does to a variable under the binders around it; it looks at no other node. -/
def onVars {m : Type → Type} [Monad m] (vars : Depth → Nat → m Con) (depth : Depth) :
    Con → m (Option Con)
  | .bvar i => some <$> vars depth i
  | _ => pure none

theorem onVars_of_ne {m : Type → Type} [Monad m] {vars : Depth → Nat → m Con} {depth : Depth}
    {c : Con} (h : ∀ i, c ≠ .bvar i) : onVars vars depth c = pure none := by
  cases c with
  | bvar i => exact absurd rfl (h i)
  | _ => rfl

/-- Rebuilds a constructor around its variables. -/
def replaceM {m : Type → Type} [Monad m] (vars : Depth → Nat → m Con) (c : Con) : m Con :=
  c.rebuildM (onVars vars) (fun _ k => pure k) Depth.zero

def liftAbove (c : Con) (amount cutoff : Nat) : Con :=
  Id.run <|
    replaceM (fun depth i => pure (.bvar (if cutoff + depth.con ≤ i then i + amount else i))) c

/-- Shifts the variables of a kind that are at or above `cutoff`, in whatever the kind leads to. -/
def liftKind (k : Kind) (amount cutoff : Nat) : KindM Kind :=
  KindStore.rebuild (fun _ => false)
    (fun depth i => pure (.bvar (if cutoff + depth ≤ i then i + amount else i))) k

def liftKinds (c : Con) (amount : Nat) : KindM Con :=
  c.rebuildM (onVars fun _ i => pure (.bvar i)) (fun depth k => liftKind k amount depth.kind)
    Depth.zero

def weaken (c : Con) (depth : Depth) : KindM Con := liftKinds (liftAbove c depth.con 0) depth.kind

/-- A variable of a body, with `argument` for the innermost one; `weaken` moves it under binders. -/
def substVar (weaken : Con → Depth → KindM Con) (argument : Con) (depth : Depth) (i : Nat) :
    KindM Con :=
  if i < depth.con then pure (.bvar i)
  else if i = depth.con then weaken argument depth
  else pure (.bvar (i - 1))

def subst (body argument : Con) : KindM Con := replaceM (substVar weaken argument) body

/-- A variable of a solution, with the spine for its outermost ones. -/
def spineVar (weaken : Con → Depth → KindM Con) (spine : List Con) (depth : Depth) (i : Nat) :
    KindM Con :=
  if i < depth.con then pure (.bvar i)
  else
    match spine.reverse[i - depth.con]? with
    | some argument => weaken argument depth
    | none => pure (.bvar (i - spine.length))

def instantiate (solution : Con) (spine : List Con) : KindM Con :=
  replaceM (spineVar weaken spine) solution

def strengthen (c : Con) (amount : Nat) : Option Con :=
  replaceM
    (fun depth i =>
      if i < depth.con then some (.bvar i)
      else if i - depth.con < amount then none
      else some (.bvar (i - amount)))
    c

def substModules (c : Con) (first : Nat) (refs : List ModuleRef) : Con :=
  c.rebuild fun _ node =>
    match node with
    | .relative level path item =>
      if level < first then some node
      else
        match refs[level - first]? with
        | some target => some (.member target.module (target.path ++ path) item)
        | none => some (.relative (level - refs.length) path item)
    | _ => none

def abstractModules (c : Con) (level : Nat) (map : Abstraction) : Con :=
  c.rebuild fun _ node =>
    match node with
    | .global id =>
      (map.definitions.lookup id).map fun (anchor, item) =>
        .relative (level + anchor.up) anchor.path item
    | .member module path item =>
      (map.modules.lookup module).map fun anchor =>
        .relative (level + anchor.up) (anchor.path ++ path) item
    | _ => none

def abstractSkolems (c : Con) (skolems : List SkolemId) (base : Nat) : Con :=
  c.rebuild fun depth node =>
    match node with
    | .skolem s =>
      (skolems.idxOf? s).map fun j => .bvar (depth.con + base + (skolems.length - 1 - j))
    | _ => none

end Plain

/-! ## Skipping by the bound -/

section Bound

variable {m : Type → Type} [Monad m] [LawfulMonad m] {vars : Depth → Nat → m Con}
  {node : Depth → Con → m (Option Con)} {cutoff : Nat}

/-- A pass over variables and annotations that neither fails nor touches a state is a traversal. -/
theorem rebuildM_onVars {vars' : Depth → Nat → Con} {kinds : Depth → Kind → Kind} {d : Depth}
    {c : Con} (h : Nodes (fun e n => ∀ i, n = .bvar i → vars e i = pure (vars' e i)) d c) :
    c.rebuildM (Plain.onVars vars) (fun e k => pure (kinds e k)) d =
      pure (c.traverse vars' kinds d) := by
  induction h with
  | @intro d c top _ ih =>
    by_cases hbvar : ∃ i, c = .bvar i
    · obtain ⟨i, rfl⟩ := hbvar
      rw [rebuildM_step, Plain.onVars, top i rfl, map_pure, orRebuild_some, traverse_bvar]
    · have hbvar : ∀ i, c ≠ .bvar i := fun i hi => hbvar ⟨i, hi⟩
      have hparallel := parallel_map (fun p => p.traverse vars' kinds (d + c.binders)) (kinds d) c
      rw [rebuildM_step, Plain.onVars_of_ne hbvar, orRebuild_none,
        mapChildrenM_congr ih fun _ _ => rfl, mapChildrenM_pure]
      refine congrArg pure (eq_of_frame ?_ ?_ ?_)
      · rw [frame_traverse hbvar, hparallel.frame]
      · rw [annotations_traverse hbvar]
        exact (map_eq_of_forall₂ hparallel.annotations).symm
      · rw [parts_traverse hbvar]
        exact (map_eq_of_forall₂ hparallel.parts).symm

theorem traverse_self (c : Con) (d : Depth) :
    c.traverse (fun _ i => .bvar i) (fun _ k => k) d = c :=
  traverse_eq_self d Depth.zero (Nodes.of_forall fun _ _ => ⟨fun _ _ => rfl, fun _ _ => rfl⟩)

private theorem rebuildM_of_vars {d : Depth} {c : Con}
    (h : Nodes (fun e n => ∀ i, n = .bvar i → vars e i = pure (.bvar i)) d c) :
    c.rebuildM (Plain.onVars vars) (fun _ k => pure k) d = pure c := by
  exact (rebuildM_onVars h).trans (congrArg pure (traverse_self c d))

/-- A pass over variables that leaves those below a cutoff alone may skip what the bound puts below
the cutoff. -/
private theorem rebuildM_eq_replaceM (hvars : ∀ d i, i < cutoff + d.con → vars d i = pure (.bvar i))
    (hskip : ∀ d c, c.bound ≤ cutoff + d.con → node d c = pure (some c))
    (hbvar : ∀ d i, cutoff + d.con ≤ i → node d (.bvar i) = some <$> vars d i)
    (hnone : ∀ d c, ¬ c.bound ≤ cutoff + d.con → (∀ i, c ≠ .bvar i) → node d c = pure none)
    (c : Con) : c.rebuildM node (fun _ k => pure k) Depth.zero = Plain.replaceM vars c := by
  refine rebuildM_eq_of_skips (fun d c => ?_) Depth.zero c
  by_cases hbound : c.bound ≤ cutoff + d.con
  · refine .inr ⟨hskip d c hbound, rebuildM_of_vars ?_⟩
    rw [Nat.add_comm, bound_le_add_iff] at hbound
    refine hbound.mono fun e n hn i hi => hvars e i ?_
    rw [Nat.add_comm]
    exact hn i hi
  · left
    cases c with
    | bvar i =>
      rw [bound_bvar] at hbound
      exact hbvar d i (by omega)
    | _ => exact hnone d _ hbound (by simp)

private theorem replaceM_of_bound (hvars : ∀ d i, i < cutoff + d.con → vars d i = pure (.bvar i))
    {c : Con} (h : c.bound ≤ cutoff) : Plain.replaceM vars c = pure c := by
  refine rebuildM_of_vars ((bound_le_iff.mp h).mono fun e n hn i hi => hvars e i ?_)
  rw [Nat.add_comm]
  exact hn i hi

private theorem replaceM_of_forall (hvars : ∀ d i, vars d i = pure (.bvar i)) (c : Con) :
    Plain.replaceM vars c = pure c :=
  rebuildM_of_vars (Nodes.of_forall fun e _ i _ => hvars e i)

end Bound

theorem liftAbove_eq_plain (c : Con) (amount cutoff : Nat) :
    c.liftAbove amount cutoff = Plain.liftAbove c amount cutoff := by
  have hvars : ∀ (d : Depth) i, i < cutoff + d.con →
      (pure (.bvar (if cutoff + d.con ≤ i then i + amount else i)) : Id Con) = pure (.bvar i) := by
    intro d i hi
    rw [if_neg (by omega)]
  unfold liftAbove Plain.liftAbove
  split
  next h =>
    rcases h with rfl | h
    · exact (replaceM_of_forall (m := Id) (fun d i => by simp) c).symm
    · exact (replaceM_of_bound (m := Id) hvars h).symm
  next =>
    refine rebuildM_eq_replaceM (m := Id) hvars (fun d c h => ?_) (fun d i h => ?_)
      (fun d c h hc => ?_) c
    · simp only [if_pos h]
    · simp only [bound_bvar, if_neg (show ¬ i + 1 ≤ cutoff + d.con by omega), if_pos h, map_pure]
    · simp only [if_neg h]

/-- Going by the bound makes no difference to substitution. -/
theorem subst_eq_replaceM (body argument : Con) :
    body.subst argument = Plain.replaceM (Plain.substVar weaken argument) body := by
  have hvars : ∀ (d : Depth) i, i < 0 + d.con →
      Plain.substVar weaken argument d i = pure (.bvar i) := by
    intro d i hi
    rw [Plain.substVar, if_pos (by omega)]
  unfold subst
  split
  next h => exact (replaceM_of_bound hvars (Nat.le_of_eq h)).symm
  next =>
    refine rebuildM_eq_replaceM hvars (fun d c h => ?_) (fun d i h => ?_) (fun d c h hc => ?_) body
    · exact if_pos (by omega)
    · simp only [bound_bvar, if_neg (show ¬ i + 1 ≤ d.con by omega), Plain.substVar,
        if_neg (show ¬ i < d.con by omega)]
      split <;> simp
    · simp only [if_neg (show ¬ c.bound ≤ d.con by omega)]

theorem instantiate_eq_replaceM (solution : Con) (spine : List Con) :
    solution.instantiate spine = Plain.replaceM (Plain.spineVar weaken spine) solution := by
  have hvars : ∀ (d : Depth) i, i < 0 + d.con →
      Plain.spineVar weaken spine d i = pure (.bvar i) := by
    intro d i hi
    rw [Plain.spineVar, if_pos (by omega)]
  unfold instantiate
  split
  next h =>
    rcases h with h | h
    · obtain rfl := List.isEmpty_iff.mp h
      exact (replaceM_of_forall (fun d i => by simp [Plain.spineVar]) solution).symm
    · exact (replaceM_of_bound hvars (Nat.le_of_eq h)).symm
  next =>
    refine rebuildM_eq_replaceM hvars (fun d c h => ?_) (fun d i h => ?_) (fun d c h hc => ?_)
      solution
    · exact if_pos (by omega)
    · simp only [bound_bvar, if_neg (show ¬ i + 1 ≤ d.con by omega), Plain.spineVar,
        if_neg (show ¬ i < d.con by omega)]
      rcases spine.reverse[i - d.con]? with _ | argument <;> rfl
    · simp only [if_neg (show ¬ c.bound ≤ d.con by omega)]

theorem strengthen_eq_plain (c : Con) (amount : Nat) :
    c.strengthen amount = Plain.strengthen c amount := by
  have hvars : ∀ (d : Depth) i, i < 0 + d.con →
      (if i < d.con then some (.bvar i)
        else if i - d.con < amount then none
        else some (.bvar (i - amount)) : Option Con) = pure (.bvar i) := by
    intro d i hi
    exact if_pos (by omega)
  unfold strengthen Plain.strengthen
  split
  next h =>
    rcases h with rfl | h
    · exact (replaceM_of_forall (m := Option) (fun d i => by simp) c).symm
    · exact (replaceM_of_bound (m := Option) hvars (Nat.le_of_eq h)).symm
  next =>
    refine rebuildM_eq_replaceM (m := Option) hvars (fun d c h => ?_) (fun d i h => ?_)
      (fun d c h hc => ?_) c
    · exact if_pos (by omega)
    · simp only [bound_bvar, if_neg (show ¬ i + 1 ≤ d.con by omega),
        if_neg (show ¬ i < d.con by omega)]
      split <;> rfl
    · simp only [if_neg (show ¬ c.bound ≤ d.con by omega)]
      rfl

/-! ## Skipping by features -/

section Features

variable {m : Type → Type} [Monad m] [LawfulMonad m] {node plain : Depth → Con → m (Option Con)}
  {kind : Depth → Kind → m Kind}

theorem nodes_of_features {features : List Feature} {c : Con}
    (h : (features.any fun feature => c.has feature) = false) (d : Depth) :
    Nodes (fun _ n => ∀ feature ∈ features, n.exhibits feature = false) d c := by
  refine nodes_of_occurs (fun n ho feature hfeature => ?_) d
  have hhas : c.has feature = false := by
    simpa using List.any_eq_false.mp h feature hfeature
  exact Occurs.of_nodes (has_eq_false_iff (d := d).mp hhas) ho

/-- A pass may skip what has none of the features without which it leaves a node alone. -/
theorem rebuildM_eq_of_features (features : List Feature)
    (hplain : ∀ d n, (∀ feature ∈ features, n.exhibits feature = false) →
      plain d n = pure none ∧ ∀ k ∈ n.annotations, kind d k = pure k)
    (hskip : ∀ d c, (features.any fun feature => c.has feature) = false →
      node d c = pure (some c))
    (hnode : ∀ d c, (features.any fun feature => c.has feature) = true → node d c = plain d c)
    (d : Depth) (c : Con) : c.rebuildM node kind d = c.rebuildM plain kind d := by
  refine rebuildM_eq_of_skips (fun d c => ?_) d c
  cases hc : features.any fun feature => c.has feature with
  | true => exact .inl (hnode d c hc)
  | false =>
    refine .inr ⟨hskip d c hc, rebuildM_self ((nodes_of_features hc d).mono fun e n hn => ?_)⟩
    obtain ⟨hnone, hkinds⟩ := hplain e n hn
    exact ⟨.inl hnone, hkinds⟩

/-- A pass that replaces nothing. -/
theorem rebuild_self {node : Depth → Con → Option Con}
    (h : ∀ d n, node d n = none ∨ node d n = some n) (c : Con) : c.rebuild node = c := by
  refine congrArg Id.run (rebuildM_self (m := Id) (Nodes.of_forall fun d n => ⟨?_, fun _ _ => rfl⟩))
  rcases h d n with h | h
  · exact .inl (congrArg pure h)
  · exact .inr (congrArg pure h)

/-- The same for a pass without effects that leaves the kinds alone. -/
theorem rebuild_eq_of_features {node plain : Depth → Con → Option Con} (features : List Feature)
    (hplain : ∀ d n, (∀ feature ∈ features, n.exhibits feature = false) → plain d n = none)
    (hskip : ∀ d c, (features.any fun feature => c.has feature) = false → node d c = some c)
    (hnode : ∀ d c, (features.any fun feature => c.has feature) = true → node d c = plain d c)
    (c : Con) : c.rebuild node = c.rebuild plain :=
  congrArg Id.run (rebuildM_eq_of_features (m := Id) features
    (fun d n hn => ⟨congrArg pure (hplain d n hn), fun _ _ => rfl⟩)
    (fun d c hc => congrArg pure (hskip d c hc)) (fun d c hc => congrArg pure (hnode d c hc))
    Depth.zero c)

end Features

theorem substModules_eq_plain (c : Con) (first : Nat) (refs : List ModuleRef) :
    c.substModules first refs = Plain.substModules c first refs := by
  unfold substModules Plain.substModules
  split
  next h =>
    obtain rfl := List.isEmpty_iff.mp h
    refine (rebuild_self (fun d n => ?_) c).symm
    cases n <;> simp
  next =>
    refine rebuild_eq_of_features [.relative] (fun d n h => ?_) (fun d c h => ?_)
      (fun d c h => ?_) c
    · cases n with
      | relative => simp [exhibits] at h
      | _ => rfl
    · exact if_pos (by simpa using h)
    · exact if_neg (by simpa using h)

theorem abstractModules_eq_plain (c : Con) (level : Nat) (map : Abstraction) :
    c.abstractModules level map = Plain.abstractModules c level map := by
  unfold abstractModules Plain.abstractModules
  split
  next h =>
    obtain ⟨hdefinitions, hmodules⟩ : map.definitions = [] ∧ map.modules = [] := by
      simpa [Abstraction.isEmpty] using h
    refine (rebuild_self (fun d n => ?_) c).symm
    cases n <;> simp [hdefinitions, hmodules]
  next =>
    refine rebuild_eq_of_features [.global, .member] (fun d n h => ?_) (fun d c h => ?_)
      (fun d c h => ?_) c
    · cases n with
      | global | member => simp [exhibits] at h
      | _ => rfl
    · exact if_pos (by simpa using h)
    · have hhas : (c.has .global || c.has .member) = true := by simpa using h
      exact if_neg (by simp [hhas])

theorem abstractSkolems_eq_plain (c : Con) (skolems : List SkolemId) (base : Nat) :
    c.abstractSkolems skolems base = Plain.abstractSkolems c skolems base := by
  unfold abstractSkolems Plain.abstractSkolems
  split
  next h =>
    obtain rfl := List.isEmpty_iff.mp h
    refine (rebuild_self (fun d n => ?_) c).symm
    cases n <;> simp
  next =>
    refine rebuild_eq_of_features [.skolem] (fun d n h => ?_) (fun d c h => ?_) (fun d c h => ?_) c
    · cases n with
      | skolem => simp [exhibits] at h
      | _ => rfl
    · exact if_pos (by simpa using h)
    · exact if_neg (by simpa using h)

/-! ## Annotations that are spelled out -/

section Spelled

variable {ks : KindStore} {c argument : Con} {spine : List Con}

/-- Two computations that answer the same from `ks` and leave it as it is. -/
private abbrev resting (ks : KindStore) : Lifting Eq KindM :=
  .stateful Eq fun _ s t => s = ks ∧ t = ks

private theorem resting_of_run {α : Type} {x y : KindM α} {ρ : Renumbering} {a : α}
    (hx : x.run ks = (a, ks)) (hy : y.run ks = (a, ks)) :
    (resting ks).Rel ρ (fun _ => Eq) x y := by
  refine Lifting.stateful_still.mpr ?_
  rintro _ _ ⟨rfl, rfl⟩
  rw [hx, hy]
  exact ⟨rfl, rfl, rfl⟩

private theorem run_eq_of_resting {α : Type} {x y : KindM α}
    (h : (resting ks).Rel (.same 0 0) (fun _ => Eq) x y) :
    x.run ks = y.run ks ∧ (x.run ks).2 = ks := by
  obtain ⟨hanswer, hx, hy⟩ := Lifting.stateful_still.mp h ks ks ⟨rfl, rfl⟩
  exact ⟨Prod.ext hanswer (hx.trans hy.symm), hx⟩

/-- Without skipping, an argument whose annotations are spelled out is moved in the same way. -/
private theorem weaken_plain_spelled (hc : c.Annotated ks.Spelled) (depth : Depth) :
    (Plain.weaken c depth).run ks = (c.weakened depth, ks) := by
  have hlifted : (c.lift depth.con).Annotated ks.Spelled := by
    rw [lift_eq_traverse]
    exact hc.traverse (fun _ _ => .bvar _) (fun _ _ hk => hk) _
  have hshifts : (resting ks).Rel (.same 0 0) (fun _ => Eq) (Plain.weaken c depth)
      ((c.lift depth.con).rebuildM (Plain.onVars fun _ i => pure (.bvar i))
        (fun d k => pure (k.shift depth.kind d.kind)) Depth.zero) := by
    rw [Plain.weaken, ← liftAbove_eq_plain]
    refine rebuildM_related (resting ks) (A := fun c c' => c = c' ∧ c.Annotated ks.Spelled)
      (K := fun k k' => k = k' ∧ ks.Spelled k) ?_ ?_ ?_ ⟨rfl, hlifted⟩ Depth.zero
    · rintro c _ ⟨rfl, hc⟩
      exact ⟨rfl, List.forall₂_same.mpr fun k hk => ⟨rfl, hc.kind hk⟩,
        List.forall₂_same.mpr fun p hp => ⟨rfl, hc.part hp⟩⟩
    · rintro d c _ ⟨rfl, -⟩
      cases c <;> exact resting_of_run rfl rfl
    · rintro d k _ ⟨rfl, hk⟩
      exact resting_of_run (hk.rebuild (by simp)) rfl
  rw [rebuildM_onVars (Nodes.of_forall fun _ _ i _ => rfl), lift_weakened] at hshifts
  exact (run_eq_of_resting hshifts).1

theorem instantiate_eq_of_spelled (hspine : ∀ a ∈ spine, a.Annotated ks.Spelled) (c : Con) :
    (c.instantiate spine).run ks = (Plain.instantiate c spine).run ks := by
  rw [instantiate_eq_replaceM, Plain.instantiate]
  refine (run_eq_of_resting (rebuildM_related (resting ks) (A := Eq) (K := Eq) ?_ ?_ ?_ rfl
    Depth.zero)).1
  · rintro c _ rfl
    exact ⟨rfl, List.forall₂_same.mpr fun _ _ => rfl, List.forall₂_same.mpr fun _ _ => rfl⟩
  · rintro d c _ rfl
    cases c with
    | bvar i =>
      refine Lifting.map ?_ fun _ _ _ h => congrArg some h
      unfold Plain.spineVar
      split
      next => exact resting_of_run rfl rfl
      next =>
        cases hget : spine.reverse[i - d.con]? with
        | none => exact resting_of_run rfl rfl
        | some a =>
          have ha := hspine a (List.mem_reverse.mp (List.mem_of_getElem? hget))
          exact resting_of_run (weaken_spelled ha d) (weaken_plain_spelled ha d)
    | _ => exact resting_of_run rfl rfl
  · rintro d k _ rfl
    exact resting_of_run rfl rfl

end Spelled

/-! ## Skipping by what is written in the annotations -/

section Kinds

variable {base ks : KindStore} {c argument : Con} {spine : List Con}

/-- Shifting that looks at every part shifts what a kind stands for. -/
private theorem liftKind_rereads (ok : base.SameChains ks) (k : Kind) (amount cutoff : Nat) :
    Yields (KindStore.rereading base) ks (Plain.liftKind k amount cutoff) fun k' _ =>
      base.expand k' = (base.expand k).shift amount cutoff := by
  have hspares : base.Spares (fun _ => false) fun _ => True := ⟨by simp, by simp, by simp⟩
  have hfollows : KindStore.OnlyFollows (Plain.liftKind k amount cutoff) := fun hr =>
    KindStore.rebuild_throughout hr (fun _ _ => .pure _) k
  refine (KindStore.OnlyFollows.yields hfollows ok).mono fun k' _ _ _ h => ?_
  rw [h]
  refine ok.acyclic.1.rebuild_expand hspares ⟨fun _ _ _ _ _ => .pure _,
    fun _ _ => KindStore.expand_bvar _, fun d i hi => ?_⟩ trivial
  rw [Kind.shiftVar, if_neg (by omega)]

/-- The specification of a pass over variables and annotations, up to links that have been
followed. -/
private def replacing (base : KindStore) (vars : Depth → Nat → Con) (kinds : Depth → Kind → Kind) :
    PassSpec KindStore where
  Pre _ _ _ := True
  KindPre _ _ _ := True
  Enters _ _ c := ∀ i, c ≠ .bvar i
  Post _ d c c' := c'.expandKinds base = (c.expandKinds base).traverse vars kinds d
  KindPost _ d k k' := base.expand k' = kinds d (base.expand k)

/-- A pass over variables and annotations reads as the traversal that does to the constructor,
spelled out, what the hooks do. -/
private theorem onVars_expands {vars : Depth → Nat → KindM Con} {kind : Depth → Kind → KindM Kind}
    {vars' : Depth → Nat → Con} {kinds : Depth → Kind → Kind}
    (hvars : ∀ {ks} d i, base.SameChains ks → Yields (KindStore.rereading base) ks (vars d i)
      fun c' _ => c'.expandKinds base = vars' d i)
    (hkind : ∀ {ks} d k, base.SameChains ks → Yields (KindStore.rereading base) ks (kind d k)
      fun k' _ => base.expand k' = kinds d (base.expand k))
    (ok : base.SameChains ks) (c : Con) (d : Depth) :
    Yields (KindStore.rereading base) ks (c.rebuildM (Plain.onVars vars) kind d) fun c' _ =>
      c'.expandKinds base = (c.expandKinds base).traverse vars' kinds d := by
  have hpass : Pass (KindStore.rereading base) (replacing base vars' kinds) (Plain.onVars vars)
      kind :=
    { pre_grows := fun _ _ h => h
      kindPre_grows := fun _ _ h => h
      enters_grows := fun _ _ h => h
      post_grows := fun _ _ h => h
      kindPost_grows := fun _ _ h => h
      pre_part := fun _ _ => trivial
      pre_kind := fun _ _ => trivial
      node_yields := by
        intro ks d c ok _
        by_cases hbvar : ∃ i, c = .bvar i
        · obtain ⟨i, rfl⟩ := hbvar
          exact .map ok (hvars d i ok)
        · have hbvar : ∀ i, c ≠ .bvar i := fun i hi => hbvar ⟨i, hi⟩
          rw [Plain.onVars_of_ne hbvar]
          exact Yields.pure ok hbvar
      kind_yields := fun ok _ => hkind _ _ ok
      close := by
        intro ks d c c' _ _ hbvar related
        have hbvar' : ∀ i, c.expandKinds base ≠ .bvar i :=
          ne_bvar_of_frame (frame_expandKinds c) hbvar
        refine eq_of_frame ?_ ?_ ?_
        · rw [frame_traverse hbvar', frame_expandKinds, frame_expandKinds, related.frame]
        · rw [annotations_traverse hbvar', annotations_expandKinds, annotations_expandKinds,
            List.map_map]
          exact map_eq_map_of_forall₂ related.annotations
        · rw [parts_traverse hbvar', parts_expandKinds, parts_expandKinds, List.map_map,
            binders_eq (frame_expandKinds c)]
          exact map_eq_map_of_forall₂ related.parts }
  exact hpass.rebuildM_yields c ok trivial

private theorem expandKinds_lift (c : Con) (amount : Nat) :
    (c.lift amount).expandKinds base = (c.expandKinds base).lift amount := by
  rw [lift_eq_traverse, lift_eq_traverse]
  refine traverse_square Depth.zero Depth.zero Depth.zero Depth.zero (fun _ _ => ?_)
    (fun _ _ => ?_) Depth.zero c <;> rfl

private theorem has_of_traverse {vars : Depth → Nat → Con} {d : Depth}
    (h : (c.traverse vars (fun _ k => k) d).has .kindBVar = false) : c.has .kindBVar = false := by
  induction c using inductionOnParts generalizing d with
  | step c ih =>
    by_cases hbvar : ∃ i, c = .bvar i
    · obtain ⟨i, rfl⟩ := hbvar
      rfl
    · have hbvar : ∀ i, c ≠ .bvar i := fun i hi => hbvar ⟨i, hi⟩
      obtain ⟨htop, hparts⟩ := has_iff_parts.mp h
      rw [parts_traverse hbvar, List.forall_mem_map] at hparts
      refine has_iff_parts.mpr ⟨?_, fun p hp => ih p hp (hparts p hp)⟩
      simpa [exhibits, annotations_traverse hbvar] using htop

/-- Shifting constructor variables hides no kind variable. -/
private theorem Shows.lift (hc : c.Shows base) (amount : Nat) : (c.lift amount).Shows base := by
  rw [lift_eq_traverse]
  generalize Depth.zero = d
  induction c using inductionOnParts generalizing d with
  | step c ih =>
    by_cases hbvar : ∃ i, c = .bvar i
    · obtain ⟨i, rfl⟩ := hbvar
      exact .intro (by simp [weakenVar, annotations]) (by simp [weakenVar, parts])
    · have hbvar : ∀ i, c ≠ .bvar i := fun i hi => hbvar ⟨i, hi⟩
      refine .intro (fun k hk => ?_) ?_
      · rw [annotations_traverse hbvar, List.map_id'] at hk
        obtain ⟨hshows, hclosed⟩ := (All.iff.mp hc).1 k hk
        exact ⟨hshows, fun hhas => hclosed (has_of_traverse hhas)⟩
      · rw [parts_traverse hbvar]
        exact List.forall_mem_map.mpr fun p hp => ih p hp (hc.part hp) _

/-- An argument that hides no kind variable is moved under binders as it reads. -/
theorem Shows.weaken (ok : base.SameChains ks) (hargument : argument.Shows base) (depth : Depth) :
    Yields (KindStore.rereading base) ks (argument.weaken depth) fun c' _ =>
      c'.expandKinds base = (argument.expandKinds base).weakened depth := by
  refine (KindStore.OnlyFollows.yields (fun hr => weaken_throughout hr argument depth) ok).mono
    fun c' _ _ _ h => ?_
  rw [h, Con.weaken, (hargument.lift depth.con).liftKinds ok.acyclic.1, expandKinds_lift,
    withKinds, lift_weakened]

/-- Without skipping, every argument is. -/
theorem Plain.weaken_expands (ok : base.SameChains ks) (argument : Con) (depth : Depth) :
    Yields (KindStore.rereading base) ks (Plain.weaken argument depth) fun c' _ =>
      c'.expandKinds base = (argument.expandKinds base).weakened depth := by
  rw [← lift_weakened, ← expandKinds_lift, Con.lift, liftAbove_eq_plain]
  exact onVars_expands (fun d i ok => Yields.pure ok (expandKinds_bvar i))
    (fun d k ok => liftKind_rereads ok k depth.kind d.kind) ok _ Depth.zero

/-- What instantiation reads as, whichever way the spine is moved under binders. -/
private theorem replaceM_expands {weaken : Con → Depth → KindM Con}
    (hweaken : ∀ a ∈ spine, ∀ {ks} d, base.SameChains ks → Yields (KindStore.rereading base) ks
      (weaken a d) fun c' _ => c'.expandKinds base = (a.expandKinds base).weakened d)
    (ok : base.SameChains ks) (c : Con) :
    Yields (KindStore.rereading base) ks (Plain.replaceM (Plain.spineVar weaken spine) c)
      fun r _ => r.expandKinds base =
        (c.expandKinds base).instantiated (spine.map (expandKinds base)) := by
  change Yields _ _ _ fun (r : Con) _ => r.expandKinds base = (c.expandKinds base).traverse
    (Con.spineVar (spine.map (expandKinds base))) (fun _ k => k) Depth.zero
  have hkind : ∀ {ks} (d : Depth) k, base.SameChains ks → Yields (KindStore.rereading base) ks
      (pure k : KindM Kind) fun k' _ => base.expand k' = base.expand k :=
    fun _ _ ok => Yields.pure ok rfl
  refine onVars_expands (fun d i ok => ?_) hkind ok c Depth.zero
  unfold Plain.spineVar Con.spineVar
  rw [← List.map_reverse, List.getElem?_map, List.length_map]
  split
  next => exact Yields.pure ok (expandKinds_bvar i)
  next =>
    cases hget : spine.reverse[i - d.con]? with
    | none => exact Yields.pure ok (expandKinds_bvar _)
    | some a => exact hweaken a (List.mem_reverse.mp (List.mem_of_getElem? hget)) d ok

theorem instantiate_expands_of_shows (ok : base.SameChains ks)
    (hspine : ∀ a ∈ spine, a.Shows base) (c : Con) :
    Yields (KindStore.rereading base) ks (c.instantiate spine) fun r _ => r.expandKinds base =
      (c.expandKinds base).instantiated (spine.map (expandKinds base)) := by
  rw [instantiate_eq_replaceM]
  exact replaceM_expands (fun a ha _ d ok => (hspine a ha).weaken ok d) ok c

theorem Plain.instantiate_expands (ok : base.SameChains ks) (c : Con) (spine : List Con) :
    Yields (KindStore.rereading base) ks (Plain.instantiate c spine) fun r _ =>
      r.expandKinds base =
        (c.expandKinds base).instantiated (spine.map (expandKinds base)) :=
  replaceM_expands (fun a _ _ d ok => Plain.weaken_expands ok a d) ok c

/-- Substitution is instantiation with a spine of one constructor, without skipping too. -/
theorem Plain.subst_eq_instantiate (body argument : Con) :
    Plain.subst body argument = Plain.instantiate body [argument] := by
  have hvars : Plain.substVar Plain.weaken argument = Plain.spineVar Plain.weaken [argument] := by
    funext d i
    unfold Plain.substVar Plain.spineVar
    split
    next => rfl
    next h =>
      rw [List.reverse_singleton, List.length_singleton]
      split
      next heq => rw [heq, Nat.sub_self, List.getElem?_cons_zero]
      next hne =>
        have hget : [argument][i - d.con]? = none := by
          rw [List.getElem?_eq_none_iff, List.length_singleton]
          omega
        rw [hget]
  rw [Plain.subst, Plain.instantiate, hvars]

end Kinds

/-! ## Visits that skip -/

/-- Visits the nodes from left to right, each before its parts.  A constructor that does not have
the feature is not entered. -/
def visit {α : Type} (feature : Feature) (f : α → Con → α) (acc : α) (c : Con) : α :=
  if c.has feature then c.parts.attach.foldl (fun acc p => visit feature f acc p.1) (f acc c)
  else acc
termination_by sizeOf c
decreasing_by exact sizeOf_part_lt p.2

/-- A visit may skip what has no node that it collects something from. -/
theorem visit_eq_foldNodes {α : Type} {feature : Feature} {f : α → Con → α}
    (hf : ∀ acc n, n.exhibits feature = false → f acc n = acc) (acc : α) (d : Depth) (c : Con) :
    visit feature f acc c = foldNodes (fun acc _ n => f acc n) acc d c := by
  induction c using inductionOnParts generalizing acc d with
  | step c ih =>
    rw [visit]
    split
    next =>
      rw [foldNodes_step, List.foldl_attach (f := fun acc p => visit feature f acc p)]
      exact List.foldl_ext _ _ _ fun acc p hp => ih p hp acc (d + c.binders)
    next h =>
      have hnodes := has_eq_false_iff (d := d).mp (by simpa using h)
      exact (foldNodes_self (hnodes.mono fun _ n hn acc => hf acc n hn) acc).symm

/-- The metavariables of `c`, collected by a visit that skips what has none. -/
def visitMVars (c : Con) : List MetaId :=
  c.visit .mvar
    (fun seen node =>
      match node with
      | .mvar v _ => if seen.contains v then seen else seen ++ [v]
      | _ => seen)
    []

/-- The skolems of `c`, collected by a visit that skips what has none. -/
def visitSkolems (c : Con) : List SkolemId :=
  c.visit .skolem
    (fun seen node =>
      match node with
      | .skolem s => if seen.contains s then seen else seen ++ [s]
      | _ => seen)
    []

theorem visitMVars_eq (c : Con) : c.visitMVars = c.mvars := by
  refine visit_eq_foldNodes (fun seen n hn => ?_) [] Depth.zero c
  cases n with
  | mvar => cases hn
  | _ => rfl

theorem visitSkolems_eq (c : Con) : c.visitSkolems = c.skolems := by
  refine visit_eq_foldNodes (fun seen n hn => ?_) [] Depth.zero c
  cases n with
  | skolem => cases hn
  | _ => rfl

end Con

end RowML
