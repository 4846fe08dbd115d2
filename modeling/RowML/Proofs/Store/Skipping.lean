import RowML.Proofs.Store.Delay
import RowML.Proofs.Store.Plain

/-!
# Flags never change a result

Zonking moves the spine of an occurrence under the binders of a solution, and there it goes by what
is written in the annotations.  A run of it and a run of the same recursion that skips nothing stay
side by side, from stores whose solutions differ in links of kinds only: they relink the same cells,
and what they answer is spelled out, so it is the same.

With this, bound and flags are right for every constructor of a pool, and the passes that go by them
give what the recursion over all nodes gives.
-/

namespace RowML

namespace Con

variable {base ks : KindStore} {c c' : Con} {spine spine' : List Con}

/-! ## Constructors up to links of kinds -/

/-- The same constructor once the annotations are spelled out. -/
def Respelled (base : KindStore) (c c' : Con) : Prop := c.expandKinds base = c'.expandKinds base

namespace Respelled

theorem parallel (h : Respelled base c c') :
    Parallel (fun k k' => base.expand k = base.expand k') (Respelled base) c c' where
  frame := (frame_expandKinds c).symm.trans ((congrArg Con.frame h).trans (frame_expandKinds c'))
  annotations := by
    have hmap := congrArg Con.annotations h
    rwa [annotations_expandKinds, annotations_expandKinds, ← List.forall₂_eq_eq_eq,
      List.forall₂_map_left_iff, List.forall₂_map_right_iff] at hmap
  parts := by
    have hmap := congrArg Con.parts h
    rwa [parts_expandKinds, parts_expandKinds, ← List.forall₂_eq_eq_eq,
      List.forall₂_map_left_iff, List.forall₂_map_right_iff] at hmap

theorem resembles (h : Respelled base c c') : Resembles c c' := by
  have hkinds : ∀ c : Con, Resembles c (c.expandKinds base) := fun c => Resembles.kinds c _
  exact (hkinds c).trans (h ▸ (hkinds c').symm)

theorem mvar {i : MetaId} (h : Respelled base (.mvar i spine) c') :
    ∃ spine', c' = .mvar i spine' ∧ List.Forall₂ (Respelled base) spine spine' :=
  ⟨c'.parts, eq_mvar_of_frame h.parallel.frame, h.parallel.parts⟩

end Respelled

/-- Instantiation with skipping and without, where the spine hides no kind variable. -/
theorem Respelled.instantiate {ks' : KindStore} (hks : base.SameChains ks)
    (hks' : base.SameChains ks') (h : Respelled base c c')
    (hspine : List.Forall₂ (Respelled base) spine spine') (hshows : ∀ a ∈ spine, a.Shows base) :
    Respelled base ((c.instantiate spine).run ks).1 ((Plain.instantiate c' spine').run ks').1 ∧
      base.SameChains ((c.instantiate spine).run ks).2 ∧
      base.SameChains ((Plain.instantiate c' spine').run ks').2 := by
  obtain ⟨ok, -, hanswer⟩ := instantiate_expands_of_shows hks hshows c _ _ rfl
  obtain ⟨ok', -, hanswer'⟩ := Plain.instantiate_expands hks' c' spine' _ _ rfl
  have hmap : spine'.map (expandKinds base) = spine.map (expandKinds base) :=
    map_eq_map_of_forall₂ (hspine.imp fun _ _ h => Eq.symm h)
  refine ⟨(hanswer _ rfl).trans ?_, ok, ok'⟩
  rw [h, ← hmap]
  exact (hanswer' _ rfl).symm

end Con

namespace Store

/-! ## Reading solutions without skipping -/

namespace Plain

def resolveWithin : Nat → Con → StoreM Con
  | fuel + 1, .mvar id spine => do
    match (← get).solution? id with
    | none => pure (.mvar id spine)
    | some target =>
      let final ← resolveWithin fuel target
      if final ≠ target then setSolution id (some final)
      onKinds (Con.Plain.instantiate final spine)
  | _, c => pure c

def resolve (c : Con) : StoreM Con := do resolveWithin (← get).cells.size c

/-- What zonking does to a node, given how it follows solutions and goes on with what it finds. -/
def expose (resolve : Con → StoreM Con) (zonk : Con → FuelM Con) (_ : Depth) :
    Con → FuelM (Option Con)
  | .mvar id spine => do
    let resolved ← resolve (.mvar id spine)
    if resolved ≠ .mvar id spine then some <$> zonk resolved else pure none
  | _ => pure none

def zonk : Nat → Con → FuelM Con
  | 0, _ => outOfFuel
  | fuel + 1, c => c.rebuildM (expose resolve (zonk fuel)) zonkKind Depth.zero

theorem expose_other {resolve : Con → StoreM Con} {zonk : Con → FuelM Con} {d : Depth} {c : Con}
    (h : ∀ i spine, c ≠ .mvar i spine) : expose resolve zonk d c = pure none := by
  cases c with
  | mvar i spine => exact absurd rfl (h i spine)
  | _ => rfl

variable {store : Store}

theorem resolveWithin_unsolved {c : Con}
    (h : ∀ i spine, c = .mvar i spine → store.isSolved i = false) (n : Nat) :
    (resolveWithin n c).run store = (c, store) := by
  cases n with
  | zero => cases c <;> rfl
  | succ n =>
    cases c with
    | mvar i spine =>
      have hi : store.solution? i = none := by simpa [isSolved] using h i spine rfl
      rw [resolveWithin, StateT.run_bind, StateT.run_get, pure_bind, hi]
      rfl
    | _ => rfl

theorem resolveWithin_solved (fuel : Nat) {id : MetaId} {target : Con} (spine : List Con)
    (h : store.solution? id = some target) :
    (resolveWithin (fuel + 1) (.mvar id spine)).run store =
      let next := (resolveWithin fuel target).run store
      let relinked := if next.1 ≠ target then next.2.put id next.1 else next.2
      let answer := (Con.Plain.instantiate next.1 spine).run relinked.kinds
      (answer.1, relinked.withKinds answer.2) := by
  rw [resolveWithin, StateT.run_bind, StateT.run_get, pure_bind, h]
  simp only
  have hbind : ∀ (f : Con → StoreM Con), (resolveWithin fuel target >>= f).run store =
      (f ((resolveWithin fuel target).run store).1).run ((resolveWithin fuel target).run store).2 :=
    fun _ => rfl
  rw [hbind]
  split <;> rfl

end Plain

private theorem rebuildM_of_mvars {m : Type → Type} [Monad m] [LawfulMonad m]
    {onMVar : Nat → KindVar → m Kind} {k : Kind} (h : k.mvars = []) (d : Nat) :
    k.rebuildM (fun _ => false) (fun _ i => pure (.bvar i)) onMVar d = pure k := by
  induction k using Kind.inductionOnParts generalizing d with
  | step k ih =>
    have hpart : ∀ p ∈ k.parts, ∀ d,
        p.rebuildM (fun _ => false) (fun _ i => pure (.bvar i)) onMVar d = pure p := by
      refine fun p hp d => ih p hp (List.eq_nil_iff_forall_not_mem.mpr fun v hv => ?_) d
      simpa [h] using Kind.mem_mvars_of_part hp hv
    have hlist : ∀ ks : List Kind, (∀ p ∈ ks, p ∈ k.parts) →
        Kind.rebuildListM (fun _ => false) (fun _ i => pure (.bvar i)) onMVar d ks = pure ks := by
      intro ks hks
      induction ks with
      | nil => rfl
      | cons p ks ihs =>
        rw [List.forall_mem_cons] at hks
        simp [Kind.rebuildListM, hpart p hks.1, ihs hks.2]
    cases k with
    | mvar v => cases h
    | type | unit | name | error | bvar => rfl
    | arrow a b =>
      simp [Kind.rebuildM, hpart a (by simp [Kind.parts]), hpart b (by simp [Kind.parts])]
    | record a | poly x a => simp [Kind.rebuildM, hpart a (by simp [Kind.parts])]
    | tuple ks => simp [Kind.rebuildM, hlist ks fun _ hp => hp]

private theorem zonk_of_mvars {k : Kind} (h : k.mvars = []) : KindStore.zonk k = pure k := by
  simp only [KindStore.zonk, KindStore.rebuild, KindStore.rebuildWithin, rebuildM_of_mvars h]
  rfl

/-- Zonking may skip what has no metavariables. -/
theorem zonk_step (fuel : Nat) (c : Con) :
    zonk (fuel + 1) c =
      c.rebuildM (Plain.expose resolve (zonk fuel)) zonkKind Depth.zero := by
  refine Con.rebuildM_eq_of_features [.mvar, .kindMVar] (fun d n h => ⟨?_, ?_⟩) (fun d c h => ?_)
    (fun d c h => ?_) Depth.zero c
  · cases n with
    | mvar => simp [Con.exhibits] at h
    | _ => rfl
  · intro k hk
    have hmvars : k.mvars = [] := by
      have hexhibits := h .kindMVar (by simp)
      simp only [Con.exhibits, List.any_eq_false] at hexhibits
      simpa [Kind.hasMVar] using hexhibits k hk
    change (do onKinds (KindStore.zonk k) : FuelM Kind) = pure k
    rw [zonk_of_mvars hmvars]
    rfl
  · rw [if_pos (by simpa using h)]
  · have hhas : (c.has .mvar || c.has .kindMVar) = true := by simpa using h
    rw [if_neg (by simp [hhas])]
    cases c <;> rfl

/-! ## Side by side -/

/-- Both stores have the kinds of `base`, and the same solutions up to links of kinds. -/
structure Alongside (base : KindStore) (s t : Store) : Prop where
  kinds : base.SameChains s.kinds
  kinds' : base.SameChains t.kinds
  size : t.cells.size = s.cells.size
  solution : ∀ i, Option.Rel (Con.Respelled base) (s.solution? i) (t.solution? i)

namespace Alongside

variable {base : KindStore} {s t : Store} {i : MetaId} {c c' : Con}

theorem isSolved_eq (h : Alongside base s t) (i : MetaId) : t.isSolved i = s.isSolved i := by
  have hi := h.solution i
  rw [isSolved, isSolved]
  generalize s.solution? i = x, t.solution? i = y at hi
  cases hi <;> rfl

theorem withKinds (h : Alongside base s t) {ks ks' : KindStore} (hks : base.SameChains ks)
    (hks' : base.SameChains ks') : Alongside base (s.withKinds ks) (t.withKinds ks') :=
  ⟨hks, hks', h.size, h.solution⟩

theorem put (h : Alongside base s t) (hi : i < s.cells.size) (hc : Con.Respelled base c c') :
    Alongside base (s.put i c) (t.put i c') where
  kinds := h.kinds
  kinds' := h.kinds'
  size := by rw [size_put, size_put, h.size]
  solution j := by
    rw [solution?_put hi, solution?_put (h.size.symm ▸ hi)]
    split
    next => exact .some hc
    next => exact h.solution j

end Alongside

variable {base : KindStore} {s t : Store} {c c' : Con}

/-- What resembles its own answer has not been followed, on either side. -/
private theorem resolveWithin_rests {fuel : Nat} (acyclic : s.Acyclic) (hst : Alongside base s t)
    (h : Con.Respelled base c c') (hr : Con.Resembles c ((resolveWithin fuel c).run s).1) :
    (resolveWithin fuel c).run s = (c, s) ∧ (Plain.resolveWithin fuel c').run t = (c', t) := by
  cases fuel with
  | zero => cases c <;> cases c' <;> exact ⟨rfl, rfl⟩
  | succ fuel =>
    have hunsolved : ∀ i spine, c = .mvar i spine → s.isSolved i = false := fun i spine hi =>
      (traced_resolveWithin (fuel + 1) c acyclic).unsolved fuel.succ_pos hi hr
    refine ⟨resolveWithin_unsolved hunsolved _, Plain.resolveWithin_unsolved ?_ _⟩
    rintro i spine rfl
    obtain ⟨spine', rfl, -⟩ := Con.Respelled.mvar h.symm
    rw [hst.isSolved_eq]
    exact hunsolved i spine' rfl

variable (hclosed : base.Closed)
include hclosed

/-- Following solutions with skipping and without. -/
private theorem resolveWithin_alongside (fuel : Nat) (acyclic : s.Acyclic)
    (hst : Alongside base s t) (h : Con.Respelled base c c') :
    Con.Respelled base ((resolveWithin fuel c).run s).1 ((Plain.resolveWithin fuel c').run t).1 ∧
      Alongside base ((resolveWithin fuel c).run s).2 ((Plain.resolveWithin fuel c').run t).2 := by
  induction fuel generalizing c c' with
  | zero =>
    have hrun : resolveWithin 0 c = pure c := by cases c <;> rfl
    have hrun' : Plain.resolveWithin 0 c' = pure c' := by cases c' <;> rfl
    rw [hrun, hrun']
    exact ⟨h, hst⟩
  | succ fuel ih =>
    by_cases hr : Con.Resembles c ((resolveWithin (fuel + 1) c).run s).1
    · obtain ⟨hrun, hrun'⟩ := resolveWithin_rests acyclic hst h hr
      rw [hrun, hrun']
      exact ⟨h, hst⟩
    have hsolved : ∃ i spine, c = .mvar i spine ∧ s.isSolved i = true := by
      by_contra hunsolved
      rw [resolveWithin_unsolved (by simpa using hunsolved)] at hr
      exact hr (.refl c)
    obtain ⟨i, spine, rfl, hsolved⟩ := hsolved
    obtain ⟨spine', rfl, hspine⟩ := h.mvar
    obtain ⟨target, hi⟩ := Option.isSome_iff_exists.mp hsolved
    obtain ⟨target', hi', htarget⟩ : ∃ target', t.solution? i = some target' ∧
        Con.Respelled base target target' := by
      have hsolution := hst.solution i
      rw [hi] at hsolution
      generalize t.solution? i = y at hsolution
      cases hsolution with
      | some htarget => exact ⟨_, rfl, htarget⟩
    rw [resolveWithin_solved fuel spine hi, Plain.resolveWithin_solved fuel spine' hi']
    obtain ⟨hfinal, hnext⟩ := ih htarget
    have hrelinked : Alongside base
        (let next := (resolveWithin fuel target).run s
          if next.1 ≠ target then next.2.put i next.1 else next.2)
        (let next := (Plain.resolveWithin fuel target').run t
          if next.1 ≠ target' then next.2.put i next.1 else next.2) := by
      by_cases hsame : Con.Resembles target ((resolveWithin fuel target).run s).1
      · obtain ⟨hrun, hrun'⟩ := resolveWithin_rests acyclic hst htarget hsame
        simp only [hrun, hrun', ne_eq, not_true_eq_false, if_false]
        exact hst
      · have hne : ((resolveWithin fuel target).run s).1 ≠ target := fun h =>
          hsame (.of_eq h.symm)
        have hne' : ((Plain.resolveWithin fuel target').run t).1 ≠ target' := fun h =>
          hsame (htarget.resembles.trans ((Con.Resembles.of_eq h.symm).trans hfinal.resembles.symm))
        have hlt : i < ((resolveWithin fuel target).run s).2.cells.size := by
          have hstill := (traced_resolveWithin fuel target acyclic).solved i
          obtain ⟨_, hstill⟩ := Option.isSome_iff_exists.mp (hstill.trans hsolved)
          exact lt_of_solution hstill
        simp only [if_pos hne, if_pos hne']
        exact hnext.put hlt hfinal
    obtain ⟨hanswer, hkinds, hkinds'⟩ :=
      Con.Respelled.instantiate hrelinked.kinds hrelinked.kinds' hfinal hspine fun a _ =>
        .of_closed hst.kinds.acyclic.1 hclosed a
    exact ⟨hanswer, hrelinked.withKinds hkinds hkinds'⟩

/-- Computations that stay side by side. -/
private abbrev beside (base : KindStore) : Lifting Eq StoreM :=
  .stateful Eq fun _ s t => s.Acyclic ∧ Alongside base s t

private abbrev besideFuelled (base : KindStore) : Lifting Eq FuelM :=
  .fuelled Eq fun _ s t => s.Acyclic ∧ Alongside base s t

private theorem resolve_beside {ρ : Renumbering} (h : Con.Respelled base c c') :
    (beside base).Rel ρ (fun _ r r' => Con.Respelled base r r' ∧ (r = c ↔ r' = c')) (resolve c)
      (Plain.resolve c') := by
  refine Lifting.stateful_still.mpr fun s t ⟨acyclic, hst⟩ => ?_
  change (Con.Respelled base ((resolveWithin s.cells.size c).run s).1
      ((Plain.resolveWithin t.cells.size c').run t).1 ∧
      (((resolveWithin s.cells.size c).run s).1 = c ↔
        ((Plain.resolveWithin t.cells.size c').run t).1 = c')) ∧
    ((resolveWithin s.cells.size c).run s).2.Acyclic ∧
      Alongside base ((resolveWithin s.cells.size c).run s).2
        ((Plain.resolveWithin t.cells.size c').run t).2
  rw [hst.size]
  obtain ⟨hanswer, hst'⟩ := resolveWithin_alongside hclosed s.cells.size acyclic hst h
  refine ⟨⟨hanswer, fun hr => ?_, fun hr => ?_⟩,
    acyclic.imp fun _ => (traced_resolveWithin s.cells.size c acyclic).ranks, hst'⟩
  · rw [(resolveWithin_rests acyclic hst h (.of_eq hr.symm)).2]
  · have hresembles :=
      h.resembles.trans ((Con.Resembles.of_eq hr.symm).trans hanswer.resembles.symm)
    rw [(resolveWithin_rests acyclic hst h hresembles).1]

omit hclosed in
private theorem zonkKind_beside {ρ : Renumbering} (d : Depth) {k k' : Kind}
    (h : base.expand k = base.expand k') :
    (besideFuelled base).Rel ρ (fun _ => Eq) (zonkKind d k) (zonkKind d k') := by
  suffices hstill : (beside base).Rel ρ (fun _ => Eq) (onKinds (KindStore.zonk k))
      (onKinds (KindStore.zonk k')) from hstill
  refine Lifting.stateful_still.mpr fun s t ⟨acyclic, hst⟩ => ?_
  have hfollows : ∀ k, KindStore.OnlyFollows (KindStore.zonk k) :=
    fun k _ _ hr => KindStore.zonk_throughout hr k
  have hzonk : ∀ {ks : KindStore} (k : Kind), base.SameChains ks →
      ((KindStore.zonk k).run ks).1 = base.expand k ∧
        base.SameChains ((KindStore.zonk k).run ks).2 := fun k hks =>
    ⟨(KindStore.OnlyFollows.again (hfollows k) hks).1.trans (hks.acyclic.1.zonk_eq k),
      hks.trans (KindStore.OnlyFollows.again (hfollows k) (.refl hks.acyclic.2)).2⟩
  obtain ⟨hanswer, hkinds⟩ := hzonk k hst.kinds
  obtain ⟨hanswer', hkinds'⟩ := hzonk k' hst.kinds'
  exact ⟨(hanswer.trans h).trans hanswer'.symm, acyclic, hst.withKinds hkinds hkinds'⟩

/-- Zonking with skipping and without. -/
private theorem zonk_beside {ρ : Renumbering} (fuel : Nat) (h : Con.Respelled base c c') :
    (besideFuelled base).Rel ρ (fun _ => Eq) (zonk fuel c) (Plain.zonk fuel c') := by
  induction fuel generalizing c c' with
  | zero => exact fun _ _ _ => .none
  | succ fuel ih =>
    rw [zonk_step, Plain.zonk]
    refine Con.rebuildM_related (besideFuelled base) Con.Respelled.parallel (fun d c c' h => ?_)
      (fun d k k' h => zonkKind_beside d h) h Depth.zero
    by_cases hmvar : ∃ i spine, c = .mvar i spine
    · obtain ⟨i, spine, rfl⟩ := hmvar
      obtain ⟨spine', rfl, -⟩ := h.mvar
      have hresolve : (besideFuelled base).Rel ρ (fun _ r r' => Con.Respelled base r r' ∧
          (r = .mvar i spine ↔ r' = .mvar i spine')) (liftM (resolve (.mvar i spine)))
          (liftM (Plain.resolve (.mvar i spine'))) := resolve_beside hclosed h
      refine Lifting.bind_still hresolve fun r r' hr => ?_
      refine Lifting.ite (not_congr hr.2) (Lifting.map (ih hr.1) fun _ _ _ h => ?_)
        (Lifting.pure _ rfl)
      exact congrArg some h
    · have hmvar : ∀ i spine, c ≠ .mvar i spine := fun i spine hi => hmvar ⟨i, spine, hi⟩
      have hmvar' : ∀ i spine, c' ≠ .mvar i spine := by
        rintro i spine rfl
        exact hmvar i _ (Con.eq_mvar_of_frame h.parallel.frame.symm)
      rw [Plain.expose_other hmvar, Plain.expose_other hmvar']
      exact Lifting.pure _ rfl

/-! ## Main result -/

omit hclosed in
/-- Zonking gives what it gives without skipping, where no link has a free kind variable. -/
theorem zonk_eq_plain {store : Store} (acyclic : store.Acyclic) (kinds : store.kinds.Acyclic)
    (closed : store.kinds.Closed) (fuel : Nat) (c : Con) :
    (zonk fuel c store).map Prod.fst = (Plain.zonk fuel c store).map Prod.fst := by
  have hst : Alongside store.kinds store store :=
    ⟨.refl kinds, .refl kinds, rfl, fun i => by cases store.solution? i <;> constructor; rfl⟩
  have h : (besideFuelled store.kinds).Rel (.same 0 0) (fun _ => Eq) (zonk fuel c)
      (Plain.zonk fuel c) := zonk_beside closed fuel rfl
  have hrun := h store store ⟨acyclic, hst⟩
  generalize zonk fuel c store = x, Plain.zonk fuel c store = y at hrun
  cases hrun with
  | none => rfl
  | some hrun =>
    obtain ⟨_, _, hanswer, _⟩ := hrun
    exact congrArg some hanswer

end Store

/-- What a pool stores of a constructor says what occurs in it, and no pass that goes by it does
anything else than the recursion over all nodes: exactly so where only variables, metavariables,
references and skolems decide; and where kinds are shifted, exactly so if the annotations that are
moved are spelled out, and up to links if they hide no kind variable. -/
theorem Store.skipping_exact {pool : Pool} (built : pool.Built) {index : Nat} {c : Con}
    (hc : pool.constructor? index = some c) :
    pool.metadataAt index = c.metadata ∧
    (((pool.metadataAt index).bound = 0 ∧ ∀ i, ¬ Con.Free i c) ∨
      ∃ i, (pool.metadataAt index).bound = i + 1 ∧ Con.Free i c ∧ ∀ j, Con.Free j c → j ≤ i) ∧
    ((pool.metadataAt index).has .mvar = true ↔ ∃ v spine, Con.Occurs (.mvar v spine) c) ∧
    ((pool.metadataAt index).has .error = true ↔ Con.Occurs .error c) ∧
    ((pool.metadataAt index).has .skolem = true ↔ ∃ s, Con.Occurs (.skolem s) c) ∧
    ((pool.metadataAt index).has .relative = true ↔
      ∃ level path item, Con.Occurs (.relative level path item) c) ∧
    ((pool.metadataAt index).has .member = true ↔
      ∃ module path item, Con.Occurs (.member module path item) c) ∧
    ((pool.metadataAt index).has .global = true ↔
      ∃ definition, Con.Occurs (.global definition) c) ∧
    (∀ amount cutoff, c.liftAbove amount cutoff = Con.Plain.liftAbove c amount cutoff) ∧
    (∀ amount, c.strengthen amount = Con.Plain.strengthen c amount) ∧
    (∀ first refs, c.substModules first refs = Con.Plain.substModules c first refs) ∧
    (∀ level map, c.abstractModules level map = Con.Plain.abstractModules c level map) ∧
    (∀ skolems base, c.abstractSkolems skolems base = Con.Plain.abstractSkolems c skolems base) ∧
    (∀ {kinds : KindStore} {argument : Con}, argument.Annotated kinds.Spelled →
      (c.subst argument).run kinds = (Con.Plain.subst c argument).run kinds) ∧
    (∀ {kinds : KindStore} {spine : List Con}, (∀ a ∈ spine, a.Annotated kinds.Spelled) →
      (c.instantiate spine).run kinds = (Con.Plain.instantiate c spine).run kinds) ∧
    (∀ {kinds : KindStore}, kinds.Acyclic → ∀ {argument : Con}, argument.Shows kinds →
      Con.Respelled kinds ((c.subst argument).run kinds).1
        ((Con.Plain.subst c argument).run kinds).1) ∧
    (∀ {kinds : KindStore}, kinds.Acyclic → ∀ {spine : List Con}, (∀ a ∈ spine, a.Shows kinds) →
      Con.Respelled kinds ((c.instantiate spine).run kinds).1
        ((Con.Plain.instantiate c spine).run kinds).1) ∧
    ∀ {store : Store}, store.Acyclic → store.kinds.Acyclic → store.kinds.Closed → ∀ fuel,
      (zonk fuel c store).map Prod.fst = (Plain.zonk fuel c store).map Prod.fst ∧
      (unsolvedMVars fuel c = do return (← zonk fuel c).visitMVars) ∧
      (unsolvedMVars fuel c store).map Prod.fst =
        (Plain.zonk fuel c store).map (fun r => r.1.mvars) ∧
      (skolemsOf fuel c = do return (← zonk fuel c).visitSkolems) ∧
      (skolemsOf fuel c store).map Prod.fst =
        (Plain.zonk fuel c store).map (fun r => r.1.skolems) := by
  have hmetadata := built.metadataAt_eq hc
  rw [hmetadata]
  refine ⟨rfl, c.bound_exact, c.has_mvar_iff, c.has_error_iff, c.has_skolem_iff,
    c.has_relative_iff, c.has_member_iff, c.has_global_iff, c.liftAbove_eq_plain,
    c.strengthen_eq_plain, c.substModules_eq_plain, c.abstractModules_eq_plain,
    c.abstractSkolems_eq_plain, ?_, ?_, ?_, ?_, ?_⟩
  · intro kinds argument hargument
    rw [Con.subst_eq_instantiate, Con.Plain.subst_eq_instantiate]
    exact Con.instantiate_eq_of_spelled (List.forall_mem_singleton.mpr hargument) c
  · exact fun hspine => Con.instantiate_eq_of_spelled hspine c
  · intro kinds acyclic argument hargument
    rw [Con.subst_eq_instantiate, Con.Plain.subst_eq_instantiate]
    exact (Con.Respelled.instantiate (.refl acyclic) (.refl acyclic) rfl
      (List.forall₂_same.mpr fun _ _ => rfl) (List.forall_mem_singleton.mpr hargument)).1
  · intro kinds acyclic spine hspine
    exact (Con.Respelled.instantiate (.refl acyclic) (.refl acyclic) rfl
      (List.forall₂_same.mpr fun _ _ => rfl) hspine).1
  · intro store acyclic kinds closed fuel
    have hzonk := zonk_eq_plain acyclic kinds closed fuel c
    have hmap : ∀ {α : Type} (f : Con → α), ((do return f (← zonk fuel c) : FuelM α) store).map
        Prod.fst = (Plain.zonk fuel c store).map fun r => f r.1 := by
      intro α f
      have hfirst : ((do return f (← zonk fuel c) : FuelM α) store).map Prod.fst =
          ((zonk fuel c store).map Prod.fst).map f := by
        change ((zonk fuel c store).bind fun r => some (f r.1, r.2)).map Prod.fst = _
        cases zonk fuel c store <;> rfl
      rw [hfirst, hzonk, Option.map_map]
      rfl
    exact ⟨hzonk, by simp only [unsolvedMVars, Con.visitMVars_eq], hmap Con.mvars,
      by simp only [skolemsOf, Con.visitSkolems_eq], hmap Con.skolems⟩

/-- A pool of three nodes, the last of them a function over an occurrence that is solved. -/
theorem Store.skipping_exact_underBinder :
    let pool := ((Pool.empty.push (.bvar 1)).push (.mvar 0 [0])).push (.abs "x" (.mvar 0) 1)
    let c : Con := .abs "x" (.mvar 0) (.mvar 0 [.bvar 1])
    let store := solvedByConstant linkedToType
    pool.constructor? 2 = some c ∧ (pool.metadataAt 2).bound = 1 ∧
      (pool.metadataAt 2).has .mvar = true ∧ (pool.metadataAt 2).has .skolem = false ∧
      (zonk 3 c store).map Prod.fst = some (.abs "x" .type (.abs "y" .type (.bvar 2))) ∧
      (zonk 3 c store).map Prod.fst = (Plain.zonk 3 c store).map Prod.fst ∧
      (c.subst (.kabs "K" (.abs "y" (.bvar 0) (.bvar 1)))).run store.kinds =
        (Con.Plain.subst c (.kabs "K" (.abs "y" (.bvar 0) (.bvar 1)))).run store.kinds := by
  intro pool c store
  have hbuilt : pool.Built :=
    ((Pool.Built.empty.push (by simp [Pool.empty]) (by simp [Node.parts])).push
    (by simp [Pool.empty]) (by simp [Node.parts, Pool.empty])).push (by simp [Pool.empty])
    (by simp [Node.parts, Pool.empty])
  have hc : pool.constructor? 2 = some c := rfl
  have hclosed : linkedToType.Closed := fun hv => eq_of_linkedToType hv ▸ Kind.vars_of_hasBVar rfl 0
  have hargument :
      (Con.kabs "K" (.abs "y" (.bvar 0) (.bvar 1))).Annotated linkedToType.Spelled := by
    refine .intro (by simp [Con.annotations]) fun p hp => List.mem_singleton.mp hp ▸ ?_
    refine .intro (fun k hk v hv => ?_) fun p hp => List.mem_singleton.mp hp ▸ Con.Annotated.bvar 1
    rw [List.mem_singleton.mp hk] at hv
    cases hv
  obtain ⟨hmetadata, -, -, -, -, -, -, -, -, -, -, -, -, hsubst, -, -, -, hzonk⟩ :=
    Store.skipping_exact hbuilt hc
  obtain ⟨hplain, -⟩ := hzonk (steady_solvedByConstant linkedToType).acyclic acyclic_linkedToType
    hclosed 3
  refine ⟨hc, ?_, ?_, ?_, rfl, hplain, hsubst hargument⟩
  · rw [hmetadata]
    rfl
  · rw [hmetadata]
    rfl
  · rw [hmetadata]
    rfl

/-- A flag says what is written: where the annotation of the argument is linked to a variable, the
argument keeps the variable under the binder of the body. -/
theorem Store.substitution_skips :
    let argument : Con := .abs "x" (.mvar 0) (.bvar 0)
    let body : Con := .kabs "K" (.bvar 0)
    ((body.subst argument).run linkedToVariable).1 = .kabs "K" (.abs "x" (.mvar 0) (.bvar 0)) ∧
      ((Con.Plain.subst body argument).run linkedToVariable).1 =
        .kabs "K" (.abs "x" (.bvar 1) (.bvar 0)) ∧
      ¬ Con.Respelled linkedToVariable ((body.subst argument).run linkedToVariable).1
        ((Con.Plain.subst body argument).run linkedToVariable).1 := by
  refine ⟨rfl, rfl, fun h => ?_⟩
  cases h

end RowML
