import RowML.Proofs.Kind.Commutation
import RowML.Proofs.Normal.Form
import RowML.Proofs.Store.Composition

/-!
# Kind variables in constructors before and after zonking

Shifting the kind variables of a constructor, or putting a kind for one, skips every part in which
no kind variable is written, as the operations on kinds do.  Where no part hides a kind variable, it
makes no difference whether the annotations are spelled out before or afterwards.
-/

namespace RowML

namespace Con

variable {base : KindStore} {c : Con}

/-! ## Annotations that are spelled out -/

/-- The constructor with its kind annotations spelled out. -/
def expandKinds (ks : KindStore) (c : Con) : Con :=
  c.traverse (fun _ i => .bvar i) (fun _ k => ks.expand k) Depth.zero

private theorem traverse_expand (ks : KindStore) (c : Con) (d : Depth) :
    c.traverse (fun _ i => .bvar i) (fun _ k => ks.expand k) d = c.expandKinds ks := by
  induction c using inductionOnParts generalizing d with
  | step c ih =>
    by_cases hbvar : ∃ i, c = .bvar i
    · obtain ⟨i, rfl⟩ := hbvar
      rfl
    · have hbvar : ∀ i, c ≠ .bvar i := fun i hi => hbvar ⟨i, hi⟩
      unfold expandKinds
      refine eq_of_frame ?_ ?_ ?_
      · rw [frame_traverse hbvar, frame_traverse hbvar]
      · rw [annotations_traverse hbvar, annotations_traverse hbvar]
      · rw [parts_traverse hbvar, parts_traverse hbvar]
        exact List.map_congr_left fun p hp => (ih p hp _).trans (ih p hp _).symm

@[simp] theorem expandKinds_bvar (i : Nat) : (Con.bvar i).expandKinds base = .bvar i := rfl

@[simp] theorem frame_expandKinds (c : Con) : (c.expandKinds base).frame = c.frame := by
  by_cases hbvar : ∃ i, c = .bvar i
  · obtain ⟨i, rfl⟩ := hbvar
    rfl
  · exact frame_traverse fun i hi => hbvar ⟨i, hi⟩

@[simp] theorem annotations_expandKinds (c : Con) :
    (c.expandKinds base).annotations = c.annotations.map base.expand := by
  by_cases hbvar : ∃ i, c = .bvar i
  · obtain ⟨i, rfl⟩ := hbvar
    rfl
  · exact annotations_traverse fun i hi => hbvar ⟨i, hi⟩

@[simp] theorem parts_expandKinds (c : Con) :
    (c.expandKinds base).parts = c.parts.map (expandKinds base) := by
  by_cases hbvar : ∃ i, c = .bvar i
  · obtain ⟨i, rfl⟩ := hbvar
    rfl
  · rw [expandKinds, parts_traverse fun i hi => hbvar ⟨i, hi⟩]
    exact List.map_congr_left fun p _ => traverse_expand base p _

theorem expandKinds_expandKinds (acyclic : base.Acyclic) (c : Con) :
    (c.expandKinds base).expandKinds base = c.expandKinds base := by
  induction c using inductionOnParts with
  | step c ih =>
    refine eq_of_frame (by simp) ?_ ?_
    · simpa using fun k _ => acyclic.expand_expand k
    · simpa using ih

/-! ## Parts that hide a kind variable -/

/-- The annotations hide no variable, and those of a part in which no kind variable is written have
none. -/
def Shows (ks : KindStore) (c : Con) : Prop :=
  c.All fun node => ∀ k ∈ node.annotations,
    ks.Shows k ∧ (node.has .kindBVar = false → (ks.expand k).Closed)

theorem Nodes.of_all {Q : Con → Prop} (h : c.All Q) (d : Depth) : Nodes (fun _ => Q) d c := by
  induction h generalizing d with
  | intro top _ ih => exact .intro top fun p hp => ih p hp _

theorem has_of_part {feature : Feature} {p : Con} (h : c.has feature = false) (hp : p ∈ c.parts) :
    p.has feature = false :=
  has_eq_false_iff.mpr ((has_eq_false_iff (d := Depth.zero).mp h).part p hp)

theorem hasBVar_of_has {k : Kind} (h : c.has .kindBVar = false) (hk : k ∈ c.annotations) :
    k.hasBVar = false := by
  have hnode := (has_eq_false_iff (d := Depth.zero).mp h).top
  simp only [exhibits, List.any_eq_false] at hnode
  simpa using hnode k hk

namespace Shows

theorem part {p : Con} (h : c.Shows base) (hp : p ∈ c.parts) : p.Shows base := (All.iff.mp h).2 p hp

theorem kind {k : Kind} (h : c.Shows base) (hk : k ∈ c.annotations) : base.Shows k :=
  ((All.iff.mp h).1 k hk).1

/-- A part that is skipped has closed annotations. -/
theorem closed (h : c.Shows base) (hhas : c.has .kindBVar = false) :
    (c.expandKinds base).All fun node => ∀ k ∈ node.annotations, k.Closed := by
  induction c using inductionOnParts with
  | step c ih =>
    refine .intro ?_ ?_
    · rw [annotations_expandKinds]
      exact List.forall_mem_map.mpr fun k hk => ((All.iff.mp h).1 k hk).2 hhas
    · rw [parts_expandKinds]
      exact List.forall_mem_map.mpr fun p hp => ih p hp (h.part hp) (has_of_part hhas hp)

/-- Where no link has a free variable, no constructor hides one. -/
theorem of_closed (acyclic : base.Acyclic) (hclosed : base.Closed) (c : Con) : c.Shows base := by
  induction c using inductionOnParts with
  | step c ih =>
    refine .intro (fun k hk => ⟨acyclic.shows hclosed k, fun hhas => ?_⟩) ih
    rw [KindStore.expand_eq_assign]
    exact Kind.Vars.assign (Kind.vars_of_hasBVar (hasBVar_of_has hhas hk) 0)
      (acyclic.spelled_closed hclosed)

end Shows

/-! ## Passes over annotations -/

section Passes

variable {kinds : Nat → Kind → Kind} {kind : Depth → Kind → KindM Kind}

/-- The annotations of a constructor, spelled out and then treated as `kinds` says. -/
def withKinds (kinds : Nat → Kind → Kind) (d : Depth) (c : Con) : Con :=
  c.traverse (fun _ i => .bvar i) (fun e k => kinds e.kind k) d

private def respelling (base : KindStore) (kinds : Nat → Kind → Kind) : PassSpec KindStore where
  Pre _ _ c := c.Shows base
  KindPre _ _ k := base.Shows k
  Enters _ _ _ := True
  Post _ d c c' := c'.expandKinds base = (c.expandKinds base).withKinds kinds d
  KindPost _ d k k' := base.expand k' = kinds d.kind (base.expand k)

private theorem close_respelling {d : Depth} {c c' : Con} {ks : KindStore}
    (related : (respelling base kinds).Related ks d c c') :
    c'.expandKinds base = (c.expandKinds base).withKinds kinds d := by
  by_cases hbvar : ∃ i, c = .bvar i
  · obtain ⟨i, rfl⟩ := hbvar
    rw [← eq_of_frame_leaf related.frame rfl rfl]
    rfl
  · have hbvar : ∀ i, c.expandKinds base ≠ .bvar i :=
      ne_bvar_of_frame (frame_expandKinds c) fun i hi => hbvar ⟨i, hi⟩
    unfold withKinds
    refine eq_of_frame ?_ ?_ ?_
    · rw [frame_traverse hbvar, frame_expandKinds, frame_expandKinds, related.frame]
    · rw [annotations_traverse hbvar, annotations_expandKinds, annotations_expandKinds,
        List.map_map]
      exact map_eq_map_of_forall₂ related.annotations
    · rw [parts_traverse hbvar, parts_expandKinds, parts_expandKinds, List.map_map,
        binders_eq (frame_expandKinds c)]
      exact map_eq_map_of_forall₂ related.parts

/-- A pass over the annotations that skips the parts in which no kind variable is written. -/
theorem Shows.rebuildM (acyclic : base.Acyclic) (hfollows : ∀ d k, KindStore.OnlyFollows (kind d k))
    (hkind : ∀ d k, base.Shows k →
      base.expand ((kind d k).run base).1 = kinds d.kind (base.expand k))
    (hclosed : ∀ d k, Kind.Closed k → kinds d k = k) (hc : c.Shows base) :
    (((c.rebuildM (fun _ node => pure (if node.has .kindBVar then none else some node)) kind
      Depth.zero).run base).1).expandKinds base =
        (c.expandKinds base).withKinds kinds Depth.zero := by
  have hkept : ∀ {c : Con} {d : Depth}, c.Shows base → c.has .kindBVar = false →
      (c.expandKinds base).withKinds kinds d = c.expandKinds base := by
    intro c d hc hhas
    refine traverse_eq_self d Depth.zero
      ((Nodes.of_all (hc.closed hhas) _).mono fun e node hnode => ?_)
    exact ⟨fun _ _ => rfl, fun k hk => hclosed _ k (hnode k hk)⟩
  have hpass : Pass (KindStore.rereading base) (respelling base kinds)
      (fun _ node => pure (if node.has .kindBVar then none else some node)) kind :=
    { pre_grows := fun _ _ h => h
      kindPre_grows := fun _ _ h => h
      enters_grows := fun _ _ h => h
      post_grows := fun _ _ h => h
      kindPost_grows := fun _ _ h => h
      pre_part := fun h hp => h.part hp
      pre_kind := fun h hk => h.kind hk
      node_yields := by
        intro ks d c ok hc
        refine Yields.pure ok ?_
        split
        next => trivial
        next h => exact (hkept hc (by simpa using h)).symm
      kind_yields := by
        intro ks d k ok hk
        refine (KindStore.OnlyFollows.yields (hfollows d k) ok).mono fun k' _ _ _ heq => ?_
        exact heq ▸ hkind d k hk
      close := fun _ _ _ related => close_respelling related }
  exact ((hpass.rebuildM_yields c (KindStore.SameChains.refl acyclic) hc) _ _ rfl).2.2 _ rfl

end Passes

variable {argument : Kind}

theorem Shows.liftKinds (acyclic : base.Acyclic) (hc : c.Shows base) (amount : Nat) :
    ((c.liftKinds amount).run base).1.expandKinds base =
      (c.expandKinds base).withKinds (fun d k => k.shift amount d) Depth.zero := by
  unfold Con.liftKinds
  split
  next h =>
    subst h
    exact (traverse_eq_self Depth.zero Depth.zero (Nodes.of_forall fun _ _ => by simp)).symm
  next =>
    refine Shows.rebuildM acyclic (fun _ _ _ _ hr => KindStore.lift_throughout hr _ _ _)
      (fun d k hk => acyclic.lift_expand hk amount d.kind) (fun d k hk => ?_) hc
    exact Kind.mapVars_of_closed hk 0 fun e i hi => by rw [Kind.shiftVar, if_neg (by omega)]

theorem Shows.substKind (acyclic : base.Acyclic) (hc : c.Shows base)
    (hargument : base.Shows argument) :
    ((c.substKind argument).run base).1.expandKinds base =
      (c.expandKinds base).kindSubstituted (base.expand argument) := by
  refine @Shows.rebuildM _ _ (fun d k => k.substitute (base.expand argument) d) _ acyclic
    (fun _ _ _ _ hr => KindStore.subst_throughout hr _ _ _)
    (fun d k hk => acyclic.subst_expand hk hargument d.kind) (fun d k hk => ?_) hc
  refine Kind.mapVars_of_closed hk 0 fun e i hi => ?_
  rw [Kind.substVar, if_neg (by omega), if_neg (by omega)]

theorem expandKinds_of_has (h : c.has .kindMVar = false) : c.expandKinds base = c := by
  refine traverse_eq_self Depth.zero Depth.zero
    ((has_eq_false_iff.mp h).mono fun d node hnode => ?_)
  refine ⟨fun _ _ => rfl, fun k hk => ?_⟩
  have hmvars : k.mvars = [] := by
    simp only [exhibits, List.any_eq_false] at hnode
    simpa [Kind.hasMVar] using hnode k hk
  rw [KindStore.expand_eq_assign]
  exact (Kind.assign_congr (by simp [hmvars])).trans (Kind.assign_self k)

theorem mentions_expandKinds {i : MetaId} : (c.expandKinds base).Mentions i → c.Mentions i := by
  intro h
  rcases mentions_traverse h with h | ⟨_, _, h⟩
  · exact h
  · cases h with
    | part hp _ => cases hp

/-- A constructor that is spelled out hides nothing. -/
theorem Shows.expandKinds (acyclic : base.Acyclic) (c : Con) : (c.expandKinds base).Shows base := by
  induction c using inductionOnParts with
  | step c ih =>
    refine .intro ?_ ?_
    · intro k hk
      have hmem := hk
      rw [annotations_expandKinds] at hmem
      obtain ⟨k, -, rfl⟩ := List.mem_map.mp hmem
      refine ⟨.of_spelled fun v hv => acyclic.not_linked_of_mem_expand hv, fun hhas => ?_⟩
      rw [acyclic.expand_expand]
      exact Kind.vars_of_hasBVar (hasBVar_of_has hhas hk) 0
    · rw [parts_expandKinds]
      exact List.forall_mem_map.mpr ih

end Con

/-- What is known of a result of a computation that ends. -/
theorem Ends.of_yields {m : Type → Type} {σ α : Type} [Monad m] [Executes m σ]
    {D D' : Discipline σ} {s : σ} {x : Nat → m α} {Post Post' : α → σ → Prop}
    (h : Ends D' s x Post')
    (hx : ∀ fuel, Yields D s (x fuel) Post) : Ends D s x Post := by
  obtain ⟨n, a, s', hrun, -⟩ := h
  obtain ⟨ok, grows, post⟩ := hx n a s' (hrun n (Nat.le_refl n))
  exact ⟨n, a, s', hrun, ok, grows, post a rfl⟩

namespace Store

variable {base store : Store} {c : Con}

/-! ## Zonking where nothing is solved -/

/-- The discipline of computations that only follow links of kinds, started in `base`. -/
def followingKinds (base : Store) : Discipline Store where
  Ok store := store.solution? = base.solution? ∧ base.kinds.SameChains store.kinds
  Grows _ _ := True
  refl _ _ := trivial
  trans _ _ _ _ _ := trivial

theorem onKinds_follows {α : Type} {x : KindM α} (hx : KindStore.OnlyFollows x)
    (ok : (followingKinds base).Ok store) :
    exec (onKinds x) store =
      some (some (x.run base.kinds).1, store.withKinds (x.run store.kinds).2) ∧
      (followingKinds base).Ok (store.withKinds (x.run store.kinds).2) := by
  refine ⟨?_, ok.1, ok.2.trans (hx.again (.refl ok.2.acyclic.2)).2⟩
  exact congrArg (fun a => some (some a, store.withKinds (x.run store.kinds).2)) (hx.again ok.2).1

/-- The specification of zonking where nothing is solved. -/
private def expandingKinds (base : Store) : Con.PassSpec Store where
  Pre _ _ c := ∀ i, c.Mentions i → base.isSolved i = false
  KindPre _ _ _ := True
  Enters _ _ _ := True
  Post _ _ c c' := c' = c.expandKinds base.kinds
  KindPost _ _ k k' := k' = base.kinds.expand k

private theorem zonkKind_expands (d : Depth) (k : Kind) (ok : (followingKinds base).Ok store) :
    ∃ store', (followingKinds base).Ok store' ∧
      exec (zonkKind d k) store = some (some (base.kinds.expand k), store') := by
  obtain ⟨hrun, ok'⟩ := onKinds_follows (fun hr => KindStore.zonk_throughout hr k) ok
  rw [ok.2.acyclic.1.zonk_eq] at hrun
  exact ⟨_, ok', hrun⟩

private theorem resolve_unsolved {i : MetaId} {spine : List Con}
    (hi : base.isSolved i = false) (ok : (followingKinds base).Ok store) :
    exec (liftM (resolve (.mvar i spine)) : FuelM Con) store =
      some (some (.mvar i spine), store) := by
  have hunsolved : ∀ j spine', Con.mvar i spine = .mvar j spine' → store.isSolved j = false := by
    rintro _ _ ⟨⟩
    rwa [isSolved, ok.1]
  exact congrArg (fun r => some (some r.1, r.2)) (resolveWithin_unsolved hunsolved store.cells.size)

theorem zonk_unsolved_yields (fuel : Nat) (ok : (followingKinds base).Ok store)
    (hc : ∀ i, c.Mentions i → base.isSolved i = false) :
    Yields (followingKinds base) store (zonk fuel c) fun r _ => r = c.expandKinds base.kinds := by
  cases fuel with
  | zero => exact Yields.of_none rfl
  | succ fuel =>
    have hpass : Con.Pass (followingKinds base) (expandingKinds base) (zonkNode fuel) zonkKind :=
      { pre_grows := fun _ _ h => h
        kindPre_grows := fun _ _ h => h
        enters_grows := fun _ _ h => h
        post_grows := fun _ _ h => h
        kindPost_grows := fun _ _ h => h
        pre_part := fun h hp i hi => h i (.part hp hi)
        pre_kind := fun _ _ => trivial
        node_yields := by
          intro store d c ok hc
          unfold zonkNode
          split
          next h =>
            simp only [Bool.not_eq_true', Bool.or_eq_false_iff] at h
            exact Yields.pure ok (Con.expandKinds_of_has h.2).symm
          next =>
            split
            next i spine _ =>
              refine Yields.next (resolve_unsolved (hc i (.here spine)) ok) ok ok trivial ?_
              rw [if_neg (by simp)]
              exact Yields.pure ok trivial
            next => exact Yields.pure ok trivial
        kind_yields := by
          intro store d k ok _
          obtain ⟨store', ok', hrun⟩ := zonkKind_expands d k ok
          exact Yields.of_exec hrun ok' trivial rfl
        close := by
          intro store d c c' ok _ _ related
          refine Con.eq_of_frame ?_ ?_ ?_
          · rw [Con.frame_expandKinds, related.frame]
          · rw [Con.annotations_expandKinds]
            simpa using map_eq_map_of_forall₂ (g := id) related.annotations
          · rw [Con.parts_expandKinds]
            simpa using map_eq_map_of_forall₂ (g := id) related.parts }
    exact hpass.rebuildM_yields c ok hc

private theorem rebuildM_unsolved_ends (hc : ∀ i, c.Mentions i → base.isSolved i = false) :
    Con.RebuildEnds (followingKinds base) zonkNode (fun _ => zonkKind) base c := by
  induction c using Con.inductionOnParts with
  | step c ih =>
    intro store d ok _
    refine Con.rebuildM_ends ok (fun d k ok => ?_) ?_
    · obtain ⟨store', ok', hrun⟩ := zonkKind_expands d k ok
      exact .of_exec (fun _ => hrun) ok' trivial trivial
    have hbelow : ∀ {store' : Store}, ∀ p ∈ c.parts,
        Con.RebuildEnds (followingKinds base) zonkNode (fun _ => zonkKind) store' p :=
      fun p hp store'' d' ok'' _ => ih p hp (fun i hi => hc i (.part hp hi)) store'' d' ok'' trivial
    unfold zonkNode
    split
    next => exact .pure ok (by simp)
    next =>
      split
      next i spine _ =>
        have hresolve : Ends (followingKinds base) store
            (fun _ => (liftM (resolve (.mvar i spine)) : FuelM Con))
            fun r _ => r = .mvar i spine :=
          .of_exec (fun _ => resolve_unsolved (hc i (.here spine)) ok) ok trivial rfl
        refine .bind ok hresolve fun r store' ok' _ hr => ?_
        split
        next hne => exact absurd hr hne
        next => exact .pure ok' fun _ => hbelow
      next => exact .pure ok fun _ => hbelow

/-- Where nothing in it is solved, zonking a constructor spells its annotations out. -/
theorem zonk_unsolved (ok : (followingKinds base).Ok store)
    (hc : ∀ i, c.Mentions i → base.isSolved i = false) :
    Ends (followingKinds base) store (fun fuel => zonk fuel c) fun r _ =>
      r = c.expandKinds base.kinds := by
  have hends := Ends.of_succ (x := fun fuel => zonk fuel c)
    (rebuildM_unsolved_ends hc store Depth.zero ok trivial)
  exact .of_yields hends fun fuel => zonk_unsolved_yields fuel ok hc

/-! ## Main result -/

private theorem onKinds_ends {α : Type} {x : KindM α} (hx : KindStore.OnlyFollows x)
    (ok : (followingKinds base).Ok store) :
    Ends (followingKinds base) store (fun _ => (liftM (onKinds x) : FuelM α)) fun a _ =>
      a = (x.run base.kinds).1 := by
  obtain ⟨hrun, ok'⟩ := onKinds_follows hx ok
  exact .of_exec (fun _ => hrun) ok' trivial rfl

private theorem zonk_onKinds {x : KindM Con} {r : Con} (hx : KindStore.OnlyFollows x)
    (ok : (followingKinds base).Ok store)
    (hr : (x.run base.kinds).1.expandKinds base.kinds = r)
    (hunsolved : ∀ i, r.Mentions i → base.isSolved i = false) :
    Ends (followingKinds base) store (fun fuel => (do zonk fuel (← onKinds x) : FuelM Con))
      fun c _ => c = r := by
  refine .bind ok (onKinds_ends hx ok) fun c store' ok' _ hc => ?_
  subst hc hr
  exact zonk_unsolved ok' fun i hi => hunsolved i (hi.traverse _)

end Store

theorem Ends.answer {σ α : Type} {D : Discipline σ} {s : σ} {x : Nat → Fuelled σ α} {a : α}
    (h : Ends D s x fun r _ => r = a) : Ends (.indifferent σ) s x fun r _ => r = a := by
  obtain ⟨n, r, s', hrun, -, -, hr⟩ := h
  exact ⟨n, r, s', hrun, trivial, trivial, hr⟩

open KindStore in
/-- Where no part hides a kind variable, substitution for a kind variable and shifting come to the
same before and after zonking. -/
theorem substitution_zonked {store : Store} (acyclic : store.kinds.Acyclic) {k argument : Kind}
    (hk : store.kinds.Shows k) (hargument : store.kinds.Shows argument) {c : Con}
    (hc : c.Shows store.kinds) (hunsolved : ∀ i, c.Mentions i → store.isSolved i = false)
    (index amount cutoff : Nat) :
    ((do zonk (← subst k argument index)).run store.kinds).1 =
        ((do zonk (← subst (← zonk k) (← zonk argument) index)).run store.kinds).1 ∧
      ((do zonk (← lift k amount cutoff)).run store.kinds).1 =
        ((do zonk (← lift (← zonk k) amount cutoff)).run store.kinds).1 ∧
      (∃ r, Ends (.indifferent Store) store (fun fuel => (do
          Store.zonk fuel (← onKinds (c.substKind argument)) : FuelM Con)) (fun x _ => x = r) ∧
        Ends (.indifferent Store) store (fun fuel => (do
          let c ← Store.zonk fuel c
          let argument ← onKinds (zonk argument)
          Store.zonk fuel (← onKinds (c.substKind argument)) : FuelM Con)) fun x _ => x = r) ∧
      ∃ r, Ends (.indifferent Store) store (fun fuel => (do
          Store.zonk fuel (← onKinds (c.liftKinds amount)) : FuelM Con)) (fun x _ => x = r) ∧
        Ends (.indifferent Store) store (fun fuel => (do
          Store.zonk fuel (← onKinds ((← Store.zonk fuel c).liftKinds amount)) : FuelM Con))
            fun x _ => x = r := by
  have hok : (Store.followingKinds store).Ok store := ⟨rfl, .refl acyclic⟩
  have hmentions : ∀ {kinds : Depth → Kind → Kind} (i : MetaId),
      ((c.expandKinds store.kinds).traverse (fun _ i => .bvar i) kinds Depth.zero).Mentions i →
      store.isSolved i = false := by
    intro kinds i hi
    rcases Con.mentions_traverse hi with hi | ⟨_, _, hi⟩
    · exact hunsolved i (Con.mentions_expandKinds hi)
    · cases hi with
      | part hp _ => cases hp
  refine ⟨?_, ?_,
    ⟨(c.expandKinds store.kinds).kindSubstituted (store.kinds.expand argument), ?_, ?_⟩,
    ⟨(c.expandKinds store.kinds).withKinds (fun d k => k.shift amount d) Depth.zero, ?_, ?_⟩⟩
  · exact (acyclic.zonk_subst hk hargument index).trans
      (acyclic.zonk_subst_zonk k argument index).symm
  · exact (acyclic.zonk_lift hk amount cutoff).trans (acyclic.zonk_lift_zonk k amount cutoff).symm
  · exact (Store.zonk_onKinds (fun hr => Con.substKind_throughout hr c argument) hok
      (hc.substKind acyclic hargument) hmentions).answer
  · refine Ends.answer (.bind hok (Store.zonk_unsolved hok hunsolved) fun c' s ok _ hc' => ?_)
    refine .bind ok (Store.onKinds_ends (fun hr => zonk_throughout hr argument) ok)
      fun argument' s ok _ hargument' => ?_
    rw [acyclic.zonk_eq] at hargument'
    subst hc' hargument'
    refine Store.zonk_onKinds (fun hr => Con.substKind_throughout hr _ _) ok ?_ hmentions
    rw [(Con.Shows.expandKinds acyclic c).substKind acyclic (acyclic.shows_expand argument),
      Con.expandKinds_expandKinds acyclic, acyclic.expand_expand]
  · exact (Store.zonk_onKinds (fun hr => Con.liftKinds_throughout hr c amount) hok
      (hc.liftKinds acyclic amount) hmentions).answer
  · refine Ends.answer (.bind hok (Store.zonk_unsolved hok hunsolved) fun c' s ok _ hc' => ?_)
    subst hc'
    refine Store.zonk_onKinds (fun hr => Con.liftKinds_throughout hr _ _) ok ?_ hmentions
    rw [(Con.Shows.expandKinds acyclic c).liftKinds acyclic amount,
      Con.expandKinds_expandKinds acyclic]

/-- A metavariable that unification has linked to the innermost kind variable. -/
def linkedToVariable : KindStore := ⟨#[.link (.bvar 0)], [], 0⟩

theorem acyclic_linkedToVariable : linkedToVariable.Acyclic := by
  refine ⟨fun _ => 0, ?_⟩
  rintro v w ⟨target, hv, hw⟩
  have hlt : v < 1 := KindStore.lt_of_link hv
  obtain rfl : v = 0 := by omega
  cases hv
  cases hw

/-- Beside a variable that is written, the metavariable is not skipped. -/
private theorem shows_besideVariable :
    linkedToVariable.Shows (.arrow (.mvar 0) (.bvar 1)) := by
  refine .node rfl fun p hp => ?_
  rcases List.mem_pair.mp hp with rfl | rfl
  · have hroot : linkedToVariable.Shows (.bvar 0) := .node rfl (by simp [Kind.parts])
    exact .solution hroot
  · exact .node rfl (by simp [Kind.parts])

open KindStore in
theorem substitution_zonked_besideVariable :
    let store : Store := { Store.empty with kinds := linkedToVariable }
    let k := Kind.arrow (.mvar 0) (.bvar 1)
    ((do zonk (← subst k .type 0)).run linkedToVariable).1 = .arrow .type (.bvar 0) ∧
      ((do zonk (← subst k .type 0)).run linkedToVariable).1 =
        ((do zonk (← subst (← zonk k) (← zonk .type) 0)).run linkedToVariable).1 ∧
      ∃ r, Ends (.indifferent Store) store (fun fuel => (do
          Store.zonk fuel (← onKinds ((Con.abs "x" k (.bvar 0)).substKind .type)) : FuelM Con))
        fun x _ => x = r := by
  have hk := shows_besideVariable
  have hc : (Con.abs "x" (.arrow (.mvar 0) (.bvar 1)) (.bvar 0)).Shows linkedToVariable := by
    refine .intro (fun k hk' => ?_) fun p hp => ?_
    · obtain rfl := List.mem_singleton.mp hk'
      exact ⟨hk, nofun⟩
    · obtain rfl := List.mem_singleton.mp hp
      exact .intro nofun nofun
  obtain ⟨hsubst, -, ⟨r, hr, -⟩, -⟩ := @substitution_zonked
    { Store.empty with kinds := linkedToVariable } acyclic_linkedToVariable _ .type hk
    (.of_spelled nofun) _ hc (fun i hi => absurd hi (Con.not_mentions_of_has rfl)) 0 0 0
  exact ⟨rfl, hsubst, r, hr⟩

/-- Where the metavariable stands beside no variable, the kind around it is skipped, and its
variable is neither replaced nor shifted. -/
theorem substitution_hidden :
    (do let v ← KindStore.fresh .any; KindStore.unify 2 v (.bvar 0) : KindUnifyM Unit).run.run
        KindStore.empty = some (.ok (), linkedToVariable) ∧
      linkedToVariable.Acyclic ∧
      ((do KindStore.zonk (← KindStore.subst (.arrow (.mvar 0) .type) .type 0)).run
        linkedToVariable).1 = .arrow (.bvar 0) .type ∧
      ((do KindStore.zonk (← KindStore.subst (← KindStore.zonk (.arrow (.mvar 0) .type))
        (← KindStore.zonk .type) 0)).run linkedToVariable).1 = .arrow .type .type ∧
      ((do KindStore.zonk (← KindStore.lift (.arrow (.mvar 0) .type) 1 0)).run
        linkedToVariable).1 = .arrow (.bvar 0) .type ∧
      ((do KindStore.zonk (← KindStore.lift (← KindStore.zonk (.arrow (.mvar 0) .type)) 1 0)).run
        linkedToVariable).1 = .arrow (.bvar 1) .type :=
  ⟨rfl, acyclic_linkedToVariable, rfl, rfl, rfl, rfl⟩

end RowML
