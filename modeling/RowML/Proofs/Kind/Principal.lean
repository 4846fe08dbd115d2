import RowML.Proofs.Kind.Solutions
import Mathlib.Data.Finset.Card

/-!
# Unification of kinds computes most general unifiers

Every link takes an unbound variable away, and as long as none is taken away the kinds that are
compared get smaller, spelled out.  So unification ends, with one outcome for all amounts of fuel
that are enough.  The outcome does not depend on the order of the two kinds.
-/

namespace RowML

namespace KindStore

variable {store store' : KindStore} {v : KindVar}

/-! ## The solution that a store is -/

/-- What a store knows of its unbound variables. -/
def holes (store : KindStore) : Holes where
  predicate v :=
    match store.stateOf v with
    | .unbound predicate _ => predicate
    | .link _ => .any
  component v i :=
    match store.stateOf v with
    | .unbound _ components => (components.lookup i).map (Kind.reading store.spelled)
    | .link _ => none

/-- Where no index is repeated, every entry is found. -/
theorem lookup_of_mem {components : List (Nat × Kind)}
    (hdistinct : (components.map Prod.fst).Nodup) {demand : Nat × Kind}
    (hmem : demand ∈ components) : components.lookup demand.1 = some demand.2 := by
  obtain ⟨before, after, rfl⟩ := List.append_of_mem hmem
  refine List.lookup_eq_some_iff.mpr ⟨before, after, rfl, fun d hd => ?_⟩
  rw [List.map_append, List.map_cons, List.nodup_append] at hdistinct
  simpa using (hdistinct.2.2 d.1 (List.mem_map_of_mem hd) demand.1 (by simp)).symm

/-- A lawful store is satisfied by its own solutions, with the unbound variables as holes. -/
theorem Lawful.satisfies_spelled (lawful : store.Lawful) :
    store.Satisfies store.holes store.spelled := by
  intro v
  cases hv : store.stateOf v with
  | link target => exact lawful.equates_spelled hv
  | unbound predicate components =>
    rw [Kind.reading_mvar, spelled_of_not_linked (not_linked_iff.mpr ⟨_, _, hv⟩)]
    refine ⟨?_, fun demand hmem => ?_⟩
    · change (store.holes.predicate v).Entails predicate
      simp only [holes, hv]
      exact .refl predicate
    · change store.holes.component v demand.1 = _
      simp only [holes, hv]
      rw [lookup_of_mem (lawful.distinct hv) hmem, Option.map_some]

/-! ## What gets smaller -/

/-- The unbound variables of a store. -/
def unbound (store : KindStore) : Finset KindVar :=
  (Finset.range store.vars.size).filter fun v => ¬ store.Linked v

theorem Linked.lt (h : store.Linked v) : v < store.vars.size := by
  obtain ⟨target, hv⟩ := h
  exact lt_of_link hv

namespace Advances

theorem unbound_subset (advances : Advances store store') : store'.unbound ⊆ store.unbound := by
  intro v hv
  simp only [unbound, Finset.mem_filter, Finset.mem_range, advances.size] at hv ⊢
  exact ⟨hv.1, fun h => hv.2 (advances.linked h)⟩

theorem card_unbound_le (advances : Advances store store') :
    store'.unbound.card ≤ store.unbound.card :=
  Finset.card_le_card advances.unbound_subset

theorem card_unbound_lt (advances : Advances store store') (hv : ¬ store.Linked v)
    (hv' : store'.Linked v) : store'.unbound.card < store.unbound.card := by
  refine Finset.card_lt_card ⟨advances.unbound_subset, fun h => ?_⟩
  have hmem : v ∈ store.unbound := by
    simp only [unbound, Finset.mem_filter, Finset.mem_range]
    exact ⟨advances.size ▸ hv'.lt, hv⟩
  exact (Finset.mem_filter.mp (h hmem)).2 hv'

/-- As long as no variable is linked, every kind is spelled as before. -/
theorem reading_spelled (advances : Advances store store') (lawful : store.Lawful)
    (hcard : store.unbound.card ≤ store'.unbound.card) (k : Kind) :
    k.reading store'.spelled = k.reading store.spelled := by
  have hequates : store.Equates store'.spelled :=
    (advances.obeys advances.lawful.satisfies_spelled.obeys).equates
  refine lawful.reading_eq hequates lawful.equates_spelled (fun v hv => ?_) k
  have hv' : ¬ store'.Linked v := fun h =>
    absurd (advances.card_unbound_lt hv h) (Nat.not_lt_of_le hcard)
  rw [Kind.reading_mvar, Kind.reading_mvar, spelled_of_not_linked hv, spelled_of_not_linked hv']

end Advances

/-! ## Ends -/

/-- With enough fuel the computation ends, with an outcome that depends on the fuel no more. -/
def Halts (store : KindStore) (x : Nat → KindUnifyM Unit) : Prop :=
  ∃ n outcome, ∀ fuel, n ≤ fuel → (x fuel).run.run store = some outcome

theorem exec_of_run {x : KindUnifyM Unit} {r : Except KindError Unit}
    (h : x.run.run store = some (r, store')) : exec x store = some (succeeded r, store') := by
  change ((Option.map _ (x.run.run store)).map _) = _
  rw [h]
  rfl

namespace Halts

variable {x y : Nat → KindUnifyM Unit}

theorem of_run {outcome : Except KindError Unit × KindStore}
    (h : ∀ fuel, (x fuel).run.run store = some outcome) : Halts store x :=
  ⟨0, outcome, fun fuel _ => h fuel⟩

theorem succ (h : Halts store fun fuel => x (fuel + 1)) : Halts store x := by
  obtain ⟨n, outcome, hrun⟩ := h
  refine ⟨n + 1, outcome, fun fuel hfuel => ?_⟩
  obtain ⟨fuel, rfl⟩ := Nat.exists_eq_add_one_of_ne_zero (n := fuel) (by omega)
  exact hrun fuel (by omega)

theorem after (store' : KindStore) (h : ∀ fuel, (x fuel).run.run store = (y fuel).run.run store')
    (hy : Halts store' y) : Halts store x := by
  obtain ⟨n, outcome, hrun⟩ := hy
  exact ⟨n, outcome, fun fuel hfuel => (h fuel).trans (hrun fuel hfuel)⟩

theorem bind {E : (KindVar → Kind) → Prop} (hx : Halts store x)
    (hsettles : ∀ fuel, Settles store (x fuel) E)
    (hy : ∀ store', Advances store store' → Halts store' y) :
    Halts store fun fuel => (do x fuel; y fuel) := by
  obtain ⟨n, ⟨r, store'⟩, hrun⟩ := hx
  have hbind : ∀ fuel, n ≤ fuel → (do x fuel; y fuel).run.run store =
      match r with
      | .ok _ => (y fuel).run.run store'
      | .error e => some (.error e, store') := by
    intro fuel hfuel
    rw [ExceptT.run_bind, StateT.run_bind, hrun fuel hfuel]
    cases r <;> rfl
  cases r with
  | error e => exact ⟨n, (.error e, store'), hbind⟩
  | ok a =>
    have advances := (hsettles n _ _ (exec_of_run (hrun n (Nat.le_refl n)))).1
    obtain ⟨m, outcome, hrun'⟩ := hy store' advances
    exact ⟨max n m, outcome, fun fuel hfuel =>
      (hbind fuel (by omega)).trans (hrun' fuel (by omega))⟩

theorem forM {pairs : List (Kind × Kind)} (lawful : store.Lawful)
    (hpairs : ∀ pair ∈ pairs, pair.1.Sound store.vars.size ∧ pair.2.Sound store.vars.size)
    (h : ∀ pair ∈ pairs, ∀ store', Advances store store' →
      Halts store' fun fuel => unify fuel pair.1 pair.2) :
    Halts store fun fuel => pairs.forM fun (a, b) => unify fuel a b := by
  induction pairs generalizing store with
  | nil => exact .of_run fun _ => rfl
  | cons pair pairs ih =>
    obtain ⟨⟨ha, hb⟩, hpairs⟩ := List.forall_mem_cons.mp hpairs
    refine bind (h pair (by simp) store (.refl lawful))
      (fun fuel => unify_settles fuel lawful ha hb)
      fun store' advances => ih advances.lawful (by rwa [advances.size])
        fun pair hpair store'' h' => ?_
    exact h pair (by simp [hpair]) store'' (advances.trans h')

theorem read {f : Nat → KindStore → KindUnifyM Unit} (hf : Halts store fun fuel => f fuel store) :
    Halts store fun fuel => get >>= f fuel :=
  after _ (fun _ => rfl) hf

theorem resolve {k : Kind} {f : Nat → Kind → KindUnifyM Unit} (lawful : store.Lawful)
    (hk : k.Sound store.vars.size)
    (hf : ∀ root store', Traced store k root store' → Halts store' fun fuel => f fuel root) :
    Halts store fun fuel => liftM (KindStore.resolve k) >>= f fuel :=
  after _ (fun _ => rfl) (hf _ _ (lawful.resolve_traced hk))

end Halts

/-- Unification ends in all stores with fewer unbound variables, as the steps use it. -/
def HaltsBelow (store : KindStore) : Prop :=
  ∀ {a b store'}, Advances store store' → store'.unbound.card < store.unbound.card →
    a.Sound store'.vars.size → b.Sound store'.vars.size → Halts store' fun fuel => unify fuel a b

theorem HaltsBelow.forM (H : HaltsBelow store) (advances : Advances store store')
    (hcard : store'.unbound.card < store.unbound.card) {pairs : List (Kind × Kind)}
    (hpairs : ∀ pair ∈ pairs, pair.1.Sound store.vars.size ∧ pair.2.Sound store.vars.size) :
    Halts store' fun fuel => pairs.forM fun (a, b) => unify fuel a b := by
  rw [← advances.size] at hpairs
  refine Halts.forM advances.lawful hpairs fun pair hpair store'' advances' => ?_
  obtain ⟨ha, hb⟩ := hpairs pair hpair
  rw [← advances'.size] at ha hb
  exact H (advances.trans advances') (Nat.lt_of_le_of_lt advances'.card_unbound_le hcard) ha hb

theorem HaltsBelow.advance (H : HaltsBelow store) (advances : Advances store store') :
    HaltsBelow store' := fun advances' hcard ha hb =>
  H (advances.trans advances') (Nat.lt_of_lt_of_le hcard advances.card_unbound_le) ha hb

section Steps

variable {predicate : KindPredicate} {components : List (Nat × Kind)} {target : Kind}

theorem solve_halts (H : HaltsBelow store) (lawful : store.Lawful) (hlt : v < store.vars.size)
    (hsound : target.Sound store.vars.size) (htarget : ∀ w, target ≠ .mvar w)
    (hv : store.stateOf v = .unbound predicate components) :
    Halts store fun fuel => solve (unify fuel) v target := by
  simp only [solve]
  refine .read ?_
  simp only [hv]
  refine .read ?_
  split
  · exact .of_run fun _ => rfl
  next hoccurs =>
  split
  next hadmits =>
    have advances := advances_link lawful hlt hv hsound htarget (by simpa using hoccurs) hadmits
    have hlinked : (store.put v (.link target)).Linked v := ⟨target, by simp [stateOf_put hlt]⟩
    refine .after (store.put v (.link target)) (fun _ => rfl) (H.forM advances
      (advances.card_unbound_lt (not_linked_iff.mpr ⟨_, _, hv⟩) hlinked)
      (demandedPairs_forall (lawful.demands hv) fun _ hp => hsound.part hp))
  · exact .of_run fun _ => rfl

theorem mergeVars_halts (H : HaltsBelow store) (lawful : store.Lawful) {left right : KindVar}
    (hleft : left < store.vars.size) (hright : right < store.vars.size) (hne : left ≠ right)
    {leftPredicate rightPredicate : KindPredicate}
    {leftComponents rightComponents : List (Nat × Kind)}
    (hl : store.stateOf left = .unbound leftPredicate leftComponents)
    (hr : store.stateOf right = .unbound rightPredicate rightComponents) :
    Halts store fun fuel => mergeVars (unify fuel) left right := by
  simp only [mergeVars]
  refine .read (.read ?_)
  simp only [hl, hr]
  split
  · exact .of_run fun _ => rfl
  next predicate hmeet =>
    rcases hmerge : mergeComponents rightComponents leftComponents with ⟨merged, pairs⟩
    obtain ⟨-, hpairs⟩ := mergeComponents_forall (lawful.demands hr) (lawful.demands hl) hmerge
    have advances := advances_merge lawful hleft hright hne hl hr hmeet hmerge
    have hlinked : (store.merge left right predicate merged).Linked left :=
      ⟨.mvar right, by simp [stateOf_merge hleft hright]⟩
    exact .after (store.merge left right predicate merged) (fun _ => rfl)
      (H.forM advances (advances.card_unbound_lt (not_linked_iff.mpr ⟨_, _, hl⟩) hlinked) hpairs)

end Steps

/-- How large a kind is, spelled out. -/
noncomputable def weight (store : KindStore) (k : Kind) : Nat := sizeOf (k.reading store.spelled)

/-- Unification ends if it does so in stores with fewer unbound variables, and in those with as many
for kinds that are smaller. -/
theorem unify_halts_of {a b : Kind} (lawful : store.Lawful) (ha : a.Sound store.vars.size)
    (hb : b.Sound store.vars.size) (H : HaltsBelow store)
    (Hpart : ∀ {p q store'}, Advances store store' → p.Sound store'.vars.size →
      q.Sound store'.vars.size → store.weight p < store.weight a → store.weight q < store.weight b →
      Halts store' fun fuel => unify fuel p q) :
    Halts store fun fuel => unify fuel a b := by
  refine .succ ?_
  simp only [unify]
  split
  · exact .of_run fun _ => rfl
  refine .resolve lawful ha fun a' store₁ traced₁ => ?_
  refine .resolve traced₁.lawful (by rwa [traced₁.size]) fun b' store₂ traced₂ => ?_
  have faces := traced₁.faces traced₂ lawful
  have lawful₂ := faces.advances.lawful
  have ha' := faces.left
  have hb' := faces.right
  obtain ⟨hleft, hright⟩ := faces.reading lawful.equates_spelled
  have Hparts : ∀ {p q store'}, Advances store₂ store' → p ∈ a'.parts → q ∈ b'.parts →
      Halts store' fun fuel => unify fuel p q := by
    intro p q store' advances hp hq
    refine Hpart (faces.advances.trans advances) (advances.size ▸ ha'.part hp)
      (advances.size ▸ hb'.part hq) ?_ ?_
    · rw [weight, weight, ← hleft]
      exact Kind.sizeOf_part_lt _ hp
    · rw [weight, weight, ← hright]
      exact Kind.sizeOf_part_lt _ hq
  split
  · exact .of_run fun _ => rfl
  next hne =>
  split
  next left right =>
    obtain ⟨_, _, hl⟩ := faces.unbound left (.inl rfl)
    obtain ⟨_, _, hr⟩ := faces.unbound right (.inr rfl)
    refine mergeVars_halts (H.advance faces.advances) lawful₂ ha'.lt hb'.lt ?_ hl hr
    rintro rfl
    exact hne (.inl rfl)
  next target htarget =>
    obtain ⟨_, _, hv⟩ := faces.unbound _ (.inl rfl)
    exact solve_halts (H.advance faces.advances) lawful₂ ha'.lt hb' htarget hv
  next target v htarget =>
    obtain ⟨_, _, hv⟩ := faces.unbound v (.inr rfl)
    exact solve_halts (H.advance faces.advances) lawful₂ hb'.lt ha' htarget hv
  next d c d' c' =>
    refine .bind (Hparts (.refl lawful₂) (by simp [Kind.parts]) (by simp [Kind.parts]))
      (fun fuel => unify_settles fuel lawful₂ (ha'.part (by simp [Kind.parts]))
        (hb'.part (by simp [Kind.parts]))) fun store' advances' => ?_
    exact Hparts advances' (by simp [Kind.parts]) (by simp [Kind.parts])
  next e e' => exact Hparts (.refl lawful₂) (by simp [Kind.parts]) (by simp [Kind.parts])
  next ks ks' =>
    split
    next hlength =>
      refine .forM lawful₂ (fun pair hpair => ?_) fun pair hpair store' advances' => ?_
      · have hmem := List.of_mem_zip (a := pair.1) (b := pair.2) hpair
        exact ⟨ha'.part hmem.1, hb'.part hmem.2⟩
      · have hmem := List.of_mem_zip (a := pair.1) (b := pair.2) hpair
        exact Hparts advances' hmem.1 hmem.2
    next => exact .of_run fun _ => rfl
  next => exact Hparts (.refl lawful₂) (by simp [Kind.parts]) (by simp [Kind.parts])
  next => exact .of_run fun _ => rfl

theorem unify_halts {a b : Kind} (lawful : store.Lawful) (ha : a.Sound store.vars.size)
    (hb : b.Sound store.vars.size) : Halts store fun fuel => unify fuel a b := by
  induction hcard : store.unbound.card using Nat.strong_induction_on generalizing store a b with
  | h card ihCard =>
    induction hweight : store.weight a + store.weight b using Nat.strong_induction_on
      generalizing store a b with
    | h weight ihWeight =>
      have H : HaltsBelow store := fun advances hlt ha hb =>
        ihCard _ (hcard ▸ hlt) advances.lawful ha hb rfl
      refine unify_halts_of lawful ha hb H fun {p q store'} advances hp hq hltp hltq => ?_
      rcases Nat.lt_or_ge store'.unbound.card store.unbound.card with hlt | hge
      · exact H advances hlt hp hq
      · have hsame : ∀ k, store'.weight k = store.weight k := fun k =>
          congrArg sizeOf (advances.reading_spelled lawful hge k)
        refine ihWeight (store'.weight p + store'.weight q) ?_ advances.lawful hp hq ?_ rfl
        · rw [hsame, hsame]
          omega
        · have := advances.card_unbound_le
          omega

/-! ## The stores that the operations build -/

theorem lawful_empty : KindStore.empty.Lawful :=
  ⟨fun _ => .unbound (by simp) (by simp) (by simp), fun _ => 0, fun _ _ ⟨_, h, _⟩ => by cases h⟩

theorem Lawful.extend (lawful : store.Lawful) (predicate : KindPredicate) :
    (store.extend predicate).Lawful := by
  have hsize := size_extend store predicate
  obtain ⟨rank, hrank⟩ := lawful.acyclic
  refine ⟨fun v => ?_, rank, ?_⟩
  · rw [stateOf_extend, hsize]
    split
    · exact .unbound (by simp) (by simp) (by simp)
    · exact (lawful.states v).mono (Nat.le_succ _)
  · rintro v w ⟨target, hv, hw⟩
    rw [stateOf_extend] at hv
    split at hv
    · cases hv
    · exact hrank v w ⟨target, hv, hw⟩

/-- Demanding one more component, which nothing was demanded of so far. -/
theorem lawful_demand {size index : Nat} {predicate predicate' : KindPredicate}
    {components : List (Nat × Kind)} {component : Kind}
    (h : (KindVarState.unbound predicate components).Lawful size)
    (hcomponent : component.Sound size)
    (hmeet : predicate.meet (.tupleWidth (index + 1)) = some predicate')
    (hlookup : components.lookup index = none) :
    (KindVarState.unbound predicate' (components ++ [(index, component)])).Lawful size := by
  cases h with
  | unbound sound distinct within =>
  refine .unbound (fun demand hmem => ?_) (nodup_concat distinct hlookup) fun demand hmem =>
    within_meet hmeet ?_
  · rcases List.mem_append.mp hmem with hmem | hmem
    · exact sound demand hmem
    · cases List.mem_singleton.mp hmem
      exact hcomponent
  · rcases List.mem_append.mp hmem with hmem | hmem
    · exact (within demand hmem).imp fun _ h => ⟨.inl h.1, h.2⟩
    · cases List.mem_singleton.mp hmem
      exact ⟨index + 1, .inr rfl, Nat.lt_succ_self index⟩

/-- The discipline of computations that keep a store lawful. -/
def lawfulness : Discipline KindStore where
  Ok := Lawful
  Grows _ _ := True
  refl _ _ := trivial
  trans _ _ _ _ _ := trivial

theorem tupleComponent_lawful {k : Kind} (lawful : store.Lawful) (hk : k.Sound store.vars.size)
    (index : Nat) : ((tupleComponent k index).run.run store).2.Lawful := by
  suffices h : Yields lawfulness store (tupleComponent k index) fun _ _ => True from (h _ _ rfl).1
  have hresolve : Yields lawfulness store
      (liftM (KindStore.resolve k) : ExceptT KindError KindM Kind) (Traced store k) :=
    .of_exec rfl (lawful.resolve_traced hk).lawful trivial (lawful.resolve_traced hk)
  refine .bind lawful hresolve fun root store₁ lawful₁ _ traced => ?_
  cases root with
  | tuple ks =>
    simp only
    split
    · exact .pure lawful₁ trivial
    · exact .of_failure lawful₁ rfl
  | mvar v =>
    refine .read (rfl : exec get store₁ = some (some store₁, store₁)) lawful₁ ?_
    cases hv : store₁.stateOf v with
    | link target => exact .pure lawful₁ trivial
    | unbound predicate components =>
      simp only
      split
      · exact .of_failure lawful₁ rfl
      next predicate' hmeet =>
      split
      · exact .pure lawful₁ trivial
      next hlookup =>
      have hsize : (store₁.extend .any).vars.size = store₁.vars.size + 1 := Array.size_push _
      have hstate : (KindVarState.unbound predicate' (components ++
          [(index, .mvar store₁.vars.size)])).Lawful (store₁.extend .any).vars.size := by
        refine lawful_demand (hsize ▸ (hv ▸ lawful₁.states v).mono (Nat.le_succ _)) ?_ hmeet hlookup
        exact .intro ⟨by simp, fun w hw => by cases hw; simp [hsize]⟩ (by simp [Kind.parts])
      have hlt : v < (store₁.extend .any).vars.size := hsize ▸ Nat.lt_succ_of_lt traced.sound.lt
      have lawful₃ := (lawful₁.extend .any).put_unbound hlt hstate
      exact .of_exec rfl lawful₃ trivial trivial
  | error => exact .pure lawful₁ trivial
  | _ => exact .of_failure lawful₁ rfl

/-- The stores that the operations build. -/
inductive Built : KindStore → Prop where
  | empty : Built .empty
  | fresh {store : KindStore} (h : Built store) (predicate : KindPredicate) :
      Built ((fresh predicate).run store).2
  | resolve {store : KindStore} (h : Built store) {k : Kind} (hk : k.Sound store.vars.size) :
      Built ((resolve k).run store).2
  | tupleComponent {store : KindStore} (h : Built store) {k : Kind}
      (hk : k.Sound store.vars.size) (index : Nat) :
      Built ((tupleComponent k index).run.run store).2
  | unify {store store' : KindStore} (h : Built store) {a b : Kind} {fuel : Nat}
      {outcome : Except KindError Unit} (ha : a.Sound store.vars.size)
      (hb : b.Sound store.vars.size)
      (hrun : (unify fuel a b).run.run store = some (outcome, store')) : Built store'

theorem Built.lawful (h : Built store) : store.Lawful := by
  induction h with
  | empty => exact lawful_empty
  | fresh _ predicate ih => exact ih.extend predicate
  | resolve _ hk ih => exact (ih.resolve_traced hk).lawful
  | tupleComponent _ hk index ih => exact tupleComponent_lawful ih hk index
  | unify _ ha hb hrun ih => exact (unify_settles _ ih ha hb _ _ (exec_of_run hrun)).1.lawful

/-! ## The theorem -/

/-- Unification ends like this with all amounts of fuel that are enough. -/
def Unified (store : KindStore) (a b : Kind) (outcome : Except KindError Unit)
    (store' : KindStore) : Prop :=
  ∃ n, ∀ fuel, n ≤ fuel → (unify fuel a b).run.run store = some (outcome, store')

section Unified

variable {a b : Kind} {outcome outcome' : Except KindError Unit} {store'' : KindStore}

theorem Unified.exec (h : Unified store a b outcome store') :
    ∃ fuel, RowML.exec (unify fuel a b) store = some (succeeded outcome, store') := by
  obtain ⟨n, hrun⟩ := h
  exact ⟨n, exec_of_run (hrun n (Nat.le_refl n))⟩

theorem Unified.advances (h : Unified store a b outcome store') (lawful : store.Lawful)
    (ha : a.Sound store.vars.size) (hb : b.Sound store.vars.size) : Advances store store' := by
  obtain ⟨fuel, hexec⟩ := h.exec
  exact (unify_settles fuel lawful ha hb _ _ hexec).1

theorem Unified.satisfies_iff (h : Unified store a b (.ok ()) store') (lawful : store.Lawful)
    (ha : a.Sound store.vars.size) (hb : b.Sound store.vars.size) (holes : Holes)
    (θ : KindVar → Kind) :
    store'.Satisfies holes θ ↔ store.Satisfies holes θ ∧ a.reading θ = b.reading θ := by
  obtain ⟨fuel, hexec⟩ := h.exec
  exact (unify_settles fuel lawful ha hb _ _ hexec).2.1 rfl holes θ

theorem Unified.not_satisfies {e : KindError} (h : Unified store a b (.error e) store')
    (lawful : store.Lawful) (ha : a.Sound store.vars.size) (hb : b.Sound store.vars.size)
    {holes : Holes} {θ : KindVar → Kind} (hθ : store.Satisfies holes θ) :
    a.reading θ ≠ b.reading θ := by
  obtain ⟨fuel, hexec⟩ := h.exec
  exact (unify_settles fuel lawful ha hb _ _ hexec).2.2 rfl holes θ hθ

/-- The store that is left is a solution of both orders. -/
theorem Unified.swap (h : Unified store a b (.ok ()) store')
    (h' : Unified store b a outcome store'') (lawful : store.Lawful)
    (ha : a.Sound store.vars.size) (hb : b.Sound store.vars.size) : outcome = .ok () := by
  cases outcome with
  | ok => rfl
  | error e =>
    have lawful' := (h.advances lawful ha hb).lawful
    obtain ⟨hθ, heq⟩ := (h.satisfies_iff lawful ha hb _ _).mp lawful'.satisfies_spelled
    exact absurd heq.symm (h'.not_satisfies lawful hb ha hθ)

end Unified

/-- What it means that unification of two kinds has computed a most general unifier, or has found
that there is none. -/
structure MostGeneral (store : KindStore) (a b : Kind) (outcome : Except KindError Unit)
    (store' : KindStore) : Prop where
  ends : Unified store a b outcome store'
  lawful : store'.Lawful
  solutions : outcome = .ok () → ∀ θ,
    store'.Solution θ ↔ store.Solution θ ∧ a.reading θ = b.reading θ
  refuted : outcome ≠ .ok () → ∀ θ, store.Solution θ → a.reading θ ≠ b.reading θ
  /-- The two kinds may be given in either order. -/
  symmetric : ∃ outcome' store'', Unified store b a outcome' store'' ∧
    (outcome' = .ok () ↔ outcome = .ok ()) ∧
    (outcome = .ok () → ∀ θ, store''.Solution θ ↔ store'.Solution θ)
  /-- Whatever the outcome, the predicate of a variable holds of all that the variable may stand for
  from now on, and of what it has been solved with. -/
  predicates : ∀ {v predicate components}, store.stateOf v = .unbound predicate components →
    (∀ θ, store'.Solution θ → admits predicate (θ v) = true) ∧
    store'.holes.Meets predicate (store'.spelled v).nameless

theorem unify_mostGeneral {a b : Kind} (lawful : store.Lawful) (ha : a.Sound store.vars.size)
    (hb : b.Sound store.vars.size) : ∃ outcome store', MostGeneral store a b outcome store' := by
  obtain ⟨n, ⟨outcome, store'⟩, hrun⟩ := unify_halts lawful ha hb
  obtain ⟨n', ⟨outcome', store''⟩, hrun'⟩ := unify_halts lawful hb ha
  have h : Unified store a b outcome store' := ⟨n, hrun⟩
  have h' : Unified store b a outcome' store'' := ⟨n', hrun'⟩
  have advances := h.advances lawful ha hb
  have hsolutions : outcome = .ok () → ∀ θ, store'.Solution θ ↔
      store.Solution θ ∧ a.reading θ = b.reading θ := by
    rintro rfl θ
    rw [solution_iff store'.holes, solution_iff store'.holes, h.satisfies_iff lawful ha hb,
      and_assoc]
  have hswap : outcome' = .ok () ↔ outcome = .ok () := by
    constructor
    · rintro rfl
      exact h'.swap h lawful hb ha
    · rintro rfl
      exact h.swap h' lawful ha hb
  refine ⟨outcome, store', h, advances.lawful, hsolutions, fun hne θ hθ => ?_,
    ⟨outcome', store'', h', hswap, fun heq θ => ?_⟩, fun hv => ⟨fun θ hθ => ?_, ?_⟩⟩
  · cases outcome with
    | ok => exact absurd rfl hne
    | error e => exact h.not_satisfies lawful ha hb ((solution_iff store'.holes).mp hθ).2
  · obtain rfl := hswap.mpr heq
    rw [hsolutions heq, solution_iff store'.holes, solution_iff store'.holes,
      h'.satisfies_iff lawful hb ha, and_assoc, eq_comm]
  · obtain ⟨hclosed, hθ⟩ := (solution_iff store'.holes).mp hθ
    exact (meets_nameless (hclosed _)).mp ((advances.obeys hθ.obeys).meets hv)
  · exact (advances.obeys advances.lawful.satisfies_spelled.obeys).meets hv

/-- A variable of which the second component has been asked for. -/
def demanding : KindStore :=
  ((tupleComponent (.mvar 0) 1).run.run ((fresh .any).run .empty).2).2

theorem lawful_demanding : demanding.Lawful :=
  (Built.tupleComponent (.fresh .empty .any)
    (.intro ⟨by simp, fun v hv => by cases hv; decide⟩ (by simp [Kind.parts])) 1).lawful

/-- A pair is put for the variable, and its second component for what was asked for. -/
theorem unify_mostGeneral_demanding :
    ∃ store', MostGeneral demanding (.mvar 0) (.tuple [.name, .typeRow]) (.ok ()) store' ∧
      store'.stateOf 1 = .link .typeRow := by
  have hvar : (Kind.mvar 0).Sound demanding.vars.size :=
    .intro ⟨by simp, fun v hv => by cases hv; decide⟩ (by simp [Kind.parts])
  have hname : Kind.name.Sound demanding.vars.size := .intro (by simp) (by simp [Kind.parts])
  have htype : Kind.type.Sound demanding.vars.size := .intro (by simp) (by simp [Kind.parts])
  have hrow : Kind.typeRow.Sound demanding.vars.size :=
    .intro (by simp) (List.forall_mem_singleton.mpr htype)
  have hpair : (Kind.tuple [.name, .typeRow]).Sound demanding.vars.size :=
    .intro (by simp) (List.forall_mem_cons.mpr ⟨hname, List.forall_mem_singleton.mpr hrow⟩)
  obtain ⟨outcome, store', h⟩ := unify_mostGeneral lawful_demanding hvar hpair
  obtain ⟨n, hrun⟩ := h.ends
  have hpairs : (unify (n + 3) (.mvar 0) (.tuple [.name, .typeRow])).run.run demanding =
      some (.ok (), ⟨#[.link (.tuple [.name, .typeRow]), .link .typeRow], [], 0⟩) := rfl
  cases hpairs.symm.trans (hrun (n + 3) (by omega))
  exact ⟨_, h, rfl⟩

end KindStore

end RowML
