import RowML.Proofs.Execution
import RowML.Proofs.Kind.Variables
import Mathlib.Data.Finset.Card
import Mathlib.Logic.Relation

/-!
# Convertible kinds

Two kinds are convertible in a store if they are equal up to the links of the store and the names of
binders.  Following links, with or without shortening them, and rebuilding a kind through its links
give convertible kinds, and every kind keeps its meaning in the store that is left.

Linked metavariables form chains, and so do solved ones.  A rank that falls along every link shows
that a chain has no cycle; then it has no more links than there are linked metavariables.
-/

namespace RowML

/-! ## Ranks of chains -/

/-- A number for every element that falls along `next`. -/
def Ranks (next : Nat → Nat → Prop) (rank : Nat → Nat) : Prop :=
  ∀ v w, next v w → rank w < rank v

/-- If there is no cycle, only solved elements have a successor and these are below `size`, some
rank is bounded by `size` and positive at the solved elements. -/
theorem exists_ranks {next : Nat → Nat → Prop} {size : Nat} {solved : Nat → Prop}
    (hacyclic : ∀ v, ¬ Relation.TransGen next v v) (hnext : ∀ v w, next v w → solved v)
    (hdom : ∀ v, solved v → v < size) :
    ∃ rank : Nat → Nat, Ranks next rank ∧ (∀ v, solved v → 0 < rank v) ∧ ∀ v, rank v ≤ size := by
  classical
  -- the rank of an element counts the solved elements that its chain passes
  let passes (v : Nat) : Finset Nat :=
    (Finset.range size).filter fun u => solved u ∧ Relation.ReflTransGen next v u
  have hself : ∀ v, solved v → v ∈ passes v := by
    intro v hv
    simp only [passes, Finset.mem_filter, Finset.mem_range]
    exact ⟨hdom v hv, hv, .refl⟩
  refine ⟨fun v => (passes v).card, fun v w hvw => ?_, fun v hv => ?_, fun v => ?_⟩
  · refine Finset.card_lt_card ⟨fun u hu => ?_, fun hsub => ?_⟩
    · simp only [passes, Finset.mem_filter] at hu ⊢
      exact ⟨hu.1, hu.2.1, Relation.ReflTransGen.head hvw hu.2.2⟩
    · have hback := (Finset.mem_filter.mp (hsub (hself v (hnext v w hvw)))).2.2
      exact hacyclic v (.head' hvw hback)
  · exact Finset.card_pos.mpr ⟨v, hself v hv⟩
  · simpa using Finset.card_filter_le (Finset.range size) _

namespace Ranks

variable {next : Nat → Nat → Prop} {rank : Nat → Nat}

theorem lt_of_reaches (h : Ranks next rank) {v w : Nat} (hvw : Relation.TransGen next v w) :
    rank w < rank v := by
  induction hvw with
  | single hlink => exact h _ _ hlink
  | tail _ hlink ih => exact Nat.lt_trans (h _ _ hlink) ih

theorem not_cyclic (h : Ranks next rank) (v : Nat) : ¬ Relation.TransGen next v v :=
  fun hv => Nat.lt_irrefl _ (h.lt_of_reaches hv)

/-- If only solved elements have a successor and these are below `size`, some rank is bounded by
`size` and positive at the solved elements. -/
theorem exists_bounded (h : Ranks next rank) {size : Nat} {solved : Nat → Prop}
    (hnext : ∀ v w, next v w → solved v) (hdom : ∀ v, solved v → v < size) :
    ∃ rank' : Nat → Nat, Ranks next rank' ∧ (∀ v, solved v → 0 < rank' v) ∧
      ∀ v, rank' v ≤ size :=
  exists_ranks h.not_cyclic hnext hdom

end Ranks

/-! ## Conversion -/

/-- Equality of kinds up to links and binder names. -/
inductive KindConv (store : KindStore) : Kind → Kind → Prop where
  | refl (k : Kind) : KindConv store k k
  | symm {a b : Kind} (h : KindConv store a b) : KindConv store b a
  | trans {a b c : Kind} (h : KindConv store a b) (h' : KindConv store b c) : KindConv store a c
  | link {v : KindVar} {target : Kind} (h : store.stateOf v = .link target) :
      KindConv store (.mvar v) target
  | arrow {d d' c c' : Kind} (hd : KindConv store d d') (hc : KindConv store c c') :
      KindConv store (.arrow d c) (.arrow d' c')
  | record {e e' : Kind} (h : KindConv store e e') : KindConv store (.record e) (.record e')
  | tuple {ks ks' : List Kind} (hlength : ks.length = ks'.length)
      (h : ∀ (i : Nat) (k k' : Kind), ks[i]? = some k → ks'[i]? = some k' → KindConv store k k') :
      KindConv store (.tuple ks) (.tuple ks')
  | poly {x y : String} {body body' : Kind} (h : KindConv store body body') :
      KindConv store (.poly x body) (.poly y body')

/-- A kind without poison whose metavariables are among the first `size`. -/
def Kind.Sound (size : Nat) (k : Kind) : Prop :=
  k.All fun node => node ≠ .error ∧ ∀ v, node = .mvar v → v < size

theorem Kind.Sound.mono {size size' : Nat} {k : Kind} (hk : k.Sound size) (h : size ≤ size') :
    k.Sound size' :=
  All.mono hk fun _ hnode => ⟨hnode.1, fun v hv => Nat.lt_of_lt_of_le (hnode.2 v hv) h⟩

theorem Kind.Sound.part {size : Nat} {k p : Kind} (hk : k.Sound size) (hp : p ∈ k.parts) :
    p.Sound size :=
  (All.iff.mp hk).2 p hp

theorem Kind.Sound.ne_error {size : Nat} {k : Kind} (hk : k.Sound size) : k ≠ .error :=
  (All.iff.mp hk).1.1

theorem Kind.Sound.lt {size : Nat} {v : KindVar} (hk : (Kind.mvar v).Sound size) : v < size :=
  (All.iff.mp hk).1.2 v rfl

theorem Kind.Sound.mapVars {size : Nat} {f : Nat → Nat → Kind} {k : Kind} (hk : k.Sound size)
    (hf : ∀ d i, (f d i).Sound size) (d : Nat) : (k.mapVars f d).Sound size := by
  induction k using inductionOnParts generalizing d with
  | step k ih =>
    have node : ∀ {k : Kind}, k ≠ .error → (∀ v, k ≠ .mvar v) → (∀ p ∈ k.parts, p.Sound size) →
        k.Sound size := fun hne hvar h => .intro ⟨hne, fun v hv => absurd hv (hvar v)⟩ h
    cases k with
    | bvar i => exact hf d i
    | type | unit | name | error | mvar => exact hk
    | arrow a b =>
      have ha := ih a (by simp [parts]) (hk.part (by simp [parts])) d
      have hb := ih b (by simp [parts]) (hk.part (by simp [parts])) d
      exact node (by simp [Kind.mapVars]) (by simp [Kind.mapVars])
        (by simp [Kind.mapVars, parts, ha, hb])
    | record a =>
      have ha := ih a (by simp [parts]) (hk.part (by simp [parts])) d
      exact node (by simp [Kind.mapVars]) (by simp [Kind.mapVars])
        (by simp [Kind.mapVars, parts, ha])
    | tuple ks =>
      refine node (by simp [Kind.mapVars]) (by simp [Kind.mapVars]) ?_
      simp only [Kind.mapVars, mapVarsList_eq, parts]
      exact List.forall_mem_map.mpr fun k hk' => ih k hk' (hk.part hk') d
    | poly x body =>
      have hbody := ih body (by simp [parts]) (hk.part (by simp [parts])) (d + 1)
      exact node (by simp [Kind.mapVars]) (by simp [Kind.mapVars])
        (by simp [Kind.mapVars, parts, hbody])

namespace KindStore

/-- A link from one metavariable to another. -/
def Leads (store : KindStore) (v w : KindVar) : Prop := store.stateOf v = .link (.mvar w)

structure WellFormed (store : KindStore) : Prop where
  links : ∀ {v target}, store.stateOf v = .link target → target.Sound store.vars.size
  demands : ∀ {v predicate components}, store.stateOf v = .unbound predicate components →
    ∀ component ∈ components, component.2.Sound store.vars.size
  acyclic : ∃ rank, Ranks store.Leads rank

/-- No link has a free variable. -/
def Closed (store : KindStore) : Prop :=
  ∀ {v target}, store.stateOf v = .link target → target.Closed

/-- The second store knows all that the first one knows. -/
structure Grows (store store' : KindStore) : Prop where
  size : store.vars.size ≤ store'.vars.size
  closed : store'.Closed → store.Closed
  links : ∀ {v target}, store.stateOf v = .link target → KindConv store' (.mvar v) target

theorem Grows.conv {store store' : KindStore} (h : Grows store store') {a b : Kind}
    (hab : KindConv store a b) : KindConv store' a b := by
  induction hab with
  | refl k => exact .refl k
  | symm _ ih => exact ih.symm
  | trans _ _ ih ih' => exact ih.trans ih'
  | link hlink => exact h.links hlink
  | arrow _ _ ihd ihc => exact .arrow ihd ihc
  | record _ ih => exact .record ih
  | tuple hlength _ ih => exact .tuple hlength ih
  | poly _ ih => exact .poly ih

theorem Grows.refl (store : KindStore) : Grows store store :=
  ⟨Nat.le_refl _, fun h => h, .link⟩

theorem Grows.trans {a b c : KindStore} (h : Grows a b) (h' : Grows b c) : Grows a c :=
  ⟨Nat.le_trans h.size h'.size, fun hc => h.closed (h'.closed hc), fun hlink =>
    h'.conv (h.links hlink)⟩

theorem wellFormed_empty : KindStore.empty.WellFormed where
  links h := by cases h
  demands h := by
    cases h
    simp
  acyclic := ⟨fun _ => 0, fun _ _ h => by cases h⟩

theorem closed_empty : KindStore.empty.Closed := fun h => by cases h

/-- The discipline of every computation over kinds. -/
def discipline : Discipline KindStore where
  Ok := WellFormed
  Grows := Grows
  refl store _ := Grows.refl store
  trans _ _ _ := Grows.trans

/-! ## Elementary changes -/

/-- The store after `setVar`. -/
def put (store : KindStore) (v : KindVar) (state : KindVarState) : KindStore :=
  ((setVar v state).run store).2

theorem exec_setVar (store : KindStore) (v : KindVar) (state : KindVarState) :
    exec (setVar v state) store = some (some (), store.put v state) :=
  rfl

@[simp] theorem size_put (store : KindStore) (v : KindVar) (state : KindVarState) :
    (store.put v state).vars.size = store.vars.size :=
  Array.size_setIfInBounds

theorem stateOf_put {store : KindStore} {v : KindVar} (hv : v < store.vars.size)
    (state : KindVarState) (u : KindVar) :
    (store.put v state).stateOf u = if u = v then state else store.stateOf u := by
  change ((store.vars.setIfInBounds v state)[u]?).getD _ = _
  rw [Array.getElem?_setIfInBounds]
  by_cases h : v = u
  · subst h
    simp [hv]
  · rw [if_neg h, if_neg (Ne.symm h)]
    rfl

theorem lt_of_link {store : KindStore} {v : KindVar} {target : Kind}
    (h : store.stateOf v = .link target) : v < store.vars.size := by
  by_contra hv
  unfold stateOf at h
  rw [Array.getElem?_eq_none (Nat.le_of_not_lt hv)] at h
  cases h

theorem stateOf_of_le {store : KindStore} {v : KindVar} (h : store.vars.size ≤ v) :
    store.stateOf v = .unbound .any [] := by
  rw [stateOf, Array.getElem?_eq_none h]
  rfl

/-- The store after `fresh`. -/
def extend (store : KindStore) (predicate : KindPredicate) : KindStore :=
  ((fresh predicate).run store).2

@[simp] theorem size_extend (store : KindStore) (predicate : KindPredicate) :
    (store.extend predicate).vars.size = store.vars.size + 1 :=
  Array.size_push _

theorem stateOf_extend (store : KindStore) (predicate : KindPredicate) (v : KindVar) :
    (store.extend predicate).stateOf v =
      if v = store.vars.size then .unbound predicate [] else store.stateOf v := by
  change ((store.vars.push _)[v]?).getD _ = _
  rw [Array.getElem?_push]
  split <;> rfl

/-! ## Following links -/

/-- What following the links from `k` has done to the store, given the answer `root`. -/
structure Followed (store : KindStore) (fuel : Nat) (k root : Kind) (store' : KindStore) :
    Prop where
  size : store'.vars.size = store.vars.size
  sound : root.Sound store'.vars.size
  answer : root = k ∨ ∃ v, k = .mvar v ∧ store'.stateOf v = .link root
  unbound : ∀ {v predicate components}, store'.stateOf v = .unbound predicate components ↔
    store.stateOf v = .unbound predicate components
  ranks : ∀ {rank}, Ranks store.Leads rank → Ranks store'.Leads rank
  above : ∀ {rank}, Ranks store.Leads rank → ∀ u, (∀ v, k = .mvar v → rank v < rank u) →
    store'.stateOf u = store.stateOf u
  done : ∀ {rank}, Ranks store.Leads rank →
    (∀ v target, store.stateOf v = .link target → 0 < rank v) →
    (∀ v, k = .mvar v → rank v ≤ fuel) → ∀ v target, root = .mvar v →
    store.stateOf v ≠ .link target

private theorem Followed.self {store : KindStore} {fuel : Nat} {k : Kind}
    (hk : k.Sound store.vars.size)
    (done : ∀ {rank : KindVar → Nat}, (∀ v target, store.stateOf v = .link target → 0 < rank v) →
      (∀ v, k = .mvar v → rank v ≤ fuel) → ∀ v target, k = .mvar v →
      store.stateOf v ≠ .link target) :
    Followed store fuel k k store where
  size := rfl
  sound := hk
  answer := .inl rfl
  unbound := Iff.rfl
  ranks h := h
  above _ _ _ := rfl
  done _ := done

/-- Linking a variable to the end of the chain that starts with its link. -/
private theorem grows_put {store : KindStore} {v : KindVar} {target root : Kind}
    (hv : store.stateOf v = .link target) (hne : ∀ w, target = .mvar w → w ≠ v)
    (answer : root = target ∨ ∃ w, target = .mvar w ∧ store.stateOf w = .link root) :
    Grows store (store.put v (.link root)) := by
  have hlt := lt_of_link hv
  have hput : (store.put v (.link root)).stateOf v = .link root := by simp [stateOf_put hlt]
  have hold : ∀ u, u ≠ v → (store.put v (.link root)).stateOf u = store.stateOf u := by
    intro u hu
    simp [stateOf_put hlt, hu]
  have hroot : KindConv (store.put v (.link root)) target root := by
    rcases answer with rfl | ⟨w, rfl, hw⟩
    · exact .refl _
    · refine .link ?_
      rw [hold w (hne w rfl), hw]
  refine ⟨by simp, fun hclosed u t hu => ?_, fun {u t} hu => ?_⟩
  · by_cases h : u = v
    · subst h
      rw [hv] at hu
      cases hu
      rcases answer with rfl | ⟨w, rfl, -⟩
      · exact hclosed hput
      · exact .intro (by simp) (by simp [Kind.parts])
    · exact hclosed ((hold u h).trans hu)
  · by_cases h : u = v
    · subst h
      rw [hv] at hu
      cases hu
      exact (KindConv.link hput).trans hroot.symm
    · exact .link ((hold u h).trans hu)

/-- The variable `v` links to a chain that has been followed; linking it to the end as well. -/
private theorem Followed.relink {store store' : KindStore} {fuel : Nat} {v : KindVar}
    {target root : Kind} (followed : Followed store fuel target root store')
    (ok : store.WellFormed) (ok' : store'.WellFormed) (hv : store.stateOf v = .link target) :
    Yields discipline store'
      (if root ≠ target then do setVar v (.link root); pure root else pure root)
      fun root store'' => Followed store (fuel + 1) (.mvar v) root store'' := by
  obtain ⟨rank, hrank⟩ := ok.acyclic
  have below : ∀ {rank}, Ranks store.Leads rank → ∀ w, target = .mvar w → rank w < rank v :=
    fun hrank w hw => hrank v w (by rw [Leads, hv, hw])
  have hv' : store'.stateOf v = .link target := (followed.above hrank v (below hrank)).trans hv
  have hdone : ∀ {rank}, Ranks store.Leads rank →
      (∀ v target, store.stateOf v = .link target → 0 < rank v) →
      (∀ u, Kind.mvar v = .mvar u → rank u ≤ fuel + 1) → ∀ u target, root = .mvar u →
      store.stateOf u ≠ .link target := by
    intro rank hrank hpos hfuel
    refine followed.done hrank hpos fun w hw => ?_
    have := below hrank w hw
    have := hfuel v rfl
    omega
  by_cases hroot : root = target
  · rw [if_neg (by simpa using hroot)]
    refine Yields.pure ok' ⟨followed.size, followed.sound, .inr ⟨v, rfl, hroot ▸ hv'⟩,
      followed.unbound, followed.ranks, fun hrank u hu => ?_, hdone⟩
    exact followed.above hrank u fun w hw => Nat.lt_trans (below hrank w hw) (hu v rfl)
  · rw [if_pos hroot]
    have hlt := lt_of_link hv'
    have hput := stateOf_put hlt (.link root)
    have answer : ∃ w, target = .mvar w ∧ store'.stateOf w = .link root := by
      rcases followed.answer with h | h
      · exact absurd h hroot
      · exact h
    have hne : ∀ w, target = .mvar w → w ≠ v := by
      rintro w hw rfl
      exact absurd (below hrank w hw) (Nat.lt_irrefl _)
    have ranks : ∀ {rank}, Ranks store.Leads rank →
        Ranks (store'.put v (.link root)).Leads rank := by
      intro rank hrank u w huw
      rw [Leads, hput] at huw
      split at huw
      next h =>
        subst h
        cases huw
        obtain ⟨t, ht, htw⟩ := answer
        exact Nat.lt_trans (followed.ranks hrank t w htw) (below hrank t ht)
      next => exact followed.ranks hrank u w huw
    have ok'' : (store'.put v (.link root)).WellFormed := by
      refine ⟨fun {u t} hu => ?_, fun {u p cs} hu => ?_, rank, ranks hrank⟩
      · rw [hput] at hu
        rw [size_put]
        split at hu
        · cases hu
          exact followed.sound
        · exact ok'.links hu
      · rw [hput] at hu
        rw [size_put]
        split at hu
        · cases hu
        · exact ok'.demands hu
    refine Yields.next (exec_setVar store' v (.link root)) ok' ok''
      (grows_put hv' hne (.inr answer)) (Yields.pure ok'' ⟨?_, ?_, ?_, ?_, ranks, ?_, hdone⟩)
    · rw [size_put, followed.size]
    · rw [size_put]
      exact followed.sound
    · exact .inr ⟨v, rfl, by rw [hput, if_pos rfl]⟩
    · intro u p cs
      rw [hput]
      split
      next h => simp [h, hv]
      next => exact followed.unbound
    · intro rank hrank u hu
      have := hu v rfl
      rw [hput, if_neg (by rintro rfl; omega)]
      exact followed.above hrank u fun w hw => Nat.lt_trans (below hrank w hw) this

theorem resolveWithin_yields (fuel : Nat) {k : Kind} {store : KindStore} (ok : store.WellFormed)
    (hk : k.Sound store.vars.size) :
    Yields discipline store (resolveWithin fuel k) fun root store' =>
      Followed store fuel k root store' := by
  induction fuel generalizing k store with
  | zero =>
    have hrun : resolveWithin 0 k = pure k := by cases k <;> rfl
    rw [hrun]
    refine Yields.pure ok (.self hk fun {rank} hpos hfuel v target hv hlink => ?_)
    have := hpos v target hlink
    have := hfuel v hv
    omega
  | succ fuel ih =>
    by_cases hmvar : ∃ v, k = .mvar v
    · obtain ⟨v, rfl⟩ := hmvar
      refine Yields.read (rfl : exec get store = some (some store, store)) ok ?_
      cases hv : store.stateOf v with
      | unbound predicate components =>
        simp only
        refine Yields.pure ok (.self hk fun _ _ u target hu hlink => ?_)
        cases hu
        rw [hv] at hlink
        cases hlink
      | link target =>
        simp only
        refine Yields.bind ok (ih ok (ok.links hv)) fun root store' ok' grows followed => ?_
        exact followed.relink ok ok' hv
    · have hrun : resolveWithin (fuel + 1) k = pure k := by
        cases k <;> first | rfl | exact absurd ⟨_, rfl⟩ hmvar
      rw [hrun]
      exact Yields.pure ok (.self hk fun _ _ v _ hv => absurd ⟨v, hv⟩ hmvar)

/-- What `resolve` answers: the end of the chain of links. -/
structure Resolved (store : KindStore) (k root : Kind) (store' : KindStore) : Prop where
  size : store'.vars.size = store.vars.size
  sound : root.Sound store'.vars.size
  answer : root = k ∨ ∃ v, k = .mvar v ∧ store'.stateOf v = .link root
  unbound : ∀ {v predicate components}, store'.stateOf v = .unbound predicate components ↔
    store.stateOf v = .unbound predicate components
  unlinked : ∀ {v}, root = .mvar v →
    ∃ predicate components, store'.stateOf v = .unbound predicate components

theorem Resolved.conv {store store' : KindStore} {k root : Kind}
    (h : Resolved store k root store') : KindConv store' k root := by
  rcases h.answer with rfl | ⟨v, rfl, hv⟩
  · exact .refl _
  · exact .link hv

theorem resolve_yields {k : Kind} {store : KindStore} (ok : store.WellFormed)
    (hk : k.Sound store.vars.size) :
    Yields discipline store (resolve k) fun root store' => Resolved store k root store' := by
  refine Yields.read (rfl : exec get store = some (some store, store)) ok ?_
  refine (resolveWithin_yields store.vars.size ok hk).mono fun root store' _ _ followed => ?_
  refine ⟨followed.size, followed.sound, followed.answer, followed.unbound, fun {v} hv => ?_⟩
  obtain ⟨_, hrank⟩ := ok.acyclic
  have hdom : ∀ v, (∃ target, store.stateOf v = .link target) → v < store.vars.size :=
    fun v ⟨_, hv⟩ => lt_of_link hv
  obtain ⟨rank, hrank, hpos, hbound⟩ := hrank.exists_bounded (fun v w hvw => ⟨_, hvw⟩) hdom
  have hroot := followed.done hrank (fun v target hv => hpos v ⟨target, hv⟩)
    (fun v _ => hbound v) v
  cases hstate : store.stateOf v with
  | unbound predicate components => exact ⟨predicate, components, followed.unbound.mpr hstate⟩
  | link target => exact absurd hstate (hroot target hv)

end KindStore

end RowML
