import RowML.Proofs.Kind.Expansion
import RowML.Proofs.Kind.Unification

/-!
# Unification keeps the solutions that make two kinds equal

From a lawful store, unification that succeeds leaves a store that is satisfied by exactly those
assignments that satisfied the store before and make the two kinds equal.  If it fails, no
assignment does both.  In either case no link and no predicate is lost; what was demanded of the
components of a variable is lost if unification fails while it compares them.
-/

namespace RowML

namespace KindStore

/-- What is true of the store that unification leaves, whether it succeeds or not. -/
structure Advances (store store' : KindStore) : Prop where
  lawful : store'.Lawful
  size : store'.vars.size = store.vars.size
  linked : ∀ {v}, store.Linked v → store'.Linked v
  obeys : ∀ {holes θ}, store'.Obeys holes θ → store.Obeys holes θ

variable {store store' : KindStore}

theorem Advances.refl (lawful : store.Lawful) : Advances store store :=
  ⟨lawful, rfl, fun h => h, fun h => h⟩

theorem Advances.trans {store'' : KindStore} (h : Advances store store')
    (h' : Advances store' store'') : Advances store store'' :=
  ⟨h'.lawful, h'.size.trans h.size, fun hv => h'.linked (h.linked hv),
    fun hθ => h.obeys (h'.obeys hθ)⟩

theorem Traced.advances {k root : Kind} (traced : Traced store k root store')
    (lawful : store.Lawful) : Advances store store' :=
  ⟨traced.lawful, traced.size, traced.shortens.linked_iff.mpr,
    (traced.shortens.obeys_iff lawful.leads).mp⟩

/-- What is known once the two kinds have been followed to the ends `a'` and `b'` of their
chains. -/
structure Faces (store : KindStore) (a b a' b' : Kind) (store' : KindStore) : Prop where
  advances : Advances store store'
  left : a'.Sound store'.vars.size
  right : b'.Sound store'.vars.size
  unbound : ∀ v, a' = .mvar v ∨ b' = .mvar v →
    ∃ predicate components, store'.stateOf v = .unbound predicate components
  reading : ∀ {θ}, store.Equates θ → a'.reading θ = a.reading θ ∧ b'.reading θ = b.reading θ

theorem Traced.faces {a b a' b' : Kind} {store'' : KindStore} (traced : Traced store a a' store')
    (traced' : Traced store' b b' store'') (lawful : store.Lawful) :
    Faces store a b a' b' store'' where
  advances := (traced.advances lawful).trans (traced'.advances traced.lawful)
  left := traced'.size ▸ traced.sound
  right := traced'.sound
  unbound := by
    rintro v (hv | hv)
    · exact not_linked_iff.mp fun h => traced.ended v hv (traced'.shortens.linked_iff.mp h)
    · exact not_linked_iff.mp (traced'.ended v hv)
  reading hθ := ⟨traced.reading hθ, traced'.reading ((traced.shortens.equates lawful.leads).mpr hθ)⟩

/-- The computation succeeds only by adding the condition `E` on assignments, and fails only if no
assignment meets it. -/
def Settles (store : KindStore) (x : KindUnifyM Unit) (E : (KindVar → Kind) → Prop) : Prop :=
  ∀ r store', exec x store = some (r, store') → Advances store store' ∧
    (r = some () → ∀ holes θ, store'.Satisfies holes θ ↔ store.Satisfies holes θ ∧ E θ) ∧
    (r = none → ∀ holes θ, store.Satisfies holes θ → ¬ E θ)

namespace Settles

variable {E E' : (KindVar → Kind) → Prop}

theorem pure (lawful : store.Lawful) (h : ∀ θ, store.Equates θ → E θ) :
    Settles store (Pure.pure ()) E := by
  intro r store' hexec
  rw [exec_pure] at hexec
  cases hexec
  refine ⟨.refl lawful, fun _ holes θ => ⟨fun hθ => ⟨hθ, h θ hθ.obeys.equates⟩, And.left⟩, ?_⟩
  rintro ⟨⟩

theorem of_failure {x : KindUnifyM Unit} (lawful : store.Lawful)
    (hexec : exec x store = some (none, store))
    (h : ∀ holes θ, store.Satisfies holes θ → ¬ E θ) : Settles store x E := by
  intro r store' hexec'
  rw [hexec] at hexec'
  cases hexec'
  refine ⟨.refl lawful, ?_, fun _ => h⟩
  rintro ⟨⟩

theorem congr {x : KindUnifyM Unit} (hx : Settles store x E)
    (h : ∀ holes θ, store.Satisfies holes θ → (E θ ↔ E' θ)) : Settles store x E' := by
  intro r store' hexec
  obtain ⟨advances, hok, hfail⟩ := hx r store' hexec
  refine ⟨advances, fun hr holes θ => (hok hr holes θ).trans ?_, fun hr holes θ hθ => ?_⟩
  · exact and_congr_right fun hθ => h holes θ hθ
  · exact fun hE => hfail hr holes θ hθ ((h holes θ hθ).mpr hE)

theorem bind {x : KindUnifyM Unit} {f : Unit → KindUnifyM Unit} (hx : Settles store x E)
    (hf : ∀ store', Advances store store' → Settles store' (f ()) E') :
    Settles store (x >>= f) fun θ => E θ ∧ E' θ := by
  intro r store'' hexec
  rw [exec_bind] at hexec
  rcases hrun : exec x store with _ | ⟨_ | ⟨⟩, store'⟩
  · rw [hrun] at hexec
    cases hexec
  · obtain ⟨advances, -, hfail⟩ := hx _ _ hrun
    rw [hrun] at hexec
    cases hexec
    refine ⟨advances, ?_, fun _ holes θ hθ hE => hfail rfl holes θ hθ hE.1⟩
    rintro ⟨⟩
  · obtain ⟨advances, hok, -⟩ := hx _ _ hrun
    rw [hrun] at hexec
    obtain ⟨advances', hok', hfail'⟩ := hf store' advances r store'' hexec
    refine ⟨advances.trans advances', fun hr holes θ => ?_, fun hr holes θ hθ hE => ?_⟩
    · rw [hok' hr, hok rfl, and_assoc]
    · exact hfail' hr holes θ ((hok rfl holes θ).mpr ⟨hθ, hE.1⟩) hE.2

/-- A computation that goes on from another store, where another condition is left to add. -/
theorem after {x y : KindUnifyM Unit} (store' : KindStore) (hexec : exec x store = exec y store')
    (advances : Advances store store')
    (h : ∀ holes θ, store'.Satisfies holes θ ∧ E' θ ↔ store.Satisfies holes θ ∧ E θ)
    (hy : Settles store' y E') : Settles store x E := by
  intro r store'' hexec'
  obtain ⟨advances', hok, hfail⟩ := hy r store'' (hexec ▸ hexec')
  refine ⟨advances.trans advances', fun hr holes θ => ?_, fun hr holes θ hθ hE => ?_⟩
  · rw [hok hr, h]
  · obtain ⟨hθ', hE'⟩ := (h holes θ).mpr ⟨hθ, hE⟩
    exact hfail hr holes θ hθ' hE'

/-- A computation that starts by reading the store. -/
theorem read {α : Type} {x : KindUnifyM α} {a : α} {f : α → KindUnifyM Unit}
    (hexec : exec x store = some (some a, store)) (lawful : store.Lawful)
    (hf : Settles store (f a) E) : Settles store (x >>= f) E :=
  after store (by rw [exec_bind, hexec]) (.refl lawful) (fun _ _ => Iff.rfl) hf

theorem resolve {k : Kind} {f : Kind → KindUnifyM Unit} (lawful : store.Lawful)
    (hk : k.Sound store.vars.size)
    (hf : ∀ root store', Traced store k root store' → Settles store' (f root) E) :
    Settles store (liftM (KindStore.resolve k) >>= f) E := by
  have traced := lawful.resolve_traced hk
  refine after ((KindStore.resolve k).run store).2 (by rw [exec_bind]; rfl)
    (traced.advances lawful) (fun holes θ => ?_) (hf _ _ traced)
  rw [traced.shortens.satisfies_iff lawful.leads]

end Settles

/-! ## Changes of one variable -/

section Put

variable {v : KindVar} {holes : Holes} {θ : KindVar → Kind} {predicate : KindPredicate}
  {components : List (Nat × Kind)} {target : Kind}

theorem satisfies_put (hlt : v < store.vars.size) (state : KindVarState) :
    (store.put v state).Satisfies holes θ ↔ state.SatisfiedBy holes θ ((Kind.mvar v).reading θ) ∧
      ∀ u, u ≠ v → (store.stateOf u).SatisfiedBy holes θ ((Kind.mvar u).reading θ) := by
  simp only [Satisfies, stateOf_put hlt]
  refine ⟨fun h => ⟨by simpa using h v, fun u hu => by simpa [hu] using h u⟩, fun h u => ?_⟩
  split
  next hu => exact hu ▸ h.1
  next hu => exact h.2 u hu

theorem satisfies_iff_but (v : KindVar) :
    store.Satisfies holes θ ↔ (store.stateOf v).SatisfiedBy holes θ ((Kind.mvar v).reading θ) ∧
      ∀ u, u ≠ v → (store.stateOf u).SatisfiedBy holes θ ((Kind.mvar u).reading θ) := by
  refine ⟨fun h => ⟨h v, fun u _ => h u⟩, fun h u => ?_⟩
  by_cases hu : u = v
  · exact hu ▸ h.1
  · exact h.2 u hu

theorem obeys_of_put (hlt : v < store.vars.size) {state : KindVarState}
    (h : (store.put v state).Obeys holes θ)
    (hstate : state.ObeyedBy holes θ ((Kind.mvar v).reading θ) →
      (store.stateOf v).ObeyedBy holes θ ((Kind.mvar v).reading θ)) : store.Obeys holes θ := by
  simp only [Obeys, stateOf_put hlt] at h
  intro u
  by_cases hu : u = v
  · subst hu
    exact hstate (by simpa using h u)
  · simpa [hu] using h u

/-- Setting a variable that is not linked. -/
theorem advances_put (hlt : v < store.vars.size) (hv : ¬ store.Linked v) {state : KindVarState}
    (lawful : (store.put v state).Lawful)
    (hstate : ∀ {holes θ}, (store.put v state).Obeys holes θ →
      state.ObeyedBy holes θ ((Kind.mvar v).reading θ) →
      (store.stateOf v).ObeyedBy holes θ ((Kind.mvar v).reading θ)) :
    Advances store (store.put v state) := by
  have hlinks : ∀ {u}, store.Linked u → (store.put v state).Linked u := by
    rintro u ⟨target, hu⟩
    refine ⟨target, ?_⟩
    rw [stateOf_put hlt, if_neg, hu]
    rintro rfl
    exact hv ⟨target, hu⟩
  exact ⟨lawful, size_put _ _ _, hlinks, fun hθ => obeys_of_put hlt hθ (hstate hθ)⟩

end Put

/-! ## The steps of unification -/

/-- The assignment makes both kinds of every pair equal. -/
def Joins (pairs : List (Kind × Kind)) (θ : KindVar → Kind) : Prop :=
  ∀ pair ∈ pairs, pair.1.reading θ = pair.2.reading θ

@[simp] theorem joins_nil (θ : KindVar → Kind) : Joins [] θ := by simp [Joins]

theorem joins_cons {pair : Kind × Kind} {pairs : List (Kind × Kind)} {θ : KindVar → Kind} :
    Joins (pair :: pairs) θ ↔ pair.1.reading θ = pair.2.reading θ ∧ Joins pairs θ :=
  List.forall_mem_cons

theorem joins_zip {ks ks' : List Kind} (h : ks.length = ks'.length) {θ : KindVar → Kind} :
    Joins (ks.zip ks') θ ↔ ks.map (Kind.reading θ) = ks'.map (Kind.reading θ) := by
  induction ks generalizing ks' with
  | nil => simp [List.length_eq_zero_iff.mp h.symm]
  | cons k ks ih =>
    cases ks' with
    | nil => cases h
    | cons k' ks' =>
      rw [List.zip_cons_cons, joins_cons, ih (Nat.succ.inj h), List.map_cons, List.map_cons,
        List.cons.injEq]

section Steps

variable {unify : Kind → Kind → KindUnifyM Unit} {v : KindVar} {predicate : KindPredicate}
  {components : List (Nat × Kind)} {target : Kind}

/-- Unification of smaller kinds, as the steps use it. -/
def SettlesEquations (unify : Kind → Kind → KindUnifyM Unit) : Prop :=
  ∀ {a b store}, Lawful store → a.Sound store.vars.size → b.Sound store.vars.size →
    Settles store (unify a b) fun θ => a.reading θ = b.reading θ

theorem forM_settles (H : SettlesEquations unify) {pairs : List (Kind × Kind)}
    (lawful : store.Lawful)
    (hpairs : ∀ pair ∈ pairs, pair.1.Sound store.vars.size ∧ pair.2.Sound store.vars.size) :
    Settles store (pairs.forM fun (a, b) => unify a b) (Joins pairs) := by
  induction pairs generalizing store with
  | nil => exact .pure lawful fun θ _ => joins_nil θ
  | cons pair pairs ih =>
    obtain ⟨⟨ha, hb⟩, hpairs⟩ := List.forall_mem_cons.mp hpairs
    change Settles store (unify pair.1 pair.2 >>= fun _ => pairs.forM fun (a, b) => unify a b) _
    refine (Settles.bind (H lawful ha hb) fun store' advances => ih advances.lawful ?_).congr ?_
    · rwa [advances.size]
    · exact fun _ _ _ => joins_cons.symm

/-- Of a tuple that is wide enough, the demanded components are compared with the components. -/
theorem holds_iff_joins (holes : Holes) {θ : KindVar → Kind}
    (hadmits : admits predicate target = true)
    (hwithin : ∀ demand ∈ components, ∃ width, predicate = .tupleWidth width ∧ demand.1 < width) :
    KindVarState.Holds holes θ (target.reading θ) components ↔
      Joins (demandedPairs components target) θ := by
  cases target with
  | tuple ks =>
    have hactual : ∀ demand ∈ components, ∃ actual, ks[demand.1]? = some actual := by
      intro demand hmem
      obtain ⟨width, rfl, hlt⟩ := hwithin demand hmem
      simp only [admits, decide_eq_true_eq] at hadmits
      exact ⟨_, List.getElem?_eq_getElem (Nat.lt_of_lt_of_le hlt hadmits)⟩
    constructor
    · intro h pair hpair
      obtain ⟨demand, hmem, hi⟩ := List.mem_filterMap.mp hpair
      obtain ⟨actual, hactual, rfl⟩ := Option.map_eq_some_iff.mp hi
      have := h demand hmem
      simp only [Kind.reading_tuple, Holes.component?, List.getElem?_map, hactual, Option.map_some,
        Option.some.injEq] at this
      exact this.symm
    · intro h demand hmem
      obtain ⟨actual, hactual⟩ := hactual demand hmem
      have hpair : (demand.2, actual) ∈ demandedPairs components (.tuple ks) :=
        List.mem_filterMap.mpr ⟨demand, hmem, by simp [hactual]⟩
      simp [Holes.component?, hactual, h _ hpair]
  | _ =>
    have hnone : components = [] := by
      refine List.eq_nil_iff_forall_not_mem.mpr fun demand hmem => ?_
      obtain ⟨width, rfl, -⟩ := hwithin demand hmem
      cases hadmits
    simp [hnone, KindVarState.Holds, demandedPairs]

theorem reading_ne_mvar (htarget : ∀ w, target ≠ .mvar w) (θ : KindVar → Kind) (w : KindVar) :
    target.reading θ ≠ .mvar w := by
  cases target with
  | mvar u => exact absurd rfl (htarget u)
  | _ => simp

theorem admits_reading (htarget : ∀ w, target ≠ .mvar w) (θ : KindVar → Kind) :
    admits predicate (target.reading θ) = admits predicate target := by
  cases target with
  | mvar u => exact absurd rfl (htarget u)
  | _ => cases predicate <;> simp

theorem meets_iff {holes : Holes} {θ : KindVar → Kind} (htarget : ∀ w, target ≠ .mvar w) :
    holes.Meets predicate (target.reading θ) ↔ admits predicate target = true := by
  rw [Holes.meets_iff_admits (reading_ne_mvar htarget θ), admits_reading htarget]

/-- A link and the equations between components say what the unbound variable and an equation say.
-/
theorem satisfies_link {holes : Holes} {θ : KindVar → Kind} (lawful : store.Lawful)
    (hlt : v < store.vars.size) (hv : store.stateOf v = .unbound predicate components)
    (htarget : ∀ w, target ≠ .mvar w) (hadmits : admits predicate target = true) :
    (store.put v (.link target)).Satisfies holes θ ∧ Joins (demandedPairs components target) θ ↔
      store.Satisfies holes θ ∧ (Kind.mvar v).reading θ = target.reading θ := by
  rw [satisfies_put hlt, satisfies_iff_but v, hv, ← holds_iff_joins holes hadmits
    (lawful.within hv)]
  constructor
  · rintro ⟨⟨heq, hrest⟩, hholds⟩
    exact ⟨⟨⟨heq ▸ (meets_iff htarget).mpr hadmits, heq ▸ hholds⟩, hrest⟩, heq⟩
  · rintro ⟨⟨⟨-, hholds⟩, hrest⟩, heq⟩
    exact ⟨⟨heq, hrest⟩, heq ▸ hholds⟩

theorem advances_link (lawful : store.Lawful) (hlt : v < store.vars.size)
    (hv : store.stateOf v = .unbound predicate components) (hsound : target.Sound store.vars.size)
    (htarget : ∀ w, target ≠ .mvar w) (hoccurs : store.occurs v target = false)
    (hadmits : admits predicate target = true) : Advances store (store.put v (.link target)) := by
  have hunlinked : ¬ store.Linked v := not_linked_iff.mpr ⟨_, _, hv⟩
  refine advances_put hlt hunlinked (lawful.put_link hlt hunlinked hsound hoccurs)
    fun {holes θ} _ heq => ?_
  have heq : (Kind.mvar v).reading θ = target.reading θ := heq
  rw [hv, heq]
  exact (meets_iff htarget).mpr hadmits

theorem solve_settles (H : SettlesEquations unify) (lawful : store.Lawful)
    (hlt : v < store.vars.size) (hsound : target.Sound store.vars.size)
    (htarget : ∀ w, target ≠ .mvar w) (hv : store.stateOf v = .unbound predicate components) :
    Settles store (solve unify v target) fun θ => (Kind.mvar v).reading θ = target.reading θ := by
  refine .read rfl lawful ?_
  simp only [hv]
  refine .read rfl lawful ?_
  split
  next hoccurs =>
    exact .of_failure lawful rfl fun _ θ hθ =>
      lawful.reading_ne_of_occurs hθ.obeys.equates htarget hoccurs
  next hoccurs =>
  split
  next hadmits =>
    have advances := advances_link lawful hlt hv hsound htarget (by simpa using hoccurs) hadmits
    have hpairs := demandedPairs_forall (lawful.demands hv) fun _ hp => hsound.part hp
    exact .after (store.put v (.link target)) rfl advances
      (fun _ _ => satisfies_link lawful hlt hv htarget hadmits)
      (forM_settles H advances.lawful (by simpa using hpairs))
  next hadmits =>
    refine .of_failure lawful rfl fun _ θ hθ heq => hadmits ?_
    exact (meets_iff htarget).mp (heq ▸ hθ.obeys.meets hv)

/-- Merged demands and the equations between them say what the two lists of demands say. -/
theorem holds_mergeComponents (holes : Holes) (θ : KindVar → Kind) (k : Kind)
    {left right merged : List (Nat × Kind)} {pairs : List (Kind × Kind)}
    (h : mergeComponents right left = (merged, pairs)) :
    KindVarState.Holds holes θ k merged ∧ Joins pairs θ ↔
      KindVarState.Holds holes θ k right ∧ KindVarState.Holds holes θ k left := by
  induction left generalizing right merged pairs with
  | nil =>
    cases h
    simp [KindVarState.Holds]
  | cons demand left ih =>
    obtain ⟨i, kind⟩ := demand
    have hcons : KindVarState.Holds holes θ k ((i, kind) :: left) ↔
        holes.component? k i = some (kind.reading θ) ∧ KindVarState.Holds holes θ k left :=
      List.forall_mem_cons
    simp only [mergeComponents] at h
    split at h
    next existing hlookup =>
      cases h
      obtain ⟨before, after, rfl, -⟩ := List.lookup_eq_some_iff.mp hlookup
      have hexisting : KindVarState.Holds holes θ k (before ++ (i, existing) :: after) →
          holes.component? k i = some (existing.reading θ) := fun h => h (i, existing) (by simp)
      rw [joins_cons, hcons, and_left_comm, ih rfl, and_left_comm]
      refine and_congr_right fun hright => and_congr_left fun _ => ?_
      rw [hexisting hright, Option.some.injEq, eq_comm]
    next hlookup =>
      rw [ih h, hcons]
      have happend : KindVarState.Holds holes θ k (right ++ [(i, kind)]) ↔
          KindVarState.Holds holes θ k right ∧ holes.component? k i = some (kind.reading θ) := by
        simp [KindVarState.Holds, or_imp, forall_and]
      rw [happend, and_assoc]

/-- A demand on a component of which nothing was demanded. -/
theorem nodup_concat {demand : Nat × Kind} (hdistinct : (components.map Prod.fst).Nodup)
    (hlookup : components.lookup demand.1 = none) :
    ((components ++ [demand]).map Prod.fst).Nodup := by
  rw [List.map_append, List.map_singleton, ← List.concat_eq_append]
  refine hdistinct.concat fun hmem => ?_
  obtain ⟨d, hd, heq⟩ := List.mem_map.mp hmem
  simpa [heq] using List.lookup_eq_none_iff.mp hlookup d hd

/-- A merged demand comes from one of the two lists, and no component is demanded twice. -/
theorem mergeComponents_merged {left right merged : List (Nat × Kind)} {pairs : List (Kind × Kind)}
    (hright : (right.map Prod.fst).Nodup) (h : mergeComponents right left = (merged, pairs)) :
    (∀ demand ∈ merged, demand ∈ right ∨ demand ∈ left) ∧ (merged.map Prod.fst).Nodup := by
  induction left generalizing right merged pairs with
  | nil =>
    cases h
    exact ⟨fun _ hmem => .inl hmem, hright⟩
  | cons demand left ih =>
    simp only [mergeComponents] at h
    split at h
    next existing _ =>
      cases h
      obtain ⟨hmem, hdistinct⟩ := ih hright rfl
      exact ⟨fun d hd => (hmem d hd).imp_right (List.mem_cons_of_mem _), hdistinct⟩
    next hlookup =>
      obtain ⟨hmem, hdistinct⟩ := ih (nodup_concat hright hlookup) h
      exact ⟨fun d hd => by simpa [or_assoc] using hmem d hd, hdistinct⟩

/-- A component that one of two predicates says to be there is there by both. -/
theorem within_meet {p q : KindPredicate} (hmeet : p.meet q = some predicate) {i : Nat}
    (h : ∃ width, (p = .tupleWidth width ∨ q = .tupleWidth width) ∧ i < width) :
    ∃ width, predicate = .tupleWidth width ∧ i < width := by
  obtain ⟨width, hwidth, hlt⟩ := h
  obtain ⟨width', rfl, hle⟩ := KindPredicate.exists_width_of_meet hmeet hwidth
  exact ⟨width', rfl, Nat.lt_of_lt_of_le hlt hle⟩

/-- The merged demands are in order if those of both variables are. -/
theorem mergeComponents_lawful {size : Nat} {left right merged : List (Nat × Kind)}
    {pairs : List (Kind × Kind)} {leftPredicate rightPredicate : KindPredicate}
    (hleft : (KindVarState.unbound leftPredicate left).Lawful size)
    (hright : (KindVarState.unbound rightPredicate right).Lawful size)
    (hmeet : leftPredicate.meet rightPredicate = some predicate)
    (h : mergeComponents right left = (merged, pairs)) :
    (KindVarState.unbound predicate merged).Lawful size := by
  cases hleft with
  | unbound soundLeft _ withinLeft =>
  cases hright with
  | unbound soundRight distinct withinRight =>
  obtain ⟨hmem, hdistinct⟩ := mergeComponents_merged distinct h
  refine .unbound (mergeComponents_forall soundRight soundLeft h).1 hdistinct fun demand hd => ?_
  refine within_meet hmeet ?_
  rcases hmem demand hd with hright | hleft
  · exact (withinRight demand hright).imp fun _ h => ⟨.inr h.1, h.2⟩
  · exact (withinLeft demand hleft).imp fun _ h => ⟨.inl h.1, h.2⟩

section Merge

variable {left right : KindVar} {leftPredicate rightPredicate : KindPredicate}
  {leftComponents rightComponents merged : List (Nat × Kind)} {pairs : List (Kind × Kind)}

/-- The store in which `left` is linked to `right`, which has new demands. -/
def merge (store : KindStore) (left right : KindVar) (predicate : KindPredicate)
    (components : List (Nat × Kind)) : KindStore :=
  (store.put right (.unbound predicate components)).put left (.link (.mvar right))

theorem stateOf_merge (hleft : left < store.vars.size) (hright : right < store.vars.size)
    (components : List (Nat × Kind)) (u : KindVar) :
    (store.merge left right predicate components).stateOf u =
      if u = left then .link (.mvar right)
      else if u = right then .unbound predicate components else store.stateOf u := by
  rw [merge, stateOf_put (by simpa), stateOf_put hright]

/-- What the two variables satisfy, and what the others do. -/
private theorem satisfies_iff_pair {holes : Holes} {θ : KindVar → Kind} (left right : KindVar) :
    store.Satisfies holes θ ↔
      ((store.stateOf left).SatisfiedBy holes θ ((Kind.mvar left).reading θ) ∧
        (store.stateOf right).SatisfiedBy holes θ ((Kind.mvar right).reading θ)) ∧
      ∀ u, u ≠ left → u ≠ right →
        (store.stateOf u).SatisfiedBy holes θ ((Kind.mvar u).reading θ) := by
  refine ⟨fun h => ⟨⟨h left, h right⟩, fun u _ _ => h u⟩, fun h u => ?_⟩
  by_cases hl : u = left
  · exact hl ▸ h.1.1
  by_cases hr : u = right
  · exact hr ▸ h.1.2
  exact h.2 u hl hr

theorem satisfies_merge {holes : Holes} {θ : KindVar → Kind} (hleft : left < store.vars.size)
    (hright : right < store.vars.size) (hne : left ≠ right)
    (hl : store.stateOf left = .unbound leftPredicate leftComponents)
    (hr : store.stateOf right = .unbound rightPredicate rightComponents)
    (hmeet : leftPredicate.meet rightPredicate = some predicate)
    (hmerge : mergeComponents rightComponents leftComponents = (merged, pairs)) :
    (store.merge left right predicate merged).Satisfies holes θ ∧ Joins pairs θ ↔
      store.Satisfies holes θ ∧ (Kind.mvar left).reading θ = (Kind.mvar right).reading θ := by
  have hrest : (∀ u, u ≠ left → u ≠ right →
      ((store.merge left right predicate merged).stateOf u).SatisfiedBy holes θ
        ((Kind.mvar u).reading θ)) ↔ ∀ u, u ≠ left → u ≠ right →
      (store.stateOf u).SatisfiedBy holes θ ((Kind.mvar u).reading θ) := by
    refine forall_congr' fun u => forall₂_congr fun hl hr => ?_
    rw [stateOf_merge hleft hright, if_neg hl, if_neg hr]
  have hholds := holds_mergeComponents holes θ ((Kind.mvar right).reading θ) hmerge
  have hmeets : holes.Meets predicate ((Kind.mvar right).reading θ) ↔ _ := Holes.meets_meet hmeet _
  rw [satisfies_iff_pair left right, satisfies_iff_pair left right, hrest,
    stateOf_merge hleft hright, stateOf_merge hleft hright, if_pos rfl, if_neg hne.symm, if_pos rfl,
    hl, hr]
  simp only [KindVarState.SatisfiedBy, hmeets]
  constructor
  · rintro ⟨⟨⟨heq, ⟨hml, hmr⟩, hmerged⟩, hrest⟩, hjoins⟩
    obtain ⟨hcr, hcl⟩ := hholds.mp ⟨hmerged, hjoins⟩
    exact ⟨⟨⟨⟨heq ▸ hml, heq ▸ hcl⟩, hmr, hcr⟩, hrest⟩, heq⟩
  · rintro ⟨⟨⟨⟨hml, hcl⟩, hmr, hcr⟩, hrest⟩, heq⟩
    rw [heq] at hml hcl
    obtain ⟨hmerged, hjoins⟩ := hholds.mpr ⟨hcr, hcl⟩
    exact ⟨⟨⟨heq, ⟨hml, hmr⟩, hmerged⟩, hrest⟩, hjoins⟩

theorem advances_merge (lawful : store.Lawful) (hleft : left < store.vars.size)
    (hright : right < store.vars.size) (hne : left ≠ right)
    (hl : store.stateOf left = .unbound leftPredicate leftComponents)
    (hr : store.stateOf right = .unbound rightPredicate rightComponents)
    (hmeet : leftPredicate.meet rightPredicate = some predicate)
    (hmerge : mergeComponents rightComponents leftComponents = (merged, pairs)) :
    Advances store (store.merge left right predicate merged) := by
  have lawful₁ : (store.put right (.unbound predicate merged)).Lawful :=
    lawful.put_unbound hright
      (mergeComponents_lawful (hl ▸ lawful.states left) (hr ▸ lawful.states right) hmeet hmerge)
  have hr₁ : ¬ (store.put right (.unbound predicate merged)).Linked right := by
    simp [Linked, stateOf_put hright]
  have hl₁ : (store.put right (.unbound predicate merged)).stateOf left =
      .unbound leftPredicate leftComponents := by
    rw [stateOf_put hright, if_neg hne, hl]
  have lawful₂ : (store.merge left right predicate merged).Lawful := by
    refine lawful₁.put_link (by simpa) (not_linked_iff.mpr ⟨_, _, hl₁⟩)
      (.intro ⟨by simp, fun w hw => by cases hw; simpa⟩ (by simp [Kind.parts])) ?_
    simp [occurs, expand_eq_assign, spelled_of_not_linked hr₁, Kind.mvars, hne]
  refine (advances_put hright (not_linked_iff.mpr ⟨_, _, hr⟩) lawful₁ fun _ h => ?_).trans
    (advances_put (by simpa) (not_linked_iff.mpr ⟨_, _, hl₁⟩) lawful₂ fun {holes θ} hθ heq => ?_)
  · rw [hr]
    exact ((Holes.meets_meet hmeet _).mp h).2
  · have hmeets : holes.Meets predicate ((Kind.mvar right).reading θ) := by
      have hr₁ : (store.merge left right predicate merged).stateOf right =
          .unbound predicate merged :=
        (stateOf_merge hleft hright merged right).trans (by simp [hne.symm])
      exact hθ.meets hr₁
    have heq : (Kind.mvar left).reading θ = (Kind.mvar right).reading θ := heq
    rw [hl₁, heq]
    exact ((Holes.meets_meet hmeet _).mp hmeets).1

theorem mergeVars_settles (H : SettlesEquations unify) (lawful : store.Lawful)
    (hleft : left < store.vars.size) (hright : right < store.vars.size) (hne : left ≠ right)
    (hl : store.stateOf left = .unbound leftPredicate leftComponents)
    (hr : store.stateOf right = .unbound rightPredicate rightComponents) :
    Settles store (mergeVars unify left right) fun θ =>
      (Kind.mvar left).reading θ = (Kind.mvar right).reading θ := by
  refine .read rfl lawful (.read rfl lawful ?_)
  simp only [hl, hr]
  split
  next hmeet =>
    refine .of_failure lawful rfl fun _ θ hθ heq => ?_
    exact Holes.meet_ne_none (heq ▸ hθ.obeys.meets hl) (hθ.obeys.meets hr) hmeet
  next predicate hmeet =>
    rcases hmerge : mergeComponents rightComponents leftComponents with ⟨merged, pairs⟩
    obtain ⟨-, hpairs⟩ := mergeComponents_forall (lawful.demands hr) (lawful.demands hl) hmerge
    have advances := advances_merge lawful hleft hright hne hl hr hmeet hmerge
    exact .after (store.merge left right predicate merged) rfl advances
      (fun _ _ => satisfies_merge hleft hright hne hl hr hmeet hmerge)
      (forM_settles H advances.lawful (by simpa [merge] using hpairs))

end Merge

end Steps

/-- Unification keeps exactly the assignments that make the two kinds equal. -/
theorem unify_settles (fuel : Nat) : SettlesEquations (unify fuel) := by
  induction fuel with
  | zero =>
    intro a b store _ _ _ r store' hexec
    cases hexec
  | succ fuel ih =>
    intro a b store lawful ha hb
    simp only [unify]
    split
    next h => exact .pure lawful fun θ _ => by rw [h]
    next =>
    refine .resolve lawful ha fun a' store₁ traced₁ => ?_
    refine .resolve traced₁.lawful (by rwa [traced₁.size]) fun b' store₂ traced₂ => ?_
    have faces := traced₁.faces traced₂ lawful
    have lawful₂ := faces.advances.lawful
    have ha' := faces.left
    have hb' := faces.right
    have hreading : ∀ holes θ, store₂.Satisfies holes θ →
        (a'.reading θ = b'.reading θ ↔ a.reading θ = b.reading θ) := by
      intro holes θ hθ
      obtain ⟨hleft, hright⟩ := faces.reading (faces.advances.obeys hθ.obeys).equates
      rw [hleft, hright]
    refine Settles.congr ?_ hreading
    split
    next h =>
      rcases h with h | h | h
      · exact .pure lawful₂ fun θ _ => by rw [h]
      · exact absurd h ha'.ne_error
      · exact absurd h hb'.ne_error
    next hne =>
    split
    next left right =>
      obtain ⟨_, _, hl⟩ := faces.unbound left (.inl rfl)
      obtain ⟨_, _, hr⟩ := faces.unbound right (.inr rfl)
      refine mergeVars_settles ih lawful₂ ha'.lt hb'.lt ?_ hl hr
      rintro rfl
      exact hne (.inl rfl)
    next target htarget =>
      obtain ⟨_, _, hv⟩ := faces.unbound _ (.inl rfl)
      exact solve_settles ih lawful₂ ha'.lt hb' htarget hv
    next target v htarget =>
      obtain ⟨_, _, hv⟩ := faces.unbound v (.inr rfl)
      exact (solve_settles ih lawful₂ hb'.lt ha' htarget hv).congr fun _ _ _ => eq_comm
    next d c d' c' =>
      have hd := ih (a := d) (b := d') lawful₂ (ha'.part (by simp [Kind.parts]))
        (hb'.part (by simp [Kind.parts]))
      have hc : ∀ store₃, Advances store₂ store₃ →
          Settles store₃ (unify fuel c c') fun θ => c.reading θ = c'.reading θ := by
        intro store₃ advances
        rw [← advances.size] at ha' hb'
        exact ih advances.lawful (ha'.part (by simp [Kind.parts])) (hb'.part (by simp [Kind.parts]))
      exact (hd.bind hc).congr fun _ θ _ => by simp
    next e e' =>
      exact (ih lawful₂ (ha'.part (by simp [Kind.parts]))
        (hb'.part (by simp [Kind.parts]))).congr fun _ θ _ => by simp
    next ks ks' =>
      split
      next hlength =>
        refine (forM_settles ih lawful₂ fun pair hpair => ?_).congr fun _ θ _ => ?_
        · have hmem := List.of_mem_zip (a := pair.1) (b := pair.2) hpair
          exact ⟨ha'.part hmem.1, hb'.part hmem.2⟩
        · rw [joins_zip hlength, Kind.reading_tuple, Kind.reading_tuple, Kind.tuple.injEq]
      next hlength =>
        refine .of_failure lawful₂ rfl fun _ θ _ heq => hlength ?_
        simp only [Kind.reading_tuple, Kind.tuple.injEq] at heq
        simpa using congrArg List.length heq
    next body _ body' =>
      exact (ih lawful₂ (ha'.part (by simp [Kind.parts]))
        (hb'.part (by simp [Kind.parts]))).congr fun _ θ _ => by simp
    next ha hb _ harrow hrecord htuple hpoly =>
      refine .of_failure lawful₂ rfl fun _ θ _ heq => ?_
      rcases Kind.heads_of_reading_eq ha hb heq with h | ⟨_, _, _, _, h, h'⟩ | ⟨_, _, h, h'⟩ |
        ⟨_, _, h, h'⟩ | ⟨_, _, _, _, h, h'⟩
      · exact hne (.inl h)
      · exact harrow _ _ _ _ h h'
      · exact hrecord _ _ h h'
      · exact htuple _ _ h h'
      · exact hpoly _ _ _ _ h h'

end KindStore

end RowML
