import RowML.Proofs.Kind.Acyclic

/-!
# Spelling out the solutions of a store

In a lawful store what is known of every variable is in order, and no variable is reached from its
own link.  A kind that is spelled out stands for what the kind stands for, and following links, with
or without shortening them, keeps the store lawful.
-/

namespace RowML

/-- What may be known of a variable: a kind without poison, or demands on distinct components of
which the predicate says that they are there. -/
inductive KindVarState.Lawful (size : Nat) : KindVarState → Prop where
  | link {target : Kind} (sound : target.Sound size) : Lawful size (.link target)
  | unbound {predicate : KindPredicate} {components : List (Nat × Kind)}
      (sound : ∀ demand ∈ components, demand.2.Sound size)
      (distinct : (components.map Prod.fst).Nodup)
      (within : ∀ demand ∈ components, ∃ width, predicate = .tupleWidth width ∧ demand.1 < width) :
      Lawful size (.unbound predicate components)

theorem KindVarState.Lawful.mono {size size' : Nat} {state : KindVarState} (h : state.Lawful size)
    (hle : size ≤ size') : state.Lawful size' := by
  cases h with
  | link sound => exact .link (sound.mono hle)
  | unbound sound distinct within =>
    exact .unbound (fun demand hmem => (sound demand hmem).mono hle) distinct within

namespace KindStore

variable {store store' : KindStore} {k target : Kind} {v : KindVar} {predicate : KindPredicate}
  {components : List (Nat × Kind)}

/-- The stores that the operations build: what is known of every variable is in order, and no
variable is reached from its own link. -/
structure Lawful (store : KindStore) : Prop where
  states : ∀ v, (store.stateOf v).Lawful store.vars.size
  acyclic : ∃ rank, Ranks store.Mentions rank

namespace Lawful

theorem links (lawful : store.Lawful) (hv : store.stateOf v = .link target) :
    target.Sound store.vars.size := by
  cases hv ▸ lawful.states v with
  | link sound => exact sound

theorem demands (lawful : store.Lawful) (hv : store.stateOf v = .unbound predicate components) :
    ∀ demand ∈ components, demand.2.Sound store.vars.size := by
  cases hv ▸ lawful.states v with
  | unbound sound => exact sound

theorem distinct (lawful : store.Lawful) (hv : store.stateOf v = .unbound predicate components) :
    (components.map Prod.fst).Nodup := by
  cases hv ▸ lawful.states v with
  | unbound _ distinct => exact distinct

theorem within (lawful : store.Lawful) (hv : store.stateOf v = .unbound predicate components) :
    ∀ demand ∈ components, ∃ width, predicate = .tupleWidth width ∧ demand.1 < width := by
  cases hv ▸ lawful.states v with
  | unbound _ _ within => exact within

theorem leads (lawful : store.Lawful) : ∃ rank, Ranks store.Leads rank :=
  Acyclic.leads lawful.acyclic

theorem wellFormed (lawful : store.Lawful) : store.WellFormed where
  links := lawful.links
  demands := lawful.demands
  acyclic := lawful.leads

end Lawful

/-! ## Readings -/

namespace Lawful

/-- A solution that is spelled out stands for what the variable stands for. -/
theorem reading_spelled (lawful : store.Lawful) {θ : KindVar → Kind} (hθ : store.Equates θ)
    (v : KindVar) : (store.spelled v).reading θ = (Kind.mvar v).reading θ := by
  induction v using Acyclic.induction lawful.acyclic with
  | step v ih =>
    by_cases hv : store.Linked v
    · obtain ⟨target, hv⟩ := hv
      rw [Acyclic.spelled_link lawful.acyclic hv, Kind.reading_assign, hθ hv]
      exact Kind.reading_congr fun w hw => ih w ⟨target, hv, hw⟩
    · rw [spelled_of_not_linked hv]

theorem reading_expand (lawful : store.Lawful) {θ : KindVar → Kind} (hθ : store.Equates θ)
    (k : Kind) : (store.expand k).reading θ = k.reading θ := by
  rw [expand_eq_assign, Kind.reading_assign]
  exact Kind.reading_congr fun v _ => lawful.reading_spelled hθ v

theorem equates_spelled (lawful : store.Lawful) : store.Equates store.spelled :=
  fun _ _ hv => congrArg Kind.nameless (Acyclic.spelled_link lawful.acyclic hv)

/-- What the unbound variables stand for determines what every kind stands for. -/
theorem reading_eq (lawful : store.Lawful) {σ θ : KindVar → Kind} (hσ : store.Equates σ)
    (hθ : store.Equates θ)
    (h : ∀ v, ¬ store.Linked v → (Kind.mvar v).reading σ = (Kind.mvar v).reading θ) (k : Kind) :
    k.reading σ = k.reading θ := by
  suffices hvar : ∀ v, (Kind.mvar v).reading σ = (Kind.mvar v).reading θ from
    Kind.reading_congr fun v _ => hvar v
  intro v
  induction v using Acyclic.induction lawful.acyclic with
  | step v ih =>
    by_cases hv : store.Linked v
    · obtain ⟨target, hv⟩ := hv
      rw [hσ hv, hθ hv]
      exact Kind.reading_congr fun w hw => ih w ⟨target, hv, hw⟩
    · exact h v hv

end Lawful

/-! ## Linking -/

namespace Lawful

/-- A variable that occurs inside a kind is never equal to it. -/
theorem reading_ne_of_occurs (lawful : store.Lawful) {θ : KindVar → Kind} (hθ : store.Equates θ)
    (hk : ∀ w, k ≠ .mvar w) (h : store.occurs v k = true) :
    (Kind.mvar v).reading θ ≠ k.reading θ := by
  rw [← lawful.reading_expand hθ k]
  refine Kind.reading_mvar_ne θ (List.contains_iff_mem.mp h) ?_
  rw [expand_eq_assign]
  cases k with
  | mvar w => exact absurd rfl (hk w)
  | _ => simp [Kind.assign, Kind.replace]

private theorem put_states (lawful : store.Lawful) (hlt : v < store.vars.size)
    {state : KindVarState} (hstate : state.Lawful store.vars.size) (u : KindVar) :
    ((store.put v state).stateOf u).Lawful (store.put v state).vars.size := by
  rw [stateOf_put hlt, size_put]
  split
  · exact hstate
  · exact lawful.states u

/-- Linking a variable to a kind in which it does not occur. -/
theorem put_link (lawful : store.Lawful) (hlt : v < store.vars.size) (hv : ¬ store.Linked v)
    (hsound : target.Sound store.vars.size) (hoccurs : store.occurs v target = false) :
    (store.put v (.link target)).Lawful :=
  ⟨lawful.put_states hlt (.link hsound), Acyclic.put_link lawful.acyclic hv hoccurs⟩

/-- Giving a variable other demands. -/
theorem put_unbound (lawful : store.Lawful) (hlt : v < store.vars.size)
    (hstate : (KindVarState.unbound predicate components).Lawful store.vars.size) :
    (store.put v (.unbound predicate components)).Lawful :=
  ⟨lawful.put_states hlt hstate, Acyclic.put_unbound lawful.acyclic v predicate components⟩

end Lawful

/-! ## Shortened chains -/

theorem sound_follow (lawful : store.Lawful) (hk : k.Sound store.vars.size) (n : Nat) :
    (store.follow n k).Sound store.vars.size := by
  induction n generalizing k with
  | zero => rwa [follow_zero]
  | succ n ih =>
    by_cases hend : store.Ended k
    · rwa [follow_eq_self hend]
    · obtain ⟨v, target, rfl, hv⟩ := exists_link_of_not_ended hend
      rw [follow_link hv]
      exact ih (lawful.links hv)

theorem Shortens.lawful (h : Shortens store store') (hsize : store'.vars.size = store.vars.size)
    (lawful : store.Lawful) : store'.Lawful := by
  refine ⟨fun v => ?_, Acyclic.shortened lawful.acyclic h⟩
  rw [hsize]
  rcases h v with hsame | ⟨target, n, hv, hv'⟩
  · exact hsame ▸ lawful.states v
  · exact hv' ▸ .link (sound_follow lawful (lawful.links hv) n)

/-- The function gives the same for a linked variable and for what it is linked to. -/
def Respects {β : Type} (store : KindStore) (g : Kind → β) : Prop :=
  ∀ ⦃v target⦄, store.stateOf v = .link target → g (.mvar v) = g target

section Respects

variable {β : Type} {g : Kind → β}

/-- Along a chain, a function gives the same if that is so of the variables on it. -/
theorem follow_eq_of_links {P : KindVar → Prop}
    (hg : ∀ {v target}, P v → store.stateOf v = .link target → g (.mvar v) = g target)
    (hnext : ∀ {v w}, P v → store.Leads v w → P w) (hk : ∀ v, k = .mvar v → P v) (n : Nat) :
    g (store.follow n k) = g k := by
  induction n generalizing k with
  | zero => rw [follow_zero]
  | succ n ih =>
    by_cases hend : store.Ended k
    · rw [follow_eq_self hend]
    · obtain ⟨v, target, rfl, hv⟩ := exists_link_of_not_ended hend
      rw [follow_link hv, hg (hk v rfl) hv]
      exact ih fun w hw => hnext (hk v rfl) (hv.trans (congrArg _ hw))

theorem Respects.follow (hg : store.Respects g) (k : Kind) (n : Nat) :
    g (store.follow n k) = g k :=
  follow_eq_of_links (P := fun _ => True) (fun _ hv => hg hv) (fun _ _ => trivial)
    (fun _ _ => trivial) n

theorem Shortens.respects (h : Shortens store store') (hleads : ∃ rank, Ranks store.Leads rank) :
    store'.Respects g ↔ store.Respects g := by
  refine ⟨fun hg v target hv => ?_, fun hg v t hv' => ?_⟩
  · -- a link holds once those that the chain goes on with do
    obtain ⟨rank, hrank⟩ := hleads
    induction hn : rank v using Nat.strong_induction_on generalizing v target with
    | h n ih =>
      subst hn
      rcases h v with hsame | ⟨target', n, hv', hfar⟩
      · exact hg (hsame.trans hv)
      · rw [hv] at hv'
        cases hv'
        rw [hg hfar]
        exact follow_eq_of_links (P := fun w => rank w < rank v)
          (fun hw hlink => ih _ hw _ _ hlink rfl)
          (fun hw hstep => Nat.lt_trans (hrank _ _ hstep) hw)
          (fun w hw => hrank v w (hv.trans (congrArg _ hw))) n
  · rcases h v with hsame | ⟨target, n, hv, hfar⟩
    · exact hg (hsame ▸ hv')
    · rw [hfar] at hv'
      cases hv'
      rw [hg hv, hg.follow]

end Respects

theorem Equates.reading_follow {θ : KindVar → Kind} (hθ : store.Equates θ) (k : Kind) (n : Nat) :
    (store.follow n k).reading θ = k.reading θ :=
  Respects.follow (g := Kind.reading θ) hθ k n

theorem Shortens.equates (h : Shortens store store') (hleads : ∃ rank, Ranks store.Leads rank)
    {θ : KindVar → Kind} : store'.Equates θ ↔ store.Equates θ :=
  h.respects (g := Kind.reading θ) hleads

theorem Shortens.obeys_iff (h : Shortens store store') (hleads : ∃ rank, Ranks store.Leads rank)
    {holes : Holes} {θ : KindVar → Kind} : store'.Obeys holes θ ↔ store.Obeys holes θ := by
  refine ⟨fun hθ v => ?_, fun hθ v => ?_⟩
  · cases hv : store.stateOf v with
    | link target => exact (h.equates hleads).mp hθ.equates hv
    | unbound predicate components => exact hθ.meets (h.stateOf_unbound.mpr hv)
  · cases hv : store'.stateOf v with
    | link target => exact (h.equates hleads).mpr hθ.equates hv
    | unbound predicate components => exact hθ.meets (h.stateOf_unbound.mp hv)

theorem Shortens.satisfies_iff (h : Shortens store store')
    (hleads : ∃ rank, Ranks store.Leads rank) {holes : Holes} {θ : KindVar → Kind} :
    store'.Satisfies holes θ ↔ store.Satisfies holes θ := by
  refine ⟨fun hθ v => ?_, fun hθ v => ?_⟩
  · cases hv : store.stateOf v with
    | link target => exact (h.equates hleads).mp hθ.obeys.equates hv
    | unbound predicate components => exact h.stateOf_unbound.mpr hv ▸ hθ v
  · cases hv : store'.stateOf v with
    | link target => exact (h.equates hleads).mpr hθ.obeys.equates hv
    | unbound predicate components => exact h.stateOf_unbound.mp hv ▸ hθ v

/-- What `resolve` does to a lawful store: the answer is the end of the chain. -/
structure Traced (store : KindStore) (k root : Kind) (store' : KindStore) : Prop where
  lawful : store'.Lawful
  size : store'.vars.size = store.vars.size
  shortens : Shortens store store'
  sound : root.Sound store'.vars.size
  ended : store'.Ended root
  reading : ∀ {θ}, store.Equates θ → root.reading θ = k.reading θ

theorem Lawful.resolve_traced (lawful : store.Lawful) (hk : k.Sound store.vars.size) :
    Traced store k ((resolve k).run store).1 ((resolve k).run store).2 := by
  obtain ⟨hroot, hshort⟩ : ((resolve k).run store).1 = store.follow store.vars.size k ∧
      Shortens store ((resolve k).run store).2 := resolveWithin_run store.vars.size k store
  obtain ⟨-, -, resolved⟩ := resolve_yields lawful.wellFormed hk _ _ rfl
  have resolved : Resolved store k ((resolve k).run store).1 ((resolve k).run store).2 :=
    resolved _ rfl
  refine ⟨hshort.lawful resolved.size lawful, resolved.size, hshort, resolved.sound, ?_, ?_⟩
  · exact fun v hv => not_linked_iff.mpr (resolved.unlinked hv)
  · exact fun hθ => hroot ▸ hθ.reading_follow k _

end KindStore

end RowML
