import RowML.Proofs.Kind.History
import RowML.Proofs.Lifting
import RowML.Store.Subst
import RowML.Unify.Rename

/-!
# Kinds and substitution side by side

Two stores of kinds are twins if they know the same of the variables that a renumbering pairs.  What
else they hold is garbage, and so is the order in which their variables were made.  Following links,
rebuilding kinds and unifying them run side by side on twins.  The number of variables, which bounds
the links to follow, differs between twins; since no links form a cycle, any larger bound does.

What replaces variables in a constructor never looks at the numbers of metavariables, except for
renaming, which compares them with the one that is to be solved.
-/

namespace RowML

/-- The same knowledge of a variable. -/
inductive KindVarState.Twin (ρ : Renumbering) : KindVarState → KindVarState → Prop where
  | unbound (predicate : KindPredicate) {components components' : List (Nat × Kind)}
    (h : List.Forall₂ (fun d d' => d.1 = d'.1 ∧ d.2.Twin ρ d'.2) components components') :
    Twin ρ (.unbound predicate components) (.unbound predicate components')
  | link {k k' : Kind} (h : k.Twin ρ k') : Twin ρ (.link k) (.link k')

theorem KindVarState.Twin.mono {ρ ρ' : Renumbering} {s s' : KindVarState} (h : s.Twin ρ s')
    (hρ : ρ ≤ ρ') : s.Twin ρ' s' := by
  cases h with
  | unbound predicate h => exact .unbound predicate (h.imp fun _ _ h => ⟨h.1, h.2.mono hρ⟩)
  | link h => exact .link (h.mono hρ)

namespace KindStore

/-- The stores know the same of variables that are paired. -/
structure Mirrors (ρ : Renumbering) (s t : KindStore) : Prop where
  states : ∀ {v w}, ρ.kinds v w → (s.stateOf v).Twin ρ (t.stateOf w)
  below : ∀ {v w}, ρ.kinds v w → v < s.vars.size ∧ w < t.vars.size

/-- Stores that mirror each other and whose links form no cycle. -/
structure Twin (ρ : Renumbering) (s t : KindStore) : Prop extends Mirrors ρ s t where
  left : s.Acyclic
  right : t.Acyclic

variable {ρ : Renumbering} {s t : KindStore} {k k' : Kind} {v w : KindVar}

theorem Mirrors.put (h : Mirrors ρ s t) (hv : ρ.kinds v w) {state state' : KindVarState}
    (hstate : state.Twin ρ state') : Mirrors ρ (s.put v state) (t.put w state') where
  states {u x} hu := by
    have heq : u = v ↔ x = w :=
      ⟨fun heq => ρ.kinds_unique.2 (heq ▸ hu) hv, fun heq => ρ.kinds_unique.1 (heq ▸ hu) hv⟩
    rw [stateOf_put (h.below hv).1, stateOf_put (h.below hv).2]
    by_cases hu' : u = v
    · rwa [if_pos hu', if_pos (heq.mp hu')]
    · rw [if_neg hu', if_neg (mt heq.mpr hu')]
      exact h.states hu
  below hu := by
    rw [size_put, size_put]
    exact h.below hu

theorem Twin.put_unbound (h : Twin ρ s t) (hv : ρ.kinds v w) {predicate : KindPredicate}
    {components components' : List (Nat × Kind)}
    (hcomponents : List.Forall₂ (fun d d' => d.1 = d'.1 ∧ d.2.Twin ρ d'.2) components components') :
    Twin ρ (s.put v (.unbound predicate components))
      (t.put w (.unbound predicate components')) where
  toMirrors := h.toMirrors.put hv (.unbound predicate hcomponents)
  left := h.left.put_unbound v predicate components
  right := h.right.put_unbound w predicate components'

theorem Twin.mono {ρ' : Renumbering} (h : Twin ρ s t) (hρ : ρ ≤ ρ')
    (hkinds : ∀ v w, ρ'.kinds v w → ρ.kinds v w) : Twin ρ' s t where
  states hv := (h.states (hkinds _ _ hv)).mono hρ
  below hv := h.below (hkinds _ _ hv)
  left := h.left
  right := h.right

theorem Mirrors.unpaired (h : Mirrors ρ s t) :
    (∀ w, ¬ ρ.kinds s.vars.size w) ∧ ∀ v, ¬ ρ.kinds v t.vars.size :=
  ⟨fun _ hv => Nat.lt_irrefl _ (h.below hv).1, fun _ hv => Nat.lt_irrefl _ (h.below hv).2⟩

/-- The renumbering that pairs the next variables of two stores as well. -/
abbrev Mirrors.next (h : Mirrors ρ s t) : Renumbering :=
  ρ.withKind s.vars.size t.vars.size h.unpaired.1 h.unpaired.2

theorem Twin.extend (h : Twin ρ s t) (predicate : KindPredicate) :
    Twin h.next (s.extend predicate) (t.extend predicate) where
  states {v w} hv := by
    rw [stateOf_extend, stateOf_extend]
    rcases hv with hv | ⟨rfl, rfl⟩
    · rw [if_neg (Nat.ne_of_lt (h.below hv).1), if_neg (Nat.ne_of_lt (h.below hv).2)]
      exact (h.states hv).mono (ρ.le_withKind _ _)
    · rw [if_pos rfl, if_pos rfl]
      exact .unbound predicate .nil
  below {v w} hv := by
    rw [size_extend, size_extend]
    rcases hv with hv | ⟨rfl, rfl⟩
    · exact ⟨Nat.lt_succ_of_lt (h.below hv).1, Nat.lt_succ_of_lt (h.below hv).2⟩
    · exact ⟨Nat.lt_succ_self _, Nat.lt_succ_self _⟩
  left := h.left.extend predicate
  right := h.right.extend predicate

/-! ## Following links -/

/-- Computations over stores that mirror each other. -/
abbrev mirroring : Lifting Eq KindM := .stateful Eq Mirrors

/-- Computations over twins. -/
abbrev lockstep : Lifting Eq KindM := .stateful Eq Twin

theorem setVar_mirrors (hv : ρ.kinds v w) {state state' : KindVarState}
    (hstate : state.Twin ρ state') :
    mirroring.Rel ρ (fun _ _ _ => True) (setVar v state) (setVar w state') :=
  fun _ _ hst => .some ⟨ρ, rfl, trivial, hst.put hv hstate⟩

theorem resolveWithin_mirrors (n : Nat) (h : k.Twin ρ k') :
    mirroring.Rel ρ Kind.Twin (resolveWithin n k) (resolveWithin n k') := by
  induction n generalizing k k' with
  | zero =>
    have hrun : ∀ k, resolveWithin 0 k = pure k := fun k => by cases k <;> rfl
    rw [hrun, hrun]
    exact mirroring.pure h
  | succ n ih =>
    cases h with
    | mvar hv =>
      refine Lifting.bind_still Lifting.stateful_get fun s t hst => ?_
      have hstate := hst.states hv
      revert hstate
      generalize s.stateOf _ = state, t.stateOf _ = state'
      rintro (_ | htarget)
      · exact mirroring.pure (.mvar hv)
      · refine Lifting.bind_still (ih htarget) fun root root' hroot => ?_
        simp only [ne_eq, hroot.eq_iff htarget]
        split
        · exact Lifting.bind_still (setVar_mirrors hv (.link hroot)) fun _ _ _ =>
            mirroring.pure hroot
        · exact mirroring.pure hroot
    | _ => exact mirroring.pure (by constructor <;> assumption)

/-- What does not depend on the number of variables and condenses stores runs side by side on twins.
-/
theorem lockstep_of_mirrors {α β : Type} {A : Renumbering → α → β → Prop} {x : KindM α}
    {y : KindM β} {x' : Nat → KindM α} {y' : Nat → KindM β}
    (h : ∀ n, mirroring.Rel ρ A (x' n) (y' n)) (hx : Throughout Condensing x)
    (hy : Throughout Condensing y)
    (hxrun : ∀ {s : KindStore} {n}, s.Acyclic → s.vars.size ≤ n → (x' n).run s = x.run s)
    (hyrun : ∀ {s : KindStore} {n}, s.Acyclic → s.vars.size ≤ n → (y' n).run s = y.run s) :
    lockstep.Rel ρ A x y := by
  refine Lifting.stateful_still.mpr fun s t hst => ?_
  have hrun := Lifting.stateful_still.mp (h (max s.vars.size t.vars.size)) s t hst.toMirrors
  rw [hxrun hst.left (Nat.le_max_left _ _), hyrun hst.right (Nat.le_max_right _ _)] at hrun
  exact ⟨hrun.1, hrun.2, (Condenses.of_run hx s).acyclic hst.left,
    (Condenses.of_run hy t).acyclic hst.right⟩

theorem resolve_lockstep (h : k.Twin ρ k') : lockstep.Rel ρ Kind.Twin (resolve k) (resolve k') :=
  lockstep_of_mirrors (fun n => resolveWithin_mirrors n h) (resolve_condensing k)
    (resolve_condensing k') (fun acyclic hn => acyclic.resolveWithin_eq _ hn)
    fun acyclic hn => acyclic.resolveWithin_eq _ hn

/-! ## Rebuilding through links -/

section Rebuild

variable {keep : Kind → Bool} {onBVar onBVar' : Nat → Nat → KindM Kind}
  (hkeep : ∀ {k k' : Kind}, k.Twin ρ k' → keep k = keep k')
  (hbvar : ∀ d i, lockstep.Rel ρ Kind.Twin (onBVar d i) (onBVar' d i))
include hkeep hbvar

theorem rebuildWithin_lockstep (n d : Nat) (h : k.Twin ρ k') :
    lockstep.Rel ρ Kind.Twin (rebuildWithin keep onBVar n d k)
      (rebuildWithin keep onBVar' n d k') := by
  induction n generalizing d k k' with
  | zero => exact lockstep.pure h
  | succ n ih =>
    refine Kind.rebuildM_twins lockstep hkeep hbvar (fun d v w hv => ?_) h d
    refine Lifting.bind_still (resolve_lockstep (.mvar hv)) fun root root' hroot => ?_
    cases hroot with
    | mvar hv => exact lockstep.pure (.mvar hv)
    | _ => exact ih d (by constructor <;> assumption)

theorem rebuild_lockstep (hcondensing : ∀ d i, Throughout Condensing (onBVar d i))
    (hcondensing' : ∀ d i, Throughout Condensing (onBVar' d i)) (h : k.Twin ρ k') :
    lockstep.Rel ρ Kind.Twin (rebuild keep onBVar k) (rebuild keep onBVar' k') := by
  refine Lifting.stateful_still.mpr fun s t hst => ?_
  let n := max s.vars.size t.vars.size + 1
  have hrun := Lifting.stateful_still.mp (rebuildWithin_lockstep hkeep hbvar n 0 h) s t hst
  have hs : s.vars.size < n := Nat.lt_succ_of_le (Nat.le_max_left _ _)
  have ht : t.vars.size < n := Nat.lt_succ_of_le (Nat.le_max_right _ _)
  rw [hst.left.rebuildWithin_eq hcondensing 0 k hs, hst.right.rebuildWithin_eq hcondensing' 0 k' ht]
    at hrun
  exact hrun

end Rebuild

theorem zonk_lockstep (h : k.Twin ρ k') : lockstep.Rel ρ Kind.Twin (zonk k) (zonk k') :=
  rebuild_lockstep (fun _ => rfl) (fun _ _ => lockstep.pure (.bvar _)) (fun _ _ => .pure _)
    (fun _ _ => .pure _) h

theorem lift_lockstep (h : k.Twin ρ k') (amount cutoff : Nat) :
    lockstep.Rel ρ Kind.Twin (lift k amount cutoff) (lift k' amount cutoff) := by
  unfold lift
  split
  · exact lockstep.pure h
  · exact rebuild_lockstep (fun h => by rw [h.hasBVar_eq]) (fun _ _ => lockstep.pure (.bvar _))
      (fun _ _ => .pure _) (fun _ _ => .pure _) h

theorem subst_lockstep {argument argument' : Kind} (h : k.Twin ρ k')
    (hargument : argument.Twin ρ argument') (index : Nat) :
    lockstep.Rel ρ Kind.Twin (subst k argument index) (subst k' argument' index) := by
  have hcondensing : ∀ (argument : Kind) (d i : Nat), Throughout Condensing
      (if i = index + d then lift argument (index + d) 0
        else pure (.bvar (if index + d < i then i - 1 else i)) : KindM Kind) := by
    intro argument d i
    split
    · exact lift_throughout resolve_condensing _ _ _
    · exact .pure _
  refine rebuild_lockstep (fun h => by rw [h.hasBVar_eq]) (fun d i => ?_) (hcondensing argument)
    (hcondensing argument') h
  split
  · exact lift_lockstep hargument _ _
  · exact lockstep.pure (.bvar _)

/-! ## Spelling out -/

theorem Mirrors.follow (h : Mirrors ρ s t) (hk : k.Twin ρ k') (n : Nat) :
    (s.follow n k).Twin ρ (t.follow n k') := by
  induction n generalizing k k' with
  | zero => simpa using hk
  | succ n ih =>
    cases hk with
    | mvar hv =>
      have hstate := h.states hv
      simp only [KindStore.follow]
      revert hstate
      generalize s.stateOf _ = state, t.stateOf _ = state'
      rintro (_ | htarget)
      · exact .mvar hv
      · exact ih htarget
    | _ => exact (by constructor <;> assumption)

theorem Twin.expand (h : Twin ρ s t) (hk : k.Twin ρ k') : (s.expand k).Twin ρ (t.expand k') := by
  have hroot : ∀ {v w}, ρ.kinds v w →
      (s.follow s.vars.size (.mvar v)).Twin ρ (t.follow t.vars.size (.mvar w)) := by
    intro v w hv
    have hfollow := h.follow (.mvar hv) (max s.vars.size t.vars.size)
    rwa [follow_eq_of_le h.left.leads _ (Nat.le_max_left _ _),
      follow_eq_of_le h.right.leads _ (Nat.le_max_right _ _)] at hfollow
  have hwithin : ∀ n {k k'}, k.Twin ρ k' → (s.expandWithin n k).Twin ρ (t.expandWithin n k') := by
    intro n
    induction n with
    | zero => exact fun hk => hk
    | succ n ih =>
      intro k k' hk
      refine Kind.rebuildM_twins .value (fun _ => rfl) (fun _ i => .bvar i)
        (fun _ v w hv => ?_) hk 0
      have hroot := hroot hv
      revert hroot
      generalize s.follow _ _ = root, t.follow _ _ = root'
      intro hroot
      cases hroot with
      | mvar hv => exact .mvar hv
      | _ => exact ih (by constructor <;> assumption)
  have hn := hwithin (max s.vars.size t.vars.size + 1) hk
  rwa [h.left.expandWithin_eq_of_lt k (Nat.lt_succ_of_le (Nat.le_max_left _ _)),
    h.right.expandWithin_eq_of_lt k' (Nat.lt_succ_of_le (Nat.le_max_right _ _))] at hn

theorem Twin.occurs (h : Twin ρ s t) (hv : ρ.kinds v w) (hk : k.Twin ρ k') :
    s.occurs v k = t.occurs w k' :=
  contains_eq_of_forall₂ ρ.kinds_unique (h.expand hk).mvars hv

/-! ## Unification -/

/-- Computations over twins that may fail.  Why one fails does not matter. -/
abbrev unifying : Lifting Eq KindUnifyM := (Lifting.fuelled Eq Twin).exceptT fun _ _ _ => True

/-- The same demands. -/
abbrev Demands (ρ : Renumbering) : List (Nat × Kind) → List (Nat × Kind) → Prop :=
  List.Forall₂ fun d d' => d.1 = d'.1 ∧ d.2.Twin ρ d'.2

theorem Twin.linked_iff (h : Twin ρ s t) (hv : ρ.kinds v w) : s.Linked v ↔ t.Linked w := by
  have hstate := h.states hv
  simp only [Linked]
  revert hstate
  generalize s.stateOf v = state, t.stateOf w = state'
  rintro (_ | _) <;> simp

theorem Twin.put_link (h : Twin ρ s t) (hv : ρ.kinds v w) (hk : k.Twin ρ k')
    (hunlinked : ¬ s.Linked v) (hoccurs : s.occurs v k = false) :
    Twin ρ (s.put v (.link k)) (t.put w (.link k')) where
  toMirrors := h.toMirrors.put hv (.link hk)
  left := h.left.put_link hunlinked hoccurs
  right := h.right.put_link (mt (h.linked_iff hv).mpr hunlinked) (h.occurs hv hk ▸ hoccurs)

theorem admits_eq (predicate : KindPredicate) (h : k.Twin ρ k') :
    admits predicate k = admits predicate k' := by
  cases h with
  | tuple hks => cases predicate <;> simp [hks.length_eq]
  | _ => cases predicate <;> rfl

theorem lookup_twins {components components' : List (Nat × Kind)}
    (h : Demands ρ components components') (i : Nat) :
    Option.Rel (Kind.Twin ρ) (components.lookup i) (components'.lookup i) := by
  induction h with
  | nil => exact .none
  | @cons d d' _ _ hd _ ih =>
    obtain ⟨hindex, hkind⟩ := hd
    rw [List.lookup_cons, List.lookup_cons, hindex]
    split
    · exact .some hkind
    · exact ih

theorem demandedPairs_twins {components components' : List (Nat × Kind)}
    (h : Demands ρ components components') (hk : k.Twin ρ k') :
    List.Forall₂ (Both (Kind.Twin ρ)) (demandedPairs components k)
      (demandedPairs components' k') := by
  cases hk with
  | @tuple ks ks' hks =>
    refine List.rel_filterMap ?_ h
    rintro ⟨i, demanded⟩ ⟨_, demanded'⟩ ⟨rfl, hdemanded⟩
    exact optionRel_map (optionRel_getElem? hks i) fun _ _ hactual => .intro hdemanded hactual
  | _ => exact .nil

theorem mergeComponents_twins {ls ls' : List (Nat × Kind)} (hls : Demands ρ ls ls')
    {rs rs' : List (Nat × Kind)} (hrs : Demands ρ rs rs') :
    Demands ρ (mergeComponents rs ls).1 (mergeComponents rs' ls').1 ∧
      List.Forall₂ (Both (Kind.Twin ρ)) (mergeComponents rs ls).2 (mergeComponents rs' ls').2 := by
  induction hls generalizing rs rs' with
  | nil => exact ⟨hrs, .nil⟩
  | @cons d d' _ _ hd _ ih =>
    obtain ⟨i, kind⟩ := d
    obtain ⟨i', kind'⟩ := d'
    obtain ⟨rfl, hkind⟩ : i = i' ∧ kind.Twin ρ kind' := hd
    have hexisting := lookup_twins hrs i
    simp only [mergeComponents]
    revert hexisting
    generalize rs.lookup i = existing, rs'.lookup i = existing'
    rintro (hexisting | _)
    · exact ⟨(ih hrs).1, .cons ⟨hkind, hexisting⟩ (ih hrs).2⟩
    · exact ih (List.rel_append hrs (.cons ⟨rfl, hkind⟩ .nil))

section Unify

variable {unify unify' : Kind → Kind → KindUnifyM Unit}
  (H : ∀ {a a' b b' : Kind}, a.Twin ρ a' → b.Twin ρ b' →
    unifying.Rel ρ (fun _ _ _ => True) (unify a b) (unify' a' b'))
include H

private theorem forM_lockstep {pairs pairs' : List (Kind × Kind)}
    (h : List.Forall₂ (Both (Kind.Twin ρ)) pairs pairs') :
    unifying.Rel ρ (fun _ _ _ => True) (pairs.forM fun pair => unify pair.1 pair.2)
      (pairs'.forM fun pair => unify' pair.1 pair.2) :=
  Lifting.forM h fun _ hle _ _ hpair => by
    subst hle
    exact H hpair.fst hpair.snd

theorem solve_lockstep (hv : ρ.kinds v w) (h : k.Twin ρ k') :
    unifying.Rel ρ (fun _ _ _ => True) (solve unify v k) (solve unify' w k') := by
  intro s t hst
  refine Lifting.exceptT_read ?_
  have hstate := hst.states hv
  have hunlinked := fun predicate components =>
    (@not_linked_iff s v).mpr ∘ fun h => ⟨predicate, components, h⟩
  revert hstate hunlinked
  generalize s.stateOf v = state, t.stateOf w = state'
  rintro (⟨predicate, hcomponents⟩ | _) hunlinked
  · refine Lifting.exceptT_read ?_
    simp only [← hst.occurs hv h, ← admits_eq _ h]
    split
    next => exact .some ⟨ρ, rfl, .error trivial, hst⟩
    next hoccurs =>
      split
      next =>
        exact forM_lockstep H (demandedPairs_twins hcomponents h) _ _
          (hst.put_link hv h (hunlinked _ _ rfl) (Bool.not_eq_true _ ▸ hoccurs))
      next => exact .some ⟨ρ, rfl, .error trivial, hst⟩
  · exact .some ⟨ρ, rfl, .ok trivial, hst⟩

theorem mergeVars_lockstep {left left' right right' : KindVar} (hleft : ρ.kinds left left')
    (hright : ρ.kinds right right') (hne : left ≠ right) :
    unifying.Rel ρ (fun _ _ _ => True) (mergeVars unify left right)
      (mergeVars unify' left' right') := by
  intro s t hst
  refine Lifting.exceptT_read (Lifting.exceptT_read ?_)
  have hl := hst.states hleft
  have hr := hst.states hright
  generalize hls : s.stateOf left = l, t.stateOf left' = l' at hl
  generalize hrs : s.stateOf right = r, t.stateOf right' = r' at hr
  cases hl with
  | link => exact .some ⟨ρ, rfl, .ok trivial, hst⟩
  | unbound leftPredicate hleftComponents =>
    cases hr with
    | link => exact .some ⟨ρ, rfl, .ok trivial, hst⟩
    | unbound rightPredicate hrightComponents =>
      simp only
      split
      next => exact .some ⟨ρ, rfl, .error trivial, hst⟩
      next predicate _ =>
        obtain ⟨hcomponents, hpairs⟩ := mergeComponents_twins hleftComponents hrightComponents
        have hleft' : ¬ s.Linked left := not_linked_iff.mpr ⟨_, _, hls⟩
        have hright' : ¬ s.Linked right := not_linked_iff.mpr ⟨_, _, hrs⟩
        exact forM_lockstep H hpairs _ _ ((hst.put_unbound hright hcomponents).put_link hleft
          (.mvar hright) (not_linked_put_unbound hleft')
          (occurs_of_ne hne (not_linked_put_unbound hright')))

end Unify

theorem unify_lockstep (fuel : Nat) {a a' b b' : Kind} (ha : a.Twin ρ a') (hb : b.Twin ρ b') :
    unifying.Rel ρ (fun _ _ _ => True) (unify fuel a b) (unify fuel a' b') := by
  induction fuel generalizing a a' b b' with
  | zero => exact fun _ _ _ => .none
  | succ fuel ih =>
    simp only [unify, ha.eq_iff hb]
    split
    next => exact unifying.pure trivial
    next =>
      refine Lifting.bind_still (Lifting.exceptT_lift (resolve_lockstep ha)) fun a a' ha => ?_
      refine Lifting.bind_still (Lifting.exceptT_lift (resolve_lockstep hb)) fun b b' hb => ?_
      simp only [ha.eq_iff hb, ha.eq_iff .error, hb.eq_iff .error]
      split
      next => exact unifying.pure trivial
      next hne =>
        cases ha with
        | mvar hv =>
          cases hb with
          | mvar hw =>
            refine mergeVars_lockstep ih hv hw fun heq => hne (.inl ?_)
            rw [ρ.kinds_unique.2 hv (heq ▸ hw)]
          | _ => exact solve_lockstep ih hv (by constructor <;> assumption)
        | arrow hd hc =>
          cases hb with
          | mvar hw => exact solve_lockstep ih hw (.arrow hd hc)
          | arrow hd' hc' => exact Lifting.bind_still (ih hd hd') fun _ _ _ => ih hc hc'
          | _ => exact Lifting.exceptT_throw trivial
        | record he =>
          cases hb with
          | mvar hw => exact solve_lockstep ih hw (.record he)
          | record he' => exact ih he he'
          | _ => exact Lifting.exceptT_throw trivial
        | tuple hks =>
          cases hb with
          | mvar hw => exact solve_lockstep ih hw (.tuple hks)
          | tuple hks' =>
            simp only [hks.length_eq, hks'.length_eq]
            split
            · exact forM_lockstep ih (forall₂_zip hks hks')
            · exact Lifting.exceptT_throw trivial
          | _ => exact Lifting.exceptT_throw trivial
        | poly x hk =>
          cases hb with
          | mvar hw => exact solve_lockstep ih hw (.poly x hk)
          | poly _ hk' => exact ih hk hk'
          | _ => exact Lifting.exceptT_throw trivial
        | type | unit | name | error | bvar =>
          cases hb with
          | mvar hw => exact solve_lockstep ih hw (by constructor)
          | _ => exact Lifting.exceptT_throw trivial

end KindStore

/-! ## Substitution and renaming -/

/-- The same progress of a renaming. -/
structure RenameState.Twin (ρ : Renumbering) (state state' : RenameState) : Prop where
  outcome : state.outcome = state'.outcome
  stuckOn : List.Forall₂ ρ.cells state.stuckOn state'.stuckOn

namespace Con

open KindStore (lockstep)

variable {ρ : Renumbering} {c c' a a' : Con}

/-! ## Substitution -/

private theorem kindPass_lockstep {onKind onKind' : Depth → Kind → KindM Kind}
    (hkind : ∀ d {k k' : Kind}, k.Twin ρ k' → lockstep.Rel ρ Kind.Twin (onKind d k) (onKind' d k'))
    (h : c.Twin ρ c') :
    lockstep.Rel ρ Con.Twin
      (c.rebuildM (fun _ node => pure (if node.has .kindBVar then none else some node)) onKind
        Depth.zero)
      (c'.rebuildM (fun _ node => pure (if node.has .kindBVar then none else some node)) onKind'
        Depth.zero) := by
  refine rebuildM_twins lockstep (fun d n n' hn => ?_) hkind h _
  rw [hn.has_eq]
  split
  · exact lockstep.pure .none
  · exact lockstep.pure (.some hn)

theorem liftKinds_lockstep (h : c.Twin ρ c') (amount : Nat) :
    lockstep.Rel ρ Con.Twin (c.liftKinds amount) (c'.liftKinds amount) := by
  unfold liftKinds
  split
  · exact lockstep.pure h
  · exact kindPass_lockstep (fun d _ _ hk => KindStore.lift_lockstep hk amount d.kind) h

theorem substKind_lockstep {k k' : Kind} (h : c.Twin ρ c') (hk : k.Twin ρ k') :
    lockstep.Rel ρ Con.Twin (c.substKind k) (c'.substKind k') :=
  kindPass_lockstep (fun d _ _ h => KindStore.subst_lockstep h hk d.kind) h

theorem weaken_lockstep (h : c.Twin ρ c') (d : Depth) :
    lockstep.Rel ρ Con.Twin (c.weaken d) (c'.weaken d) :=
  liftKinds_lockstep (h.lift d.con) d.kind

theorem subst_lockstep (h : c.Twin ρ c') (ha : a.Twin ρ a') :
    lockstep.Rel ρ Con.Twin (c.subst a) (c'.subst a') := by
  simp only [subst, h.bound_eq]
  split
  · exact lockstep.pure h
  refine rebuildM_twins lockstep (fun d n n' hn => ?_) (fun _ _ _ hk => lockstep.pure hk) h _
  simp only [hn.bound_eq]
  split
  · exact lockstep.pure (.some hn)
  cases hn with
  | bvar i =>
    simp only
    split
    · exact Lifting.map (weaken_lockstep ha d) fun _ _ _ h => .some h
    · exact lockstep.pure (.some (.bvar _))
  | _ => exact lockstep.pure .none

theorem instantiate_lockstep {spine spine' : List Con} (h : c.Twin ρ c')
    (hspine : List.Forall₂ (Con.Twin ρ) spine spine') :
    lockstep.Rel ρ Con.Twin (c.instantiate spine) (c'.instantiate spine') := by
  have hempty : spine.isEmpty = spine'.isEmpty := by cases hspine <;> rfl
  simp only [instantiate, h.bound_eq, hempty]
  split
  · exact lockstep.pure h
  refine rebuildM_twins lockstep (fun d n n' hn => ?_) (fun _ _ _ hk => lockstep.pure hk) h _
  simp only [hn.bound_eq]
  split
  · exact lockstep.pure (.some hn)
  cases hn with
  | bvar i =>
    simp only [hspine.length_eq]
    have hargument := optionRel_getElem? (List.rel_reverse hspine) (i - d.con)
    revert hargument
    generalize spine.reverse[i - d.con]? = argument, spine'.reverse[i - d.con]? = argument'
    rintro (hargument | _)
    · exact Lifting.map (weaken_lockstep hargument d) fun _ _ _ h => .some h
    · exact lockstep.pure (.some (.bvar _))
  | _ => exact lockstep.pure .none

/-! ## Renaming -/

/-- Renamings of twins. -/
abbrev renamings : Lifting Eq RenameM := .fuelled Eq RenameState.Twin

theorem renameAt_lockstep {i j : MetaId} (hi : ρ.cells i j) (vars : List Nat) (fuel : Nat)
    (foreign : Bool) (d : Depth) (h : c.Twin ρ c') :
    renamings.Rel ρ Con.Twin (c.renameAt i vars fuel foreign d)
      (c'.renameAt j vars fuel foreign d) := by
  induction fuel generalizing c c' foreign d with
  | zero => exact fun _ _ _ => .none
  | succ fuel ih =>
    refine rebuildM_twins renamings (fun d n n' hn => ?_) (fun _ _ _ hk => renamings.pure hk) h d
    refine Lifting.bind_still Lifting.fuelled_get fun state state' hstate => ?_
    have hsettled : state.isSettled = state'.isSettled := by
      simp only [RenameState.isSettled, hstate.outcome]
    simp only [hsettled, hn.bound_eq, hn.has_eq]
    split
    · exact renamings.pure (.some hn)
    split
    · exact renamings.pure (.some hn)
    cases hn with
    | bvar k =>
      simp only
      split
      · exact renamings.pure .none
      split
      · exact renamings.pure (.some (.bvar _))
      · exact Lifting.bind_still (Lifting.fuelled_set ⟨rfl, hstate.stuckOn⟩) fun _ _ _ =>
          renamings.pure (.some (.bvar k))
    | @mvar k k' _ _ hk harguments =>
      have heq : k = i ↔ k' = j := Relator.rel_eq ρ.cells_unique hk hi
      simp only [heq]
      split
      · exact Lifting.bind_still (Lifting.fuelled_set ⟨rfl, hstate.stuckOn⟩) fun _ _ _ =>
          renamings.pure (.some (.mvar hk harguments))
      · refine Lifting.bind_still (Lifting.mapM harguments (fun hle h => hle ▸ h)
          fun _ hle _ _ h => by
            subst hle; exact ih true d h) fun arguments arguments' harguments => ?_
        refine Lifting.bind_still Lifting.fuelled_get fun after after' hafter => ?_
        simp only [hafter.outcome, hstate.outcome,
          contains_eq_of_forall₂ ρ.cells_unique hafter.stuckOn hk]
        split
        · exact Lifting.bind_still
            (Lifting.fuelled_set ⟨rfl, List.rel_append hafter.stuckOn (.cons hk .nil)⟩)
            fun _ _ _ => renamings.pure (.some (.mvar hk harguments))
        · exact renamings.pure (.some (.mvar hk harguments))
    | _ => exact renamings.pure .none

theorem renameFor_lockstep {i j : MetaId} (hi : ρ.cells i j) (vars : List Nat) (fuel : Nat)
    (h : c.Twin ρ c') :
    Option.Rel (fun r q => r.1.Twin ρ q.1 ∧ r.2.Twin ρ q.2) (c.renameFor i vars fuel)
      (c'.renameFor j vars fuel) :=
  optionRel_imp (renameAt_lockstep hi vars fuel false Depth.zero h _ _ ⟨rfl, .nil⟩)
    fun _ _ ⟨_, hle, h⟩ => by
      subst hle
      exact h

end Con

end RowML
