import RowML.Kind.Unify
import RowML.Proofs.Kind.Conversion

/-!
# Unification of kinds is sound

If unification of two kinds succeeds, the kinds are convertible in the store that it leaves.
-/

namespace RowML

namespace KindStore

theorem grows_put_of_unbound {store : KindStore} {v : KindVar} {predicate : KindPredicate}
    {components : List (Nat × Kind)} (hlt : v < store.vars.size)
    (hv : store.stateOf v = .unbound predicate components) (state : KindVarState) :
    Grows store (store.put v state) := by
  have hold : ∀ {u target}, store.stateOf u = .link target →
      (store.put v state).stateOf u = .link target := by
    intro u target hu
    rw [stateOf_put hlt, if_neg, hu]
    rintro rfl
    rw [hv] at hu
    cases hu
  exact ⟨by simp, fun hclosed _ _ hu => hclosed (hold hu), fun hu => .link (hold hu)⟩

theorem WellFormed.put_unbound {store : KindStore} {v : KindVar} (ok : store.WellFormed)
    (hlt : v < store.vars.size) {predicate : KindPredicate} {components : List (Nat × Kind)}
    (hsound : ∀ component ∈ components, component.2.Sound store.vars.size) :
    (store.put v (.unbound predicate components)).WellFormed := by
  obtain ⟨rank, hrank⟩ := ok.acyclic
  refine ⟨fun {u target} hu => ?_, fun {u p cs} hu => ?_, rank, fun u w huw => ?_⟩
  · rw [stateOf_put hlt] at hu
    rw [size_put]
    split at hu
    · cases hu
    · exact ok.links hu
  · rw [stateOf_put hlt] at hu
    rw [size_put]
    split at hu
    · cases hu
      exact hsound
    · exact ok.demands hu
  · rw [Leads, stateOf_put hlt] at huw
    split at huw
    · cases huw
    · exact hrank u w huw

/-- Linking a variable to a kind that is not itself linked. -/
theorem WellFormed.put_link {store : KindStore} {v : KindVar} (ok : store.WellFormed)
    (hlt : v < store.vars.size) {target : Kind} (hsound : target.Sound store.vars.size)
    (hend : ∀ w, target = .mvar w → w ≠ v ∧ ∀ t, store.stateOf w ≠ .link t) :
    (store.put v (.link target)).WellFormed := by
  obtain ⟨rank, hrank⟩ := ok.acyclic
  refine ⟨fun {u t} hu => ?_, fun {u p cs} hu => ?_,
    fun u => if target = .mvar u then 0 else rank u + 1, fun u w huw => ?_⟩
  · rw [stateOf_put hlt] at hu
    rw [size_put]
    split at hu
    · cases hu
      exact hsound
    · exact ok.links hu
  · rw [stateOf_put hlt] at hu
    rw [size_put]
    split at hu
    · cases hu
    · exact ok.demands hu
  · have hu : target ≠ .mvar u := by
      rintro rfl
      rw [Leads, stateOf_put hlt, if_neg (hend u rfl).1] at huw
      exact (hend u rfl).2 _ huw
    simp only [if_neg hu]
    rw [Leads, stateOf_put hlt] at huw
    split at huw
    · cases huw
      simp
    · have := hrank u w huw
      split <;> omega

/-- What merged demands and their equations are about comes from the demands. -/
theorem mergeComponents_forall {P : Kind → Prop} {left right merged : List (Nat × Kind)}
    {pairs : List (Kind × Kind)} (hright : ∀ component ∈ right, P component.2)
    (hleft : ∀ component ∈ left, P component.2)
    (h : mergeComponents right left = (merged, pairs)) :
    (∀ component ∈ merged, P component.2) ∧ ∀ pair ∈ pairs, P pair.1 ∧ P pair.2 := by
  induction left generalizing right merged pairs with
  | nil =>
    cases h
    exact ⟨hright, by simp⟩
  | cons component left ih =>
    obtain ⟨i, kind⟩ := component
    have hkind := hleft (i, kind) (by simp)
    have hleft := fun component h => hleft component (List.mem_cons_of_mem _ h)
    simp only [mergeComponents] at h
    split at h
    next existing hlookup =>
      cases h
      obtain ⟨hmerged, hpairs⟩ := ih hright hleft rfl
      obtain ⟨before, after, rfl, -⟩ := List.lookup_eq_some_iff.mp hlookup
      exact ⟨hmerged, List.forall_mem_cons.mpr ⟨⟨hkind, hright (i, existing) (by simp)⟩, hpairs⟩⟩
    next =>
      refine ih (fun component hcomponent => ?_) hleft h
      rcases List.mem_append.mp hcomponent with hmem | hmem
      · exact hright component hmem
      · cases List.mem_singleton.mp hmem
        exact hkind

/-! ## The steps of unification -/

section Steps

variable {unify : Kind → Kind → KindUnifyM Unit}

/-- Unification of smaller kinds, as the steps use it. -/
def Unifies (unify : Kind → Kind → KindUnifyM Unit) : Prop :=
  ∀ {a b store}, WellFormed store → a.Sound store.vars.size → b.Sound store.vars.size →
    Yields discipline store (unify a b) fun _ store' => KindConv store' a b

private theorem forM_yields (H : Unifies unify) {pairs : List (Kind × Kind)} {store : KindStore}
    (ok : store.WellFormed)
    (hpairs : ∀ pair ∈ pairs, pair.1.Sound store.vars.size ∧ pair.2.Sound store.vars.size) :
    Yields discipline store (pairs.forM fun (a, b) => unify a b) fun _ store' =>
      ∀ pair ∈ pairs, KindConv store' pair.1 pair.2 := by
  refine Yields.forM ok (fun _ grows h => grows.conv h) fun pair hpair store' ok' grows => ?_
  obtain ⟨ha, hb⟩ := hpairs pair hpair
  exact H ok' (ha.mono grows.size) (hb.mono grows.size)

theorem demandedPairs_forall {P : Kind → Prop} {components : List (Nat × Kind)} {target : Kind}
    (hcomponents : ∀ component ∈ components, P component.2) (htarget : ∀ p ∈ target.parts, P p) :
    ∀ pair ∈ demandedPairs components target, P pair.1 ∧ P pair.2 := by
  unfold demandedPairs
  split
  next ks =>
    intro pair hpair
    obtain ⟨⟨i, demanded⟩, hmem, hi⟩ := List.mem_filterMap.mp hpair
    obtain ⟨actual, hactual, rfl⟩ := Option.map_eq_some_iff.mp hi
    exact ⟨hcomponents _ hmem, htarget _ (List.mem_of_getElem? hactual)⟩
  next => simp

theorem solve_yields (H : Unifies unify) {v : KindVar} {target : Kind} {store : KindStore}
    (ok : store.WellFormed) (hlt : v < store.vars.size) (hsound : target.Sound store.vars.size)
    (htarget : ∀ w, target ≠ .mvar w)
    (hv : ∃ predicate components, store.stateOf v = .unbound predicate components) :
    Yields discipline store (solve unify v target) fun _ store' =>
      KindConv store' (.mvar v) target := by
  obtain ⟨predicate, components, hv⟩ := hv
  refine Yields.read (rfl : exec get store = some (some store, store)) ok ?_
  simp only [hv]
  refine Yields.read (rfl : exec get store = some (some store, store)) ok ?_
  split
  · exact Yields.of_failure ok rfl
  split
  · have ok' := ok.put_link hlt hsound fun w hw => absurd hw (htarget w)
    have hlink : (store.put v (.link target)).stateOf v = .link target := by
      simp [stateOf_put hlt]
    refine Yields.next (rfl : exec _ store = some (some (), store.put v (.link target))) ok ok'
      (grows_put_of_unbound hlt hv _) ?_
    have hpairs := demandedPairs_forall (ok.demands hv) fun _ hp => hsound.part hp
    refine (forM_yields H ok' (by simpa using hpairs)).mono fun _ store' _ grows _ => ?_
    exact grows.conv (.link hlink)
  · exact Yields.of_failure ok rfl

theorem mergeVars_yields (H : Unifies unify) {left right : KindVar} {store : KindStore}
    (ok : store.WellFormed) (hleft : left < store.vars.size) (hright : right < store.vars.size)
    (hne : left ≠ right)
    (hl : ∃ predicate components, store.stateOf left = .unbound predicate components)
    (hr : ∃ predicate components, store.stateOf right = .unbound predicate components) :
    Yields discipline store (mergeVars unify left right) fun _ store' =>
      KindConv store' (.mvar left) (.mvar right) := by
  obtain ⟨leftPredicate, leftComponents, hl⟩ := hl
  obtain ⟨rightPredicate, rightComponents, hr⟩ := hr
  refine Yields.read (rfl : exec get store = some (some store, store)) ok ?_
  refine Yields.read (rfl : exec get store = some (some store, store)) ok ?_
  simp only [hl, hr]
  split
  · exact Yields.of_failure ok rfl
  next predicate _ =>
    rcases hmerge : mergeComponents rightComponents leftComponents with ⟨merged, pairs⟩
    obtain ⟨hmerged, hpairs⟩ := mergeComponents_forall (ok.demands hr) (ok.demands hl) hmerge
    simp only
    let store₁ := store.put right (.unbound predicate merged)
    have ok₁ : store₁.WellFormed := ok.put_unbound hright hmerged
    have hl₁ : store₁.stateOf left = .unbound leftPredicate leftComponents := by
      rw [stateOf_put hright, if_neg hne, hl]
    have hr₁ : store₁.stateOf right = .unbound predicate merged := by
      simp [store₁, stateOf_put hright]
    have hleft₁ : left < store₁.vars.size := by simpa [store₁] using hleft
    let store₂ := store₁.put left (.link (.mvar right))
    have hsound : (Kind.mvar right).Sound store₁.vars.size :=
      .intro ⟨by simp, fun v hv => by cases hv; simpa [store₁] using hright⟩ (by simp [Kind.parts])
    have ok₂ : store₂.WellFormed := by
      refine ok₁.put_link hleft₁ hsound fun w hw => ?_
      cases hw
      exact ⟨hne.symm, by simp [hr₁]⟩
    have hlink : store₂.stateOf left = .link (.mvar right) := by simp [store₂, stateOf_put hleft₁]
    refine Yields.next (rfl : exec _ store = some (some (), store₁)) ok ok₁
      (grows_put_of_unbound hright hr _) ?_
    refine Yields.next (rfl : exec _ store₁ = some (some (), store₂)) ok₁ ok₂
      (grows_put_of_unbound hleft₁ hl₁ _) ?_
    refine (forM_yields H ok₂ (by simpa [store₁, store₂] using hpairs)).mono
      fun _ store' _ grows _ => ?_
    exact grows.conv (.link hlink)

end Steps

theorem unify_yields (fuel : Nat) : Unifies (unify fuel) := by
  induction fuel with
  | zero => exact fun _ _ _ => Yields.of_none rfl
  | succ fuel ih =>
    intro expected found store ok hexpected hfound
    simp only [unify]
    split
    next h => exact Yields.pure ok (h ▸ .refl _)
    next =>
    refine Yields.bind ok (.of_exec_eq rfl (resolve_yields ok hexpected)) ?_
    intro a store₁ ok₁ grows₁ ha
    refine Yields.bind ok₁ (.of_exec_eq rfl (resolve_yields ok₁ (hfound.mono grows₁.size))) ?_
    intro b store₂ ok₂ grows₂ hb
    have ha' : a.Sound store₂.vars.size := ha.sound.mono grows₂.size
    have hb' := hb.sound
    -- it remains to make the two roots convertible
    suffices h : Yields discipline store₂ _ fun _ store₃ => KindConv store₃ a b by
      refine h.mono fun _ store₃ _ grows₃ hab => ?_
      exact (grows₃.conv (grows₂.conv ha.conv)).trans (hab.trans (grows₃.conv hb.conv).symm)
    have hunbound : ∀ v, a = .mvar v →
        ∃ predicate components, store₂.stateOf v = .unbound predicate components := by
      intro v hv
      obtain ⟨predicate, components, h⟩ := ha.unlinked hv
      exact ⟨predicate, components, hb.unbound.mpr h⟩
    split
    next h =>
      rcases h with h | h | h
      · exact Yields.pure ok₂ (h ▸ .refl _)
      · exact absurd h ha'.ne_error
      · exact absurd h hb'.ne_error
    next h =>
      split
      next left right =>
        refine mergeVars_yields ih ok₂ ha'.lt hb'.lt ?_ (hunbound left rfl) (hb.unlinked rfl)
        rintro rfl
        exact h (.inl rfl)
      next target hne =>
        exact solve_yields ih ok₂ ha'.lt hb' (fun w hw => hne w hw) (hunbound _ rfl)
      next target var hne =>
        refine (solve_yields ih ok₂ hb'.lt ha' (fun w hw => hne w hw) (hb.unlinked rfl)).mono ?_
        exact fun _ _ _ _ hconv => hconv.symm
      next d c d' c' =>
        have hd := ih (a := d) (b := d') ok₂ (ha'.part (by simp [Kind.parts]))
          (hb'.part (by simp [Kind.parts]))
        refine Yields.bind ok₂ hd fun _ store₃ ok₃ grows₃ hd => ?_
        have hc := ih (a := c) (b := c') ok₃ ((ha'.mono grows₃.size).part (by simp [Kind.parts]))
          ((hb'.mono grows₃.size).part (by simp [Kind.parts]))
        exact hc.mono fun _ _ _ grows hc => .arrow (grows.conv hd) hc
      next e e' =>
        have he := ih (a := e) (b := e') ok₂ (ha'.part (by simp [Kind.parts]))
          (hb'.part (by simp [Kind.parts]))
        exact he.mono fun _ _ _ _ he => .record he
      next ks ks' =>
        split
        next hlength =>
          refine (forM_yields ih ok₂ fun pair hpair => ?_).mono fun _ store₃ _ _ hpairs => ?_
          · have hmem := List.of_mem_zip (a := pair.1) (b := pair.2) hpair
            exact ⟨ha'.part hmem.1, hb'.part hmem.2⟩
          · refine .tuple hlength fun i k k' hk hk' => hpairs (k, k') ?_
            refine List.mem_of_getElem? (i := i) ?_
            simp [List.getElem?_zip_eq_some, hk, hk']
        next => exact Yields.of_failure ok₂ rfl
      next body _ body' =>
        have hbody := ih (a := body) (b := body') ok₂ (ha'.part (by simp [Kind.parts]))
          (hb'.part (by simp [Kind.parts]))
        exact hbody.mono fun _ _ _ _ h => .poly h
      next => exact Yields.of_failure ok₂ rfl

end KindStore

end RowML
