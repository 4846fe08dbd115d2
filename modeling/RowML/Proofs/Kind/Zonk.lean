import RowML.Proofs.Kind.Ends
import RowML.Proofs.Kind.Rebuild

/-!
# Kinds that are spelled out

Zonking puts for every linked variable what it is linked to.  In an acyclic store only unbound
variables are left in the answer, and a kind without linked variables is zonked to itself.
-/

namespace RowML

namespace KindStore

variable {store store' : KindStore} {k : Kind}

/-- Every variable that is written in the kind is unbound. -/
def Spelled (store : KindStore) (k : Kind) : Prop := ∀ v ∈ k.mvars, ¬ store.Linked v

theorem Spelled.condenses (h : store.Spelled k) (condenses : store.Condenses store') :
    store'.Spelled k :=
  fun v hv hlinked => h v hv ((condenses.linked v).mp hlinked)

theorem Condenses.refl (store : KindStore) : store.Condenses store :=
  ⟨rfl, fun _ => Iff.rfl, fun h => h⟩

theorem Condenses.trans {store'' : KindStore} (h : store.Condenses store')
    (h' : store'.Condenses store'') : store.Condenses store'' :=
  ⟨h'.size.trans h.size, fun v => (h'.linked v).trans (h.linked v), fun hrank =>
    h'.ranks (h.ranks hrank)⟩

/-- The discipline of computations that learn nothing, in stores with a given rank. -/
private def condensing (rank : KindVar → Nat) : Discipline KindStore where
  Ok store := Ranks store.Mentions rank ∧ ∀ v, store.Linked v → 0 < rank v
  Grows := Condenses
  refl store _ := Condenses.refl store
  trans _ _ _ := Condenses.trans

private theorem Condenses.ok {rank : KindVar → Nat} (h : store.Condenses store')
    (ok : (condensing rank).Ok store) : (condensing rank).Ok store' :=
  ⟨h.ranks ok.1, fun v hv => ok.2 v ((h.linked v).mp hv)⟩

private theorem mvars_of_leaf (hmvar : ∀ v, k ≠ .mvar v) (hparts : k.parts = []) :
    k.mvars = [] := by
  refine List.eq_nil_iff_forall_not_mem.mpr fun v hv => ?_
  obtain ⟨p, hp, -⟩ := Kind.exists_part_of_mem_mvars hv (hmvar v)
  simp [hparts] at hp

private theorem rebuildWithin_spells {rank : KindVar → Nat} (n d : Nat) (k : Kind)
    (ok : (condensing rank).Ok store) (hk : ∀ v ∈ k.mvars, rank v ≤ n) :
    Yields (condensing rank) store
      (rebuildWithin (fun _ => false) (fun _ i => pure (.bvar i)) (n + 1) d k)
      fun k' store' => store'.Spelled k' := by
  induction n using Nat.strong_induction_on generalizing store k d with
  | h n ih =>
    suffices hpass : Kind.Pass (condensing rank) (fun _ k => ∀ v ∈ k.mvars, rank v ≤ n)
        (fun store _ _ k' => store.Spelled k') _ _ _ from hpass.rebuildM_yields k ok hk
    refine ⟨fun _ _ h => h, fun _ grows h => h.condenses grows, ?_, ?_, ?_, by simp, ?_, ?_, ?_,
      ?_, ?_⟩
    · intro _ k p h _ hp v hv
      exact h v (Kind.mem_mvars_of_part hp hv)
    · intro store d i ok _
      exact Yields.pure (m := KindM) ok (by simp [Spelled, Kind.mvars])
    · intro store d v ok hv
      have hv : rank v ≤ n := hv v (by simp [Kind.mvars])
      have condenses := Condenses.of_run (resolve_condensing (.mvar v)) store
      have hrun : exec (resolve (.mvar v)) store = some
          (some (store.follow store.vars.size (.mvar v)), ((resolve (.mvar v)).run store).2) :=
        congrArg (fun root => some (some root, ((resolve (.mvar v)).run store).2))
          (resolveWithin_run store.vars.size (.mvar v) store).1
      refine Yields.next hrun ok (condenses.ok ok) condenses ?_
      split
      next root hend =>
        have hended := ended_follow (Acyclic.leads ⟨rank, ok.1⟩) (.mvar v) (Nat.le_refl _)
        refine Yields.pure (m := KindM) (condenses.ok ok) fun w hw hlinked => ?_
        obtain rfl : w = root := by simpa [Kind.mvars] using hw
        exact hended w hend ((condenses.linked w).mp hlinked)
      next root hne =>
        have hbelow : ∀ w ∈ (store.follow store.vars.size (.mvar v)).mvars, rank w < rank v :=
          fun w hw => rank_root_lt ok.1 hne hw
        -- a variable with a solution is linked, so that there is fuel left for the solution
        have hpositive : 0 < rank v := ok.2 v <| by
          by_contra hv
          exact hne v (follow_eq_self (ended_mvar.mpr hv) _)
        obtain ⟨n, rfl⟩ := Nat.exists_eq_add_one_of_ne_zero
          (Nat.ne_zero_of_lt (Nat.lt_of_lt_of_le hpositive hv))
        exact ih n (Nat.lt_succ_self n) d _ (condenses.ok ok) fun w hw =>
          Nat.le_of_lt_succ (Nat.lt_of_lt_of_le (hbelow w hw) hv)
    · intro store d k _ _ hmvar hparts v hv
      simp [mvars_of_leaf hmvar hparts] at hv
    · intro store d a a' b b' ha hb v hv
      rcases List.mem_append.mp hv with h | h
      · exact ha v h
      · exact hb v h
    · intro store d a a' ha
      exact ha
    · intro store d ks ks' h v hv
      rw [Kind.mvars, Kind.mvarsList_eq, List.mem_flatMap] at hv
      obtain ⟨k', hk', hv⟩ := hv
      obtain ⟨i, hi, rfl⟩ := List.getElem_of_mem hk'
      exact (List.forall₂_iff_get.mp h).2 i ((List.forall₂_iff_get.mp h).1 ▸ hi) hi v hv
    · intro store d x body body' h
      exact h

/-- Only unbound variables are left in a kind that has been zonked. -/
theorem zonk_spells (acyclic : store.Acyclic) (k : Kind) :
    store.Condenses ((zonk k).run store).2 ∧
      ((zonk k).run store).2.Spelled ((zonk k).run store).1 := by
  obtain ⟨rank, hrank, hpositive, hle⟩ := acyclic.exists_bounded_rank
  have h := rebuildWithin_spells store.vars.size 0 k ⟨hrank, hpositive⟩ fun v _ => hle v
  obtain ⟨-, condenses, spelled⟩ := h _ _ rfl
  exact ⟨condenses, spelled _ rfl⟩

/-- In a kind that is spelled out, a pass treats the variables and does nothing else. -/
theorem Spelled.rebuild {keep : Kind → Bool} {f : Nat → Nat → Kind} (h : store.Spelled k)
    (hkeep : ∀ d k, keep k = true → k.mapVars f d = k) :
    (rebuild keep (fun d i => pure (f d i)) k).run store = (k.mapVars f 0, store) := by
  have hrebuild : Yields (.still KindStore) store
      (rebuildWithin keep (fun d i => pure (f d i)) (store.vars.size + 1) 0 k)
      fun k' _ => k' = k.mapVars f 0 := by
    suffices hpass : Kind.Pass (.still KindStore) (fun store k => store.Spelled k)
        (fun _ d k k' => k' = k.mapVars f d) _ _ _ from hpass.rebuildM_yields k trivial h
    refine ⟨?_, fun _ _ h => h, ?_, ?_, ?_, ?_, ?_, ?_, ?_, ?_, ?_⟩
    · rintro s _ k - rfl h
      exact h
    · exact fun h _ hp v hv => h v (Kind.mem_mvars_of_part hp hv)
    · exact fun _ _ => Yields.pure (m := KindM) trivial rfl
    · intro s d v _ hv
      have hrun : exec (resolve (.mvar v)) s = some (some (.mvar v), s) :=
        congrArg (fun r => some (some r.1, r.2)) (resolveWithin_unbound s.vars.size fun target ht =>
          hv v (by simp [Kind.mvars]) ⟨target, ht⟩)
      exact Yields.next hrun trivial trivial rfl (Yields.pure (m := KindM) trivial rfl)
    · exact fun _ _ h => (hkeep _ _ h).symm
    · intro s d k _ hbvar hmvar hparts
      cases k with
      | bvar i => exact absurd rfl (hbvar i)
      | tuple ks =>
        cases hparts
        rfl
      | arrow | record | poly => cases hparts
      | type | unit | name | error | mvar => rfl
    · rintro s d a _ b _ rfl rfl
      rfl
    · rintro s d a _ rfl
      rfl
    · intro s d ks ks' hks
      rw [Kind.mapVars, Kind.mapVarsList_eq, Kind.tuple.injEq, eq_comm]
      exact List.forall₂_eq_eq_eq ▸ List.forall₂_map_left_iff.mpr (hks.imp fun _ _ h => h.symm)
    · rintro s d x body _ rfl
      rfl
  obtain ⟨-, hstore, hk⟩ := hrebuild _ _ rfl
  exact Prod.ext (hk _ rfl) hstore

/-- A kind that is spelled out is zonked to itself. -/
theorem Spelled.zonk (h : store.Spelled k) : (zonk k).run store = (k, store) := by
  have hself : k.mapVars (fun _ i => .bvar i) 0 = k :=
    Kind.mapVars_eq_self (d := 0) (e := 0) (Kind.Vars.of_forall fun _ _ => rfl)
  exact (h.rebuild (by simp)).trans (by rw [hself])

/-- In a kind that is spelled out, a shift needs no store. -/
theorem Spelled.lift (h : store.Spelled k) (amount cutoff : Nat) :
    (lift k amount cutoff).run store = (k.shift amount cutoff, store) := by
  unfold KindStore.lift
  split
  next hzero =>
    rw [hzero, Kind.shift_zero]
    rfl
  next => exact h.rebuild fun d k hk => Kind.mapVars_of_hasBVar (by simpa using hk) d

end KindStore

end RowML
