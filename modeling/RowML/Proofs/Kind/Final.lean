import RowML.Proofs.Kind.Commutation
import RowML.Proofs.Kind.Defaults
import RowML.Proofs.Kind.Expansion

/-!
# Final forms of kinds

Defaulting leaves nothing unknown in a kind, and its answer can be read off the store that it
leaves: it is the kind as this store spells it.  Later stores spell the kind in the same way, as
long as they only shorten chains and give more defaults.  A variable that a store does not have
counts as unknown and gets the default for that, which no store records.
-/

namespace RowML

namespace KindStore

variable {store store' : KindStore} {k k' : Kind} {v : KindVar} {θ : KindVar → Kind}

/-- A kind as the store spells it, where all that is left unknown is `Type`. -/
def final (store : KindStore) (k : Kind) : Kind := (store.expand k).assign fun _ => .type

/-- Nothing unknown is left in a final form. -/
theorem mvars_final (store : KindStore) (k : Kind) : (store.final k).mvars = [] := by
  refine List.eq_nil_iff_forall_not_mem.mpr fun v hv => ?_
  obtain ⟨_, _, hv⟩ := Kind.mem_mvars_assign.mp hv
  cases hv

/-- The second kind is the first one, left alone or in its final form. -/
def Keeps (store : KindStore) (k k' : Kind) : Prop := k' = k ∨ k' = store.final k

/-- The assignment gives what the links say, and the default for variables that the store does not
have. -/
structure Completes (store : KindStore) (θ : KindVar → Kind) : Prop where
  respects : store.Respects (Kind.assign θ)
  missing : ∀ {v}, store.vars.size ≤ v → θ v = .type

/-- The second store has the same variables and knows all that the first one does. -/
structure Learns (store store' : KindStore) : Prop where
  size : store'.vars.size = store.vars.size
  completes : ∀ {θ}, store'.Completes θ → store.Completes θ

namespace Learns

theorem refl (store : KindStore) : store.Learns store := ⟨rfl, fun h => h⟩

theorem trans {store'' : KindStore} (h : store.Learns store') (h' : store'.Learns store'') :
    store.Learns store'' :=
  ⟨h'.size.trans h.size, fun hθ => h.completes (h'.completes hθ)⟩

theorem of_respects (hsize : store'.vars.size = store.vars.size)
    (h : ∀ {θ}, store'.Respects (Kind.assign θ) → store.Respects (Kind.assign θ)) :
    store.Learns store' :=
  ⟨hsize, fun hθ => ⟨h hθ.respects, fun hv => hθ.missing (hsize.symm ▸ hv)⟩⟩

end Learns

namespace Acyclic

/-- What respects the links gives what they are spelled like. -/
theorem respects_iff (acyclic : store.Acyclic) :
    store.Respects (Kind.assign θ) ↔ ∀ v, (store.spelled v).assign θ = θ v := by
  refine ⟨fun hθ v => ?_, fun hθ v target hv => ?_⟩
  · induction v using acyclic.induction with
    | step v ih =>
      by_cases hv : store.Linked v
      · obtain ⟨target, hv⟩ := hv
        rw [acyclic.spelled_link hv, Kind.assign_assign,
          Kind.assign_congr fun w hw => ih w ⟨target, hv, hw⟩]
        exact (hθ hv).symm
      · rw [spelled_of_not_linked hv, Kind.assign_mvar]
  · rw [Kind.assign_mvar, ← hθ v, acyclic.spelled_link hv, Kind.assign_assign]
    exact Kind.assign_congr fun w _ => hθ w

theorem completes_final (acyclic : store.Acyclic) :
    store.Completes fun v => store.final (.mvar v) where
  respects := by
    refine acyclic.respects_iff.mpr fun v => ?_
    change (store.spelled v).assign (fun w => (store.spelled w).assign fun _ => .type) = _
    rw [← Kind.assign_assign, ← expand_eq_assign, spelled, acyclic.expand_expand]
    rfl
  missing := by
    intro v hv
    change (store.spelled v).assign (fun _ => .type) = _
    rw [spelled_of_not_linked (not_linked_iff.mpr ⟨_, _, stateOf_of_le hv⟩), Kind.assign_mvar]

end Acyclic

theorem final_eq_assign (store : KindStore) (k : Kind) :
    store.final k = k.assign fun v => store.final (.mvar v) := by
  rw [final, expand_eq_assign, Kind.assign_assign]
  rfl

/-- What an earlier store spells out has the same final form. -/
theorem Acyclic.final_expand (acyclic : store.Acyclic) (learns : store.Learns store')
    (acyclic' : store'.Acyclic) (k : Kind) : store'.final (store.expand k) = store'.final k := by
  have hspelled := acyclic.respects_iff.mp (learns.completes acyclic'.completes_final).respects
  rw [final_eq_assign, expand_eq_assign, Kind.assign_assign, final_eq_assign store' k]
  exact Kind.assign_congr fun v _ => hspelled v

/-! ## Zonking -/

/-- Stores with the same chains know the same. -/
theorem SameChains.learns (h : store.SameChains store') : store.Learns store' := by
  refine .of_respects h.size fun hθ => h.acyclic.1.respects_iff.mpr fun v => ?_
  rw [← h.spelled]
  exact h.acyclic.2.respects_iff.mp hθ v

/-! ## Defaulting -/

/-- The discipline of learning from defaults. -/
private def learning : Discipline KindStore where
  Ok store := ∃ rank, Ranks store.Leads rank
  Grows := Learns
  refl store _ := .refl store
  trans _ _ _ := .trans

/-- The output is what every assignment that completes the store makes of the input. -/
private def Completed (store : KindStore) (_depth : Nat) (k k' : Kind) : Prop :=
  ∀ θ, store.Completes θ → k' = k.assign θ

private theorem default_learns {predicate : KindPredicate} {components : List (Nat × Kind)}
    (hv : store.stateOf v = .unbound predicate components) :
    store.Learns (store.put v (.link (defaultFor predicate components))) := by
  refine .of_respects (size_put _ _ _) fun hθ u target hu => hθ ?_
  by_cases hlt : v < store.vars.size
  · rw [stateOf_put hlt, if_neg, hu]
    rintro rfl
    rw [hv] at hu
    cases hu
  · rw [stateOf_put_of_le (Nat.le_of_not_lt hlt), hu]

/-- A variable stands for its default. -/
private theorem assign_default {predicate : KindPredicate} {components : List (Nat × Kind)}
    (hv : store.stateOf v = .unbound predicate components)
    (hθ : (store.put v (.link (defaultFor predicate components))).Completes θ) :
    (defaultFor predicate components).assign θ = θ v := by
  by_cases hlt : v < store.vars.size
  · refine (hθ.respects ?_).symm
    rw [stateOf_put hlt, if_pos rfl]
  · have hle := Nat.le_of_not_lt hlt
    rw [stateOf_of_le hle] at hv
    cases hv
    exact (hθ.missing (by rwa [size_put])).symm

private theorem defaultVar_completed {fuel : Nat}
    (ih : ∀ {k store}, learning.Ok store →
      Yields learning store (defaultUnsolved fuel k) fun k' store' => Completed store' 0 k k')
    (ok : learning.Ok store) (d : Nat) :
    Yields learning store (do defaultRoot fuel (← (resolve (.mvar v) : Fuelled KindStore Kind)))
      fun k' store' => Completed store' d (.mvar v) k' := by
  obtain ⟨hroot, hshort, hcases⟩ := ending ok v
  have hsize : ((resolve (.mvar v)).run store).2.vars.size = store.vars.size :=
    (Condenses.of_run (resolve_condensing (.mvar v)) store).size
  have ok' : learning.Ok ((resolve (.mvar v)).run store).2 := ok.imp fun _ => hshort.leads
  have hlearns : store.Learns ((resolve (.mvar v)).run store).2 :=
    .of_respects hsize fun h => (hshort.respects ok).mp h
  refine Yields.next (rfl : exec _ store = some (some ((resolve (.mvar v)).run store).1,
    ((resolve (.mvar v)).run store).2)) ok ok' hlearns ?_
  generalize ((resolve (.mvar v)).run store).1 = root at *
  generalize ((resolve (.mvar v)).run store).2 = store₁ at *
  have hend : ∀ {θ : KindVar → Kind}, store₁.Completes θ → root.assign θ = (Kind.mvar v).assign θ :=
    fun hθ => hroot ▸ (hlearns.completes hθ).respects.follow (.mvar v) store.vars.size
  rcases hcases with ⟨r, predicate, components, rfl, hstate⟩ | hne
  · have hput := default_learns hstate
    have hrun : exec (defaultRoot fuel (.mvar r)) store₁ = _ :=
      congrArg (Option.map _) (defaultRoot_unbound hstate fuel)
    intro result store' hexec
    obtain ⟨ok'', hlearns', hcompleted⟩ :=
      ih (leads_put ok' r) result store' (hrun.symm.trans hexec)
    refine ⟨ok'', hput.trans hlearns', fun k' hk' θ hθ => ?_⟩
    have hθ' := hlearns'.completes hθ
    rw [hcompleted k' hk' θ hθ, assign_default hstate hθ']
    exact hend (hput.completes hθ')
  · rw [defaultRoot_solved hne]
    refine (ih ok').mono fun k' store' _ hlearns' hcompleted θ hθ => ?_
    exact (hcompleted θ hθ).trans (hend (hlearns'.completes hθ))

private theorem completed_tuple {d : Nat} {ks ks' : List Kind}
    (h : List.Forall₂ (Completed store d) ks ks') : Completed store d (.tuple ks) (.tuple ks') := by
  intro θ hθ
  rw [Kind.assign_tuple]
  refine congrArg Kind.tuple ?_
  induction h with
  | nil => rfl
  | cons hk _ ih => rw [List.map_cons, hk θ hθ, ih]

private theorem defaultUnsolved_completed (fuel : Nat) (ok : learning.Ok store) :
    Yields learning store (defaultUnsolved fuel k) fun k' store' => Completed store' 0 k k' := by
  induction fuel generalizing store k with
  | zero => exact Yields.of_none rfl
  | succ fuel ih =>
    have pass : Kind.Pass learning (fun _ _ => True) Completed (fun _ => false)
        (fun _ i => pure (.bvar i)) _ :=
      { pre_grows := fun _ _ _ => trivial
        post_grows := fun _ learns h θ hθ => h θ (learns.completes hθ)
        pre_part := fun _ _ _ => trivial
        bvar_yields := fun ok _ => Yields.pure ok fun _ _ => rfl
        mvar_yields := fun ok _ => defaultVar_completed ih ok _
        kept := fun _ _ h => by cases h
        leaf := fun {_ _ k} _ _ hvar hparts θ _ => by
          cases k with
          | mvar v => exact absurd rfl (hvar v)
          | tuple ks =>
            cases hparts
            rfl
          | arrow | record | poly => cases hparts
          | type | unit | name | error | bvar => rfl
        arrow := fun ha hb θ hθ => by
          rw [ha θ hθ, hb θ hθ]
          rfl
        record := fun ha θ hθ => by
          rw [ha θ hθ]
          rfl
        tuple := completed_tuple
        poly := fun hbody θ hθ => by
          rw [hbody θ hθ]
          rfl }
    exact pass.rebuildM_yields k ok trivial

/-- Defaulting gives the final form of a kind, as all later stores have it. -/
theorem Acyclic.defaultUnsolved_final (acyclic : store.Acyclic) {fuel : Nat}
    (h : defaultUnsolved fuel k store = some (k', store')) :
    store.Learns store' ∧
      ∀ {later : KindStore}, store'.Learns later → later.Acyclic → k' = later.final k := by
  obtain ⟨-, learns, hcompleted⟩ := defaultUnsolved_completed fuel acyclic.leads _ _
    (RowML.exec_of_run h)
  refine ⟨learns, fun learns' acyclic' => ?_⟩
  rw [final_eq_assign]
  exact hcompleted k' rfl _ (learns'.completes acyclic'.completes_final)

end KindStore

end RowML
