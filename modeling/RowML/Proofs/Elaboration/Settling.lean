import RowML.Proofs.Elaboration.Placement

/-!
# Settling what is left of a group

Forcing leaves obligations that no solution has decided.  Those for a dictionary that become
parameters are lifted: each use knows its slot, the place of the parameter and the number of term
variables around it, and no slot is lifted twice.  In the end the slots of lifted uses hold the
parameters that they refer to.
-/

namespace RowML

namespace Session

/-- There are at least as many slots. -/
def KeepsSlots (s s' : Session) : Prop := s.queue.slots.size ≤ s'.queue.slots.size

instance : AllowsForcing KeepsSlots where
  refl _ := le_rfl
  trans _ _ _ := le_trans
  of_solving {s s'} h := by
    cases h.step with
    | compute | push => exact le_rfl
    | wake => exact (congrArg Array.size (Queue.slots_wake _)).ge
    | pop => exact (congrArg Array.size Queue.slots_pop).ge
    | drain => exact (congrArg Array.size Queue.slots_drain).ge
    | newSlot goal => exact (Queue.size_slots_newSlot goal).ge.trans' (Nat.le_succ _)
    | fillSlot slot dict => exact (Queue.size_slots_fillSlot slot dict).ge
    | elsewhere _ hqueue => exact (congrArg (·.slots.size) hqueue).ge

end Session

namespace Elaborate

open Session (Holds Drops Calm Balanced KeepsSlots)

variable {config : Config} {fuel : Nat} {s s' : Session} {depths : List Nat}
  {held : List Obligation}

/-! ## Forcing -/

/-- The queue is emptied, and what was in it is held by whoever goes on. -/
theorem drainQueue_holds (holds : s.Holds depths held) :
    Session.Holds depths (s.queue.drain.1.map (·.1) ++ held)
      { s with queue := s.queue.drain.2 } := by
  refine holds.of_queue (congrArg Array.size Queue.slots_drain) ?_
  have hempty : s.queue.drain.2.outstanding = [] :=
    congrArg (List.map _) (Queue.waiting_drain s.queue)
  change List.Perm _ (_ ++ s.queue.drain.2.outstanding)
  rw [Queue.outstanding_drain, hempty, List.append_nil]
  exact List.perm_append_comm

theorem drainQueue_bind {α : Type} {f : List (Obligation × List MetaId) → ElaborateM α}
    (h : ∀ pending, Within (Drops (pending.map (·.1))) (f pending)) :
    Within Calm (drainQueue >>= f) := by
  rintro s s' ⟨config, r, heffect⟩
  have hrun : (drainQueue.run config).run s = some (.ok s.queue.drain.1,
    { s with queue := s.queue.drain.2 }) := rfl
  rw [run_bind_of_ok hrun] at heffect
  have tried := h _ _ _ ⟨config, r, heffect⟩
  have balanced : s.Balanced { s with queue := s.queue.drain.2 } := .of_scope rfl rfl
  exact ⟨trans_of Balanced balanced tried.toBalanced,
    fun holds => tried.holds (drainQueue_holds holds)⟩

/-- Each of the obligations is tried. -/
theorem discharges_drop (fuel : Nat) (pending : List (Obligation × List MetaId)) :
    Within (Drops (pending.map (·.1))) (pending.mapM fun entry => discharge fuel entry.1) := by
  induction pending with
  | nil => exact .pure (R := Calm) _
  | cons entry pending ih =>
    rw [List.mapM_cons, List.map_cons, ← List.singleton_append]
    exact drops_bind (discharge_drops fuel entry.1) fun _ => drops_bind_calm ih fun _ => .pure _

theorem forceRounds_calm (fuel rounds : Nat) : Within Calm (forceRounds fuel rounds) := by
  induction rounds with
  | zero => exact .pure _
  | succ rounds ih =>
    refine .bind (runReady_calm fuel) fun _ => drainQueue_bind fun pending => ?_
    split
    · exact (Within.pure (R := Calm) _).mono (.of_calm · _)
    · refine drops_bind_calm (discharges_drop fuel pending) fun decided => ?_
      refine .bind wakeSolved_calm fun solved => ?_
      split
      · exact ih
      · exact .pure _

/-- What is left when all has been tried agrees with every record. -/
theorem force_holds {residue : List (Obligation × List MetaId)} (holds : s.Holds depths [])
    (h : ((force fuel).run config).run s = some (.ok residue, s')) :
    s'.Holds depths (residue.map (·.1)) := by
  obtain ⟨_, _, hconfig, h⟩ := run_bind_ok h
  cases hconfig
  obtain ⟨_, s₁, hrounds, h⟩ := run_bind_ok h
  obtain ⟨_, s₂, hready, hdrain⟩ := run_bind_ok h
  cases hdrain
  have calm : s.Calm s₂ := trans_of Calm (forceRounds_calm fuel _ _ _ ⟨config, _, hrounds⟩)
    (runReady_calm fuel _ _ ⟨config, _, hready⟩)
  rw [← List.append_nil (List.map _ _)]
  exact drainQueue_holds (calm.holds holds)

/-! ## Runs with a further state -/

section Runs

variable {τ α β : Type} {t t' : τ}

theorem run_state_bind_ok {x : StateT τ ElaborateM α} {f : α → StateT τ ElaborateM β} {b : β}
    (h : (((x >>= f).run t).run config).run s = some (.ok (b, t'), s')) :
    ∃ a t₁ s₁, ((x.run t).run config).run s = some (.ok (a, t₁), s₁) ∧
      (((f a).run t₁).run config).run s₁ = some (.ok (b, t'), s') := by
  obtain ⟨⟨a, t₁⟩, s₁, hx, hf⟩ := run_bind_ok h
  exact ⟨a, t₁, s₁, hx, hf⟩

/-- What happens below leaves the further state alone. -/
theorem run_lift_ok {x : ElaborateM α} {a : α}
    (h : (((liftM x : StateT τ ElaborateM α).run t).run config).run s = some (.ok (a, t'), s')) :
    t = t' ∧ (x.run config).run s = some (.ok a, s') := by
  obtain ⟨b, s₁, hx, hpure⟩ := run_bind_ok h
  cases hpure
  exact ⟨rfl, hx⟩

end Runs

/-! ## Settling -/

/-- Settling the obligations has led from one state of what is gathered to another one.  Parameters
are only added; the new uses are some of the obligations, in this order, and each of them has its
place among the parameters. -/
structure Lifts (obligations : List Obligation) (before after : Generalization × List LiftedUse) :
    Prop where
  skolems : after.1.skolems = before.1.skolems
  dicts : before.1.dicts <+: after.1.dicts
  lifted : ∃ new, after.2 = before.2 ++ new ∧
    (new.map fun use => (use.slot, use.valDepth)).Sublist (uses obligations) ∧
    ∀ use ∈ new, use.position < after.1.dicts.length

namespace Lifts

variable {obligations obligations' : List Obligation}
  {before after after' : Generalization × List LiftedUse}

/-- Nothing is lifted. -/
theorem of_eq (hskolems : after.1.skolems = before.1.skolems)
    (hdicts : after.1.dicts = before.1.dicts) (hlifted : after.2 = before.2) :
    Lifts obligations before after :=
  ⟨hskolems, hdicts ▸ List.prefix_rfl, [], by simpa using hlifted, List.nil_sublist _, by simp⟩

theorem trans (h : Lifts obligations before after) (h' : Lifts obligations' after after') :
    Lifts (obligations ++ obligations') before after' := by
  obtain ⟨new, hnew, hsub, hposition⟩ := h.lifted
  obtain ⟨new', hnew', hsub', hposition'⟩ := h'.lifted
  refine ⟨h'.skolems.trans h.skolems, h.dicts.trans h'.dicts, new ++ new',
    by rw [hnew', hnew, List.append_assoc], ?_, ?_⟩
  · rw [List.map_append, uses_append]
    exact hsub.append hsub'
  · rw [List.forall_mem_append]
    exact ⟨fun use huse => (hposition use huse).trans_le h'.dicts.length_le, hposition'⟩

end Lifts

variable {before after : Generalization × List LiftedUse}

theorem settleDisjoint_lifts {left right : Con} {facts : List Fact} {depth : Nat} {span : Span}
    {obligations : List Obligation}
    (h : (((settleDisjoint fuel left right facts depth span).run before).run config).run s =
      some (.ok ((), after), s')) : Lifts obligations before after := by
  obtain ⟨_, _, _, hget, h⟩ := run_state_bind_ok h
  cases hget
  obtain ⟨_, _, _, hglobals, h⟩ := run_state_bind_ok h
  obtain ⟨rfl, -⟩ := run_lift_ok hglobals
  obtain ⟨result, _, _, hcheck, h⟩ := run_state_bind_ok h
  obtain ⟨rfl, -⟩ := run_lift_ok hcheck
  split at h
  · cases h
    exact .of_eq rfl rfl rfl
  · obtain ⟨-, hfail⟩ := run_lift_ok h
    cases hfail
  · obtain ⟨fact, _, _, hfact, h⟩ := run_state_bind_ok h
    obtain ⟨rfl, -⟩ := run_lift_ok hfact
    split at h
    · cases h
      exact .of_eq rfl rfl rfl
    · obtain ⟨_, _, _, -, h⟩ := run_state_bind_ok h
      obtain ⟨_, _, _, -, h⟩ := run_state_bind_ok h
      obtain ⟨-, hfail⟩ := run_lift_ok h
      cases hfail
  · obtain ⟨-, hfail⟩ := run_lift_ok h
    cases hfail

theorem prefix_insertLast {α : Type} [BEq α] (as : List α) (a : α) : as <+: insertLast as a := by
  unfold insertLast
  split
  · exact List.prefix_rfl
  · exact List.prefix_append _ _

theorem of_mem_insertLast {α : Type} [BEq α] {as : List α} {a b : α} (h : b ∈ insertLast as a) :
    b ∈ as ∨ b = a := by
  unfold insertLast at h
  split at h
  · exact .inl h
  · simpa using h

theorem mem_insertLast {α : Type} [BEq α] [LawfulBEq α] (as : List α) (a : α) :
    a ∈ insertLast as a := by
  unfold insertLast
  split
  next h => simpa using h
  next => simp

/-- A goal that becomes a parameter is the use of the slot that it was for. -/
theorem liftGoal_lifts {slot : SlotId} {goal : Con} {depth valDepth : Nat} {span : Span}
    {obligation : Obligation} (huse : obligation.use? = some (slot, valDepth))
    (h : (((liftGoal fuel slot goal depth valDepth span).run before).run config).run s =
      some (.ok ((), after), s')) : Lifts [obligation] before after := by
  obtain ⟨_, _, _, hget, h⟩ := run_state_bind_ok h
  cases hget
  obtain ⟨zonked, _, _, hzonk, h⟩ := run_state_bind_ok h
  obtain ⟨rfl, -⟩ := run_lift_ok hzonk
  split at h
  · obtain ⟨-, hfail⟩ := run_lift_ok h
    cases hfail
  next type _ =>
    obtain ⟨liftable, _, _, hliftable, h⟩ := run_state_bind_ok h
    obtain ⟨rfl, -⟩ := run_lift_ok hliftable
    split at h
    · cases h
      refine ⟨rfl, prefix_insertLast _ _, [_], rfl, ?_, List.forall_mem_singleton.mpr ?_⟩
      · rw [show uses [obligation] = [(slot, valDepth)] from List.filterMap_cons_some huse]
        exact List.Sublist.refl _
      · exact List.idxOf_lt_length_iff.mpr (mem_insertLast _ _)
    · obtain ⟨-, hfail⟩ := run_lift_ok h
      cases hfail

/-- Preconditions of instances are all that settling an obligation leaves. -/
theorem settle_lifts {obligation : Obligation} {preconditions : List Obligation}
    (h : (((settle fuel obligation).run before).run config).run s =
      some (.ok (preconditions, after), s')) :
    Lifts [obligation] before after ∧ uses preconditions = [] := by
  obtain ⟨demand, depth, span⟩ := obligation
  unfold settle at h
  cases demand with
  | unify expected found =>
    obtain ⟨_, _, _, -, h⟩ := run_state_bind_ok h
    obtain ⟨-, hfail⟩ := run_lift_ok h
    cases hfail
  | disjoint left right facts =>
    obtain ⟨_, _, _, hdisjoint, h⟩ := run_state_bind_ok h
    cases h
    exact ⟨settleDisjoint_lifts hdisjoint, rfl⟩
  | «class» slot goal locals facts valDepth =>
    obtain ⟨result, _, _, hresolve, h⟩ := run_state_bind_ok h
    obtain ⟨rfl, -⟩ := run_lift_ok hresolve
    dsimp only at h
    split at h
    · obtain ⟨_, _, _, hfill, h⟩ := run_state_bind_ok h
      obtain ⟨rfl, -⟩ := run_lift_ok hfill
      cases h
      exact ⟨.of_eq rfl rfl rfl, List.filterMap_map.trans (List.filterMap_none _)⟩
    · obtain ⟨-, hfail⟩ := run_lift_ok h
      cases hfail
    · obtain ⟨-, hfail⟩ := run_lift_ok h
      cases hfail
    · obtain ⟨_, _, _, hlift, h⟩ := run_state_bind_ok h
      cases h
      exact ⟨liftGoal_lifts rfl hlift, rfl⟩
    · obtain ⟨_, _, _, hlift, h⟩ := run_state_bind_ok h
      cases h
      exact ⟨liftGoal_lifts rfl hlift, rfl⟩
    · obtain ⟨-, hfail⟩ := run_lift_ok h
      cases hfail

theorem settles_lift {obligations : List Obligation} {preconditions : List (List Obligation)}
    (h : (((obligations.mapM (settle fuel)).run before).run config).run s =
      some (.ok (preconditions, after), s')) :
    Lifts obligations before after ∧ uses preconditions.flatten = [] := by
  induction obligations generalizing before s preconditions with
  | nil =>
    cases h
    exact ⟨.of_eq rfl rfl rfl, rfl⟩
  | cons obligation obligations ih =>
    rw [List.mapM_cons] at h
    obtain ⟨left, _, _, hsettle, h⟩ := run_state_bind_ok h
    obtain ⟨rest, _, _, hrest, h⟩ := run_state_bind_ok h
    cases h
    obtain ⟨lifts, hleft⟩ := settle_lifts hsettle
    obtain ⟨lifts', hnone⟩ := ih hrest
    exact ⟨lifts.trans lifts', by rw [List.flatten_cons, uses_append, hleft, hnone]; rfl⟩

theorem settleRest_lifts {obligations : List Obligation}
    (h : (((obligations.forM fun obligation => do
      let _ ← settle fuel obligation).run before).run config).run s = some (.ok ((), after), s')) :
    Lifts obligations before after := by
  induction obligations generalizing before s with
  | nil =>
    cases h
    exact .of_eq rfl rfl rfl
  | cons obligation obligations ih =>
    obtain ⟨_, _, _, hsettle, h⟩ := run_state_bind_ok h
    obtain ⟨_, _, _, hsettle', hpure⟩ := run_state_bind_ok hsettle
    cases hpure
    exact (settle_lifts hsettle').1.trans (ih h)

theorem settleAll_lifts {obligations : List Obligation}
    (h : (((settleAll fuel obligations).run before).run config).run s =
      some (.ok ((), after), s')) : Lifts obligations before after := by
  obtain ⟨preconditions, _, _, hsettle, hrest⟩ := run_state_bind_ok h
  obtain ⟨lifts, hnone⟩ := settles_lift hsettle
  have lifts' := lifts.trans (settleRest_lifts hrest)
  refine ⟨lifts'.skolems, lifts'.dicts, ?_⟩
  have hlifted := lifts'.lifted
  rwa [uses_append, hnone, List.append_nil] at hlifted

/-! ## Filling the slots of lifted uses -/

/-- The slots of lifted uses hold the parameters that they refer to, if there are such slots and no
use has the slot of another one. -/
theorem fillLifted_fills {count : Nat} {lifted : List LiftedUse}
    (hslots : ∀ use ∈ lifted, use.slot < s.queue.slots.size)
    (hnodup : (lifted.map (·.slot)).Nodup)
    (h : ((lifted.forM (fillLifted count)).run config).run s = some (.ok (), s')) :
    s'.store = s.store ∧
      (∀ id ∉ lifted.map (·.slot), s'.queue.slotDict? id = s.queue.slotDict? id) ∧
      ∀ use ∈ lifted, s'.queue.slotDict? use.slot =
        some (.local (use.valDepth + count - 1 - use.position)) := by
  induction lifted generalizing s with
  | nil =>
    cases h
    simp
  | cons use lifted ih =>
    obtain ⟨_, s₁, hfill, h⟩ := run_bind_ok h
    cases hfill
    obtain ⟨hslot, hslots⟩ := List.forall_mem_cons.mp hslots
    obtain ⟨hnotin, hnodup⟩ := List.nodup_cons.mp hnodup
    obtain ⟨hstore, hkept, hfilled⟩ := ih (fun use' huse' =>
      (hslots use' huse').trans_eq (Queue.size_slots_fillSlot _ _).symm) hnodup h
    refine ⟨hstore, fun id hid => ?_, List.forall_mem_cons.mpr ⟨?_, hfilled⟩⟩
    · obtain ⟨hne, hid⟩ := List.ne_and_not_mem_of_not_mem_cons hid
      exact (hkept id hid).trans ((Queue.slotDict?_fillSlot _ hslot).trans (if_neg hne))
    · exact (hkept _ hnotin).trans ((Queue.slotDict?_fillSlot _ hslot).trans (if_pos rfl))

end Elaborate

end RowML
