import RowML.Proofs.Elaboration.Forcing
import RowML.Proofs.Elaboration.Values

/-!
# Elaboration without obligations

While no obligation waits, what is demanded is decided at once, and finishing a value of which the
type and the term are known only reads them.
-/

namespace RowML

/-- No obligation waits, and no solution is left that could wake one. -/
structure Session.Idle (s : Session) : Prop where
  queue : s.queue = Queue.empty
  solved : s.store.solved = #[]

theorem Session.Idle.ready {s : Session} (h : s.Idle) : s.queue.ready = [] := by
  rw [h.queue]
  rfl

/-- Nothing is ready, and nothing waits for a metavariable. -/
structure Queue.Quiet (queue : Queue) : Prop where
  ready : queue.ready = []
  waiters : queue.waiters = []

namespace Queue

theorem quiet_empty : empty.Quiet := ⟨rfl, rfl⟩

theorem quiet_drain (queue : Queue) : queue.drain.2.Quiet := ⟨rfl, rfl⟩

theorem Quiet.wake {queue : Queue} (h : queue.Quiet) (solved : List MetaId) :
    queue.wake solved = queue := by
  induction solved with
  | nil => rfl
  | cons var solved ih =>
    have hone : queue.wakeOne var = queue := by
      unfold wakeOne
      rw [h.waiters]
      cases queue
      cases h.waiters
      rfl
    rw [Queue.wake, List.foldl_cons, hone]
    exact ih

end Queue

/-- Going back at once leaves the store as it was. -/
theorem Store.rollback_snapshot (store : Store) :
    (rollback (snapshot.run store).1).run (snapshot.run store).2 = ((), store) := by
  change ((), { store with
      kinds := { store.kinds.unwind (store.kinds.trail.length - store.kinds.trail.length) with
        snapshots := store.kinds.snapshots + 1 - 1 }
      cells := (store.unwind (store.trail.length - store.trail.length)).cells
      trail := (store.unwind (store.trail.length - store.trail.length)).trail
      snapshots := store.snapshots + 1 - 1
      solved := store.solved.take store.solved.size }) = _
  simp [unwind, KindStore.unwind]

namespace Elaborate

variable {config : Config} {s s' : Session} {store : Store}

theorem run_bind_of_error {α β : Type} {x : ElaborateM α} {diagnostic : Diagnostic}
    (h : (x.run config).run s = some (.error diagnostic, s')) (f : α → ElaborateM β) :
    ((x >>= f).run config).run s = some (.error diagnostic, s') := by
  change Option.bind ((x.run config).run s) _ = _
  rw [h]
  rfl

theorem run_outcome {α : Type} {x : ElaborateM α} {result : Except Diagnostic α}
    (h : (x.run config).run s = some (result, s')) :
    ((outcome x).run config).run s = some (.ok result, s') := by
  change Option.bind ((x.run config).run s) _ = _
  rw [h]
  rfl

/-! ## Demands -/

theorem wakeSolved_run (config : Config) (hqueue : s.queue.Quiet) : ∃ woken,
    (wakeSolved.run config).run s =
      some (.ok woken, { s with store := { s.store with solved := #[] } }) := by
  refine ⟨!s.store.solved.toList.isEmpty, ?_⟩
  have hwake : s.queue.wake s.store.solved.toList = s.queue := hqueue.wake _
  change some (Except.ok _, { s with
    store := { s.store with solved := #[] }, queue := s.queue.wake s.store.solved.toList }) = _
  rw [hwake]

theorem popReady_run (hqueue : s.queue.Quiet) :
    (popReady.run config).run s = some (.ok none, s) := by
  have hpop : s.queue.pop = (none, s.queue) := Queue.pop_of_ready_eq_nil hqueue.ready
  change some (Except.ok s.queue.pop.1, { s with queue := s.queue.pop.2 }) = _
  rw [hpop]

theorem runReady_run (hqueue : s.queue.Quiet) (fuel : Nat) :
    ((runReady (fuel + 1)).run config).run s =
      some (.ok (), { s with store := { s.store with solved := #[] } }) := by
  obtain ⟨woken, hwake⟩ := wakeSolved_run config hqueue
  rw [runReady]
  refine (run_bind_of_ok hwake _).trans ?_
  refine (run_bind_of_ok (popReady_run ?_) _).trans rfl
  exact hqueue

/-- An equation that holds once something is solved. -/
theorem unify_run {expected found : Con} (hqueue : s.queue.Quiet) {fuel : Nat}
    (h : RowML.unify s.globals (fuel + 1) s.scope.depth.con expected found s.store =
      some ((.ok (), []), store)) (span : Span) :
    ((unify (fuel + 1) span expected found).run config).run s =
      some (.ok (), { s with store := { store with solved := #[] } }) := by
  refine (run_bind_of_ok (a := s.scope.depth.con) rfl _).trans ?_
  have hdischarge : ((discharge (fuel + 1) ⟨.unify expected found, s.scope.depth.con, span⟩).run
      config).run s = some (.ok true, { s with store }) := by
    refine (run_bind_of_ok (a := s.globals) rfl _).trans ?_
    exact (run_bind_of_ok (onStore_run h) _).trans rfl
  refine (run_bind_of_ok hdischarge _).trans ?_
  exact runReady_run (s := { s with store }) hqueue fuel

variable {left right : Con}

theorem requireDisjoint_run (h : s.Idle) {fuel : Nat}
    (hcheck : (Row.checkDisjoint s.globals (fuel + 1) left right s.scope.facts).run s.store =
      some (.ok .definite, s.store)) (span : Span) :
    ((requireDisjoint (fuel + 1) span left right).run config).run s = some (.ok (), s) := by
  refine (run_bind_of_ok (a := s) rfl _).trans ?_
  have hdischarge : ((discharge (fuel + 1)
      ⟨.disjoint left right s.scope.facts, s.scope.depth.con, span⟩).run config).run s =
        some (.ok true, s) := by
    refine (run_bind_of_ok (a := s.globals) rfl _).trans ?_
    exact (run_bind_of_ok (onStore_run hcheck) _).trans rfl
  refine (run_bind_of_ok hdischarge _).trans ?_
  exact runReady_idle h.ready h.solved

/-- A demand that fails. -/
theorem requireDisjoint_overlap {overlap : Overlap} {fuel : Nat}
    (hcheck : (Row.checkDisjoint s.globals fuel left right s.scope.facts).run s.store =
      some (.error overlap, s.store)) (span : Span) :
    ((requireDisjoint fuel span left right).run config).run s =
      some (.error ⟨span, .ofOverlap overlap⟩, s) := by
  refine (run_bind_of_ok (a := s) rfl _).trans ?_
  refine run_bind_of_error ?_ _
  refine (run_bind_of_ok (a := s.globals) rfl _).trans ?_
  exact (run_bind_of_ok (onStore_run hcheck) _).trans rfl

/-! ## Finishing -/

theorem drainQueue_run (hqueue : s.queue = Queue.empty) :
    (drainQueue.run config).run s = some (.ok [], s) := by
  have hdrain : s.queue.drain = ([], s.queue) := by
    rw [hqueue]
    rfl
  change some (Except.ok s.queue.drain.1, { s with queue := s.queue.drain.2 }) = _
  rw [hdrain]

theorem force_idle (h : s.Idle) (fuel : Nat) :
    ((force (fuel + 1)).run config).run s = some (.ok [], s) := by
  have hrounds : ∀ rounds, ((forceRounds (fuel + 1) rounds).run config).run s = some (.ok (), s)
    | 0 => rfl
    | rounds + 1 => by
      rw [forceRounds]
      refine (run_bind_of_ok (runReady_idle h.ready h.solved) _).trans ?_
      exact (run_bind_of_ok (drainQueue_run h.queue) _).trans rfl
  refine (run_bind_of_ok (a := config) rfl _).trans ?_
  refine (run_bind_of_ok (hrounds _) _).trans ?_
  refine (run_bind_of_ok (runReady_idle h.ready h.solved) _).trans ?_
  exact drainQueue_run h.queue

variable {type c : Con} {body body' : Term} {fuel : Nat}

/-- Nothing is generalised in a type that reads as a complete one. -/
theorem generalizeTypes_known (h : s.Idle)
    (hzonk : Store.zonk (fuel + 1) type s.store = some (c, s.store)) (hc : c.Complete) :
    ((generalizeTypes (fuel + 1) [type]).run config).run s = some (.ok [], s) := by
  have hvars : Store.unsolvedMVars (fuel + 1) type s.store = some ([], s.store) := by
    refine (bind_of_run hzonk _).trans ?_
    rw [hc.mvars_eq]
    rfl
  refine (run_bind_of_ok (run_mapM_still (g := fun _ => []) ?_) _).trans ?_
  · exact List.forall_mem_singleton.mpr (onStore_run hvars)
  · refine (run_bind_of_ok (a := []) rfl _).trans ?_
    exact (run_bind_of_ok (wakeSolved_of_solved h.solved) _).trans rfl

theorem finishType_known (hzonk : Store.zonk (fuel + 1) type s.store = some (c, s.store))
    (hc : c.Complete) (span : Span) :
    ((finishType ⟨fuel + 1, .empty, []⟩ span type).run config).run s = some (.ok c, s) := by
  refine (run_bind_of_ok (onStore_run hzonk) _).trans ?_
  refine (run_bind_of_ok (a := s) rfl _).trans ?_
  refine (run_bind_of_ok (closeKindsIn_complete (c := c) hc _) _).trans ?_
  have hknown : ((requireKnown (fuel + 1) span c).run config).run s = some (.ok (), s) :=
    (run_bind_of_ok (onStore_run (unsolvedMVars_complete hc _ _)) _).trans rfl
  exact (run_bind_of_ok hknown _).trans rfl

/-- A single value of which type and body are known keeps both. -/
theorem finishGroup_known (h : s.Idle) (span : Span)
    (hzonk : Store.zonk (fuel + 1) type s.store = some (c, s.store)) (hc : c.Complete)
    (hbody : (((finishTerm ⟨fuel + 1, .empty, []⟩ .zero body).run ⟨none, none⟩).run config).run s =
      some (.ok (body', ⟨none, none⟩), s)) :
    ((finishGroup (fuel + 1) [⟨none, type, body, span⟩]).run config).run s =
      some (.ok [⟨none, c, body', span⟩], s) := by
  have hbodies : ((finishBody ⟨fuel + 1, .empty, []⟩ span body).run config).run s =
      some (.ok body', s) :=
    (run_bind_of_ok hbody _).trans rfl
  have hrest : (((settleAll (fuel + 1) []).run (Generalization.empty, []) >>= fun settled => do
      settled.2.2.forM (fillLifted settled.2.1.dicts.length)
      [(⟨none, type, body, span⟩ : Member)].mapM fun member => do
        let type ← finishType ⟨fuel + 1, settled.2.1, []⟩ member.span member.type
        let body ← finishBody ⟨fuel + 1, settled.2.1, []⟩ member.span member.body
        pure { member with type, body } : ElaborateM (List Member)).run config).run s =
      some (.ok [⟨none, c, body', span⟩], s) := by
    refine (run_bind_of_ok (a := ((), Generalization.empty, [])) rfl _).trans ?_
    refine (run_bind_of_ok (a := ()) rfl _).trans ?_
    refine run_mapM_still (g := fun _ => (⟨none, c, body', span⟩ : Member)) fun member hmember => ?_
    obtain rfl := List.mem_singleton.mp hmember
    refine (run_bind_of_ok (finishType_known hzonk hc span) _).trans ?_
    exact (run_bind_of_ok hbodies _).trans rfl
  refine (run_bind_of_ok (force_idle h fuel) _).trans ?_
  refine (run_bind_of_ok (a := ()) rfl _).trans ?_
  refine (run_bind_of_ok (a := config) rfl _).trans ?_
  split
  · exact (run_bind_of_ok (generalizeTypes_known h hzonk hc) _).trans hrest
  · exact hrest

/-! ## Instances -/

/-- The type of a record is the type of no instance. -/
theorem registerValue_record (fuel : Nat) (source : InstanceSource) (row : Con) :
    ((registerValue (fuel + 2) source (.record row)).run config).run s = some (.ok (), s) := by
  have hopen (store : Store) : Class.openType s.globals 0 (fuel + 2) (.record row) store =
      some (⟨[], [], [], [], .record row⟩, store) := by
    rw [Class.openType, bind_of_run (headNormal_record _ _ _ _)]
    rfl
  have hhead : Class.head s.globals (fuel + 2) (.record row) = pure (.record row) := by
    simp [Class.head]
  have hinstance : Class.isInstanceType s.globals (fuel + 2) (.record row) s.store =
      some (false, s.store) := by
    have hsnapshot : (liftM Store.snapshot : FuelM Snapshot) s.store =
        some ((Store.snapshot.run s.store).1, (Store.snapshot.run s.store).2) := rfl
    refine (bind_of_run hsnapshot _).trans ((bind_of_run (hopen _) _).trans ?_)
    rw [hhead, pure_bind]
    exact (bind_of_run (lift_run (Store.rollback_snapshot s.store)) _).trans rfl
  refine (run_bind_of_ok (a := s.globals) rfl _).trans ?_
  exact (run_bind_of_ok (onStore_run hinstance) _).trans rfl

end Elaborate

end RowML
