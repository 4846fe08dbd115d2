import RowML.Proofs.Class.Order
import RowML.Proofs.Elaboration.Waking
import RowML.Proofs.Row.Waiting
import RowML.Proofs.Unify.Principal
import RowML.Proofs.Unify.Speculation

/-!
# The fixed point of forcing

Forcing tries all that waits, round after round, until a round decides nothing and solves nothing.
What is left then has been tried in that last round, when the same cells were solved as at the end.
A demand for disjointness that is tried once more is still undecided and waits for unsolved
metavariables, provided that no solution is a variable: following a solution that is one stops
where the next reading goes on.  A demand for a dictionary that is tried once more is still
undecided, provided that the others in the round are such demands too: a search that finds nothing
leaves nothing behind but new metavariables.
-/

namespace RowML

def Demand.isDisjointness : Demand → Bool
  | .disjoint _ _ _ => true
  | _ => false

def Demand.isClass : Demand → Bool
  | .class _ _ _ _ _ => true
  | _ => false

namespace Session

/-- What trying obligations does: inside the declaration, the store and the queue change, every
solution is listed, and nothing becomes ready. -/
structure Tries (s s' : Session) : Prop where
  passes : s.Passes s'
  reporting : s.store.Reporting s'.store
  ready : s'.queue.ready = s.queue.ready
  rest : s' = { s with store := s'.store, queue := s'.queue }

instance : IsPreorder Session Tries where
  refl _ := ⟨.refl, refl_of Store.Reporting _, rfl, rfl⟩
  trans _ _ _ h h' := by
    refine ⟨h.passes.trans h'.passes, trans_of Store.Reporting h.reporting h'.reporting,
      h'.ready.trans h.ready, ?_⟩
    rw [h'.rest, h.rest]

instance : AllowsTrying Tries where
  of_compute operation hrun := ⟨(Step.compute operation hrun).passes,
    operation.composed.reporting _ _ ⟨_, hrun⟩, rfl, rfl⟩
  of_push s obligation blockers := ⟨(Step.push s obligation blockers).passes,
    refl_of Store.Reporting _, rfl, rfl⟩
  of_fillSlot s slot dict := ⟨(Step.fillSlot s slot dict).passes,
    refl_of Store.Reporting _, rfl, rfl⟩

variable {r s t : Session}

/-- If nothing is listed at the end, nothing has been solved on the way. -/
theorem Tries.solves_nothing (recorded : r.store.Recorded) (h : r.Tries s) (h' : s.Tries t)
    (hsolved : t.store.solved = #[]) (v : MetaId) : s.store.isSolved v = r.store.isSolved v := by
  obtain ⟨recorded', reports⟩ := h.reporting recorded
  obtain ⟨-, reports'⟩ := h'.reporting recorded'
  refine Bool.eq_iff_iff.mpr ⟨fun hs => ?_, reports.stays⟩
  exact ((reports.trans reports').unlisted (reports'.stays hs) (by simp [hsolved])).1

end Session

namespace Elaborate

open Store (ReadAlike)

variable {config : Config} {fuel rounds : Nat} {r s s' t : Session}

/-- A list of what is pushed, or has been. -/
abbrev Pending := List (Obligation × List MetaId)

variable {pending : Pending}

/-! ## Rounds -/

/-- What a round is about: all that waits when what is ready has been run. -/
def takePending (fuel : Nat) : ElaborateM Pending := do
  runReady fuel
  drainQueue

/-- Tries the obligations, one after another, and answers which of them are decided. -/
def tryEach (fuel : Nat) (pending : Pending) : ElaborateM (List Bool) :=
  pending.mapM fun entry => discharge fuel entry.1

/-- The rest of a round: the answer says whether anything is decided or solved. -/
def tryAll (fuel : Nat) (pending : Pending) : ElaborateM Bool := do
  let decided ← tryEach fuel pending
  let solved ← wakeSolved
  pure (decided.contains true || solved)

theorem forceRounds_succ (fuel rounds : Nat) :
    forceRounds fuel (rounds + 1) = (do
      let pending ← takePending fuel
      if pending.isEmpty then pure ()
      else if ← tryAll fuel pending then forceRounds fuel rounds) := by
  simp only [forceRounds, takePending, tryAll, tryEach, bind_assoc, pure_bind]

/-- Among the first `rounds` rounds from `s` there is one that decides and solves nothing: the first
such round takes `pending`, which leaves the session `r`, and tries it, which leaves `t`. -/
inductive Settles (config : Config) (fuel : Nat) :
    Nat → Session → Pending → Session → Session → Prop where
  | still {rounds : Nat} {s r t : Session} {pending : Pending}
      (htake : ((takePending fuel).run config).run s = some (.ok pending, r))
      (htry : ((tryAll fuel pending).run config).run r = some (.ok false, t)) :
      Settles config fuel (rounds + 1) s pending r t
  | again {rounds : Nat} {s s₁ s₂ r t : Session} {first pending : Pending}
      (htake : ((takePending fuel).run config).run s = some (.ok first, s₁))
      (htry : ((tryAll fuel first).run config).run s₁ = some (.ok true, s₂))
      (next : Settles config fuel rounds s₂ pending r t) :
      Settles config fuel (rounds + 1) s pending r t

theorem takePending_ends (h : ((takePending fuel).run config).run s = some (.ok pending, r)) :
    r.queue.waiting = [] ∧ r.queue.ready = [] ∧ r.store.solved = #[] := by
  obtain ⟨⟨⟩, t, hready, hdrain⟩ := run_bind_ok h
  obtain ⟨-, -, -, hsolved⟩ := runReady_ends hready
  cases hdrain
  exact ⟨Queue.waiting_drain _, rfl, hsolved⟩

theorem wakeSolved_of_solved (h : s.store.solved = #[]) :
    (wakeSolved.run config).run s = some (.ok false, s) := by
  obtain ⟨⟨kinds, cells, skolems, trail, snapshots, solved⟩, globals⟩ := s
  cases h
  rfl

/-- A round that neither decides nor solves anything finds nothing solved at its end. -/
theorem tryAll_still (h : ((tryAll fuel pending).run config).run r = some (.ok false, t)) :
    ∃ decided, ((tryEach fuel pending).run config).run r = some (.ok decided, t) ∧
      true ∉ decided ∧ t.store.solved = #[] := by
  obtain ⟨decided, s, hmap, hrest⟩ := run_bind_ok h
  obtain ⟨solved, t', hwake, hrest⟩ := run_bind_ok hrest
  obtain ⟨hflag, rfl⟩ := Prod.mk.inj (Option.some.inj hrest)
  have hflag := Bool.or_eq_false_iff.mp (Except.ok.inj hflag)
  have hsolved : s.store.solved = #[] := by
    cases hwake
    simpa using hflag.2
  have hidle : (wakeSolved.run config).run s = some (.ok false, s) := wakeSolved_of_solved hsolved
  cases hidle.symm.trans hwake
  exact ⟨decided, hmap, by simpa using hflag.1, hsolved⟩

/-- Without anything to try, nothing happens. -/
theorem tryAll_nil (h : r.store.solved = #[]) :
    ((tryAll fuel []).run config).run r = some (.ok false, r) := by
  have hnone : ((tryEach fuel []).run config).run r = some (.ok [], r) := rfl
  rw [tryAll, run_bind_of_ok hnone, run_bind_of_ok (wakeSolved_of_solved h)]
  rfl

/-- Forcing ends with the first round that decides and solves nothing. -/
theorem Settles.forceRounds (h : Settles config fuel rounds s pending r t) :
    ((forceRounds fuel rounds).run config).run s = some (.ok (), t) := by
  induction h with
  | @still rounds s r t pending htake htry =>
    rw [forceRounds_succ, run_bind_of_ok htake]
    cases pending with
    | nil =>
      have hsame := (tryAll_nil (takePending_ends htake).2.2).symm.trans htry
      cases hsame
      rfl
    | cons entry pending => exact run_bind_of_ok htry _
  | @again rounds s s₁ s₂ r t first pending htake htry next ih =>
    rw [forceRounds_succ, run_bind_of_ok htake]
    cases first with
    | nil =>
      have hsame := (tryAll_nil (takePending_ends htake).2.2).symm.trans htry
      cases hsame
    | cons entry first => exact (run_bind_of_ok htry _).trans ih

/-- The last round starts in a session that is reached, with an empty queue. -/
theorem Settles.lastRound (h : Settles config fuel rounds s pending r t)
    (reached : Session.empty.Reaches s) :
    Session.empty.Reaches r ∧ r.queue.waiting = [] ∧ r.queue.ready = [] ∧
      ((tryAll fuel pending).run config).run r = some (.ok false, t) := by
  have htakes : Within Session.Reaches (takePending fuel) :=
    .bind (runReady_within fuel) fun _ => drainQueue_within
  have htries (pending : Pending) : Within Session.Reaches (tryAll fuel pending) :=
    .bind (.mapM (fun entry => discharge_within fuel _) pending) fun _ =>
      .bind wakeSolved_within fun _ => .pure _
  induction h with
  | still htake htry =>
    obtain ⟨hwaiting, hready, -⟩ := takePending_ends htake
    exact ⟨reached.trans (htakes _ _ ⟨config, _, htake⟩), hwaiting, hready, htry⟩
  | again htake htry next ih =>
    exact ih ((reached.trans (htakes _ _ ⟨config, _, htake⟩)).trans
      (htries _ _ _ ⟨config, _, htry⟩))

/-! ## What an attempt leaves -/

/-- `o'` is the obligation `o`, or an equation that is left of the equation `o`. -/
def RemainsOf (o o' : Obligation) : Prop :=
  o' = o ∨ ∃ expected found expected' found', o.demand = .unify expected found ∧
    o'.demand = .unify expected' found' ∧ o'.span = o.span

/-- Nothing but remains of `o` is added to the queue. -/
def AddsRemains (o : Obligation) (s s' : Session) : Prop :=
  ∀ left ∈ s'.queue.waiting, left ∈ s.queue.waiting ∨ RemainsOf o left.obligation

instance (o : Obligation) : IsPreorder Session (AddsRemains o) where
  refl _ _ hleft := .inl hleft
  trans _ _ _ h h' left hleft := (h' left hleft).elim (h left) .inr

theorem onStore_addsRemains (o : Obligation) {α : Type} (x : FuelM α) :
    Within (AddsRemains o) (onStore x) := by
  rintro s s' ⟨config, r, heffect⟩
  obtain ⟨_, -, hr⟩ := Option.map_eq_some_iff.mp heffect
  cases hr
  exact fun left hleft => .inl hleft

theorem push_addsRemains {o o' : Obligation} (h : RemainsOf o o') (blockers : List MetaId) :
    Within (AddsRemains o) (modifyQueue (·.push o' blockers)) := by
  rintro s s' ⟨config, r, heffect⟩
  cases heffect
  intro left hleft
  rw [Queue.waiting_push, List.mem_append, List.mem_singleton] at hleft
  rcases hleft with hleft | rfl
  · exact .inl hleft
  · exact .inr h

/-- An attempt that does not decide an obligation leaves remains of it only. -/
theorem discharge_leaves {o : Obligation}
    (h : ((discharge fuel o).run config).run s = some (.ok false, t)) : AddsRemains o s t := by
  obtain ⟨demand, depth, span⟩ := o
  cases demand with
  | unify expected found =>
    have hwithin : Within (AddsRemains ⟨.unify expected found, depth, span⟩)
        (discharge fuel ⟨.unify expected found, depth, span⟩) := by
      refine .bind getGlobals_within fun globals => ?_
      refine .bind (onStore_addsRemains _ _) fun (result, postponed) => ?_
      cases result with
      | error => exact fail_within _ _
      | ok =>
        refine .bind (.forM (fun p => ?_) postponed) fun _ => .pure _
        refine push_addsRemains ?_ p.blockers
        exact .inr ⟨expected, found, p.expected, p.found, rfl, rfl, rfl⟩
    exact hwithin _ _ ⟨config, _, h⟩
  | disjoint left right facts =>
    have hwithin : Within (AddsRemains ⟨.disjoint left right facts, depth, span⟩)
        (dischargeDisjoint fuel left right facts depth span) := by
      refine .bind getGlobals_within fun globals => ?_
      refine .bind (onStore_addsRemains _ _) fun result => ?_
      split
      · exact .pure _
      · exact .bind (push_addsRemains (.inl rfl) _) fun _ => .pure _
      · exact fail_within _ _
    exact hwithin _ _ ⟨config, _, h⟩
  | «class» slot goal locals facts valDepth =>
    obtain ⟨result, s₁, hresolve, h⟩ := run_bind_ok h
    have hwithin : Within (AddsRemains ⟨.class slot goal locals facts valDepth, depth, span⟩)
        (resolveClass fuel goal locals depth valDepth) :=
      .bind getGlobals_within fun _ => .bind read_within fun _ => onStore_addsRemains _ _
    have hstart := hwithin _ _ ⟨config, _, hresolve⟩
    rcases result with _ | ⟨dict, disjoint⟩ | blockers
    · cases h
    · obtain ⟨_, _, -, h⟩ := run_bind_ok h
      obtain ⟨_, _, -, h⟩ := run_bind_ok h
      cases h
    · obtain ⟨_, s₂, hpush, h⟩ := run_bind_ok h
      cases h
      exact trans_of (AddsRemains _) hstart
        (push_addsRemains (.inl rfl) blockers _ _ ⟨config, _, hpush⟩)

/-! ## One attempt after the other -/

theorem tryEach_within (pending : Pending) : Within Session.Tries (tryEach fuel pending) :=
  .mapM (fun entry => discharge_within fuel entry.1) pending

theorem tryEach_cons_ok {entry : Obligation × List MetaId} {decided : List Bool}
    (h : ((tryEach fuel (entry :: pending)).run config).run r = some (.ok decided, t)) :
    ∃ first rest s, decided = first :: rest ∧
      ((discharge fuel entry.1).run config).run r = some (.ok first, s) ∧
      ((tryEach fuel pending).run config).run s = some (.ok rest, t) := by
  rw [tryEach, List.mapM_cons] at h
  obtain ⟨first, s, hfirst, h⟩ := run_bind_ok h
  obtain ⟨rest, t', hrest, h⟩ := run_bind_ok h
  cases h
  exact ⟨first, rest, s, rfl, hfirst, hrest⟩

/-- From `r` on, trying `o` was reached in `before`, did not decide it, and left `after`. -/
structure Attempt (config : Config) (fuel : Nat) (r : Session) (o : Obligation)
    (before after : Session) : Prop where
  tries : r.Tries before
  undecided : ((discharge fuel o).run config).run before = some (.ok false, after)

theorem Attempt.after_tries {o : Obligation} {before after : Session}
    (h : Attempt config fuel r o before after) : before.Tries after :=
  discharge_within fuel o _ _ ⟨config, _, h.undecided⟩

/-- What waits when nothing has been decided was left by one of the attempts. -/
theorem exists_attempt {decided : List Bool}
    (h : ((tryEach fuel pending).run config).run r = some (.ok decided, t)) (hnone : true ∉ decided)
    {entry : Waiting} (hentry : entry ∈ t.queue.waiting) (hnew : entry ∉ r.queue.waiting) :
    ∃ o ∈ pending.map (·.1), ∃ before after, Attempt config fuel r o before after ∧
      after.Tries t ∧ entry ∉ before.queue.waiting ∧ entry ∈ after.queue.waiting := by
  induction pending generalizing r decided with
  | nil =>
    cases h
    exact absurd hentry hnew
  | cons first pending ih =>
    obtain ⟨d, rest, s, rfl, hfirst, hrest⟩ := tryEach_cons_ok h
    rw [List.mem_cons, not_or] at hnone
    obtain rfl : d = false := by simpa using hnone.1
    have hstep : r.Tries s := discharge_within fuel first.1 _ _ ⟨config, _, hfirst⟩
    by_cases hs : entry ∈ s.queue.waiting
    · exact ⟨first.1, by simp, r, s, ⟨refl_of Session.Tries r, hfirst⟩,
        tryEach_within pending _ _ ⟨config, _, hrest⟩, hnew, hs⟩
    · obtain ⟨o, ho, before, after, attempt, later, hbefore, hafter⟩ := ih hrest hnone.2 hs
      exact ⟨o, List.mem_cons_of_mem _ ho, before, after,
        { attempt with tries := trans_of Session.Tries hstep attempt.tries }, later, hbefore,
        hafter⟩

/-- Between `r` and `t` all of `pending` has come into the queue, in order, each with blockers of
which `Waits` holds. -/
def PutBack (pending : Pending) (r t : Session) (Waits : Obligation × List MetaId → Prop) : Prop :=
  ∃ left : Pending, left.map (·.1) = pending.map (·.1) ∧ (∀ entry ∈ left, Waits entry) ∧
    t.queue.waiting.map (fun entry => (entry.obligation, entry.blockers)) =
      r.queue.waiting.map (fun entry => (entry.obligation, entry.blockers)) ++ left

/-- A round that decides nothing puts all back that it has tried, if every attempt does that keeps
what has been known from the beginning of the round. -/
theorem tryEach_putBack {R : Session → Prop} {Waits : Obligation × List MetaId → Prop}
    {decided : List Bool} (hr : R r)
    (hattempt : ∀ entry ∈ pending, ∀ s t, R s →
      ((discharge fuel entry.1).run config).run s = some (.ok false, t) →
      R t ∧ ∃ blockers, t.queue = s.queue.push entry.1 blockers ∧ Waits (entry.1, blockers))
    (h : ((tryEach fuel pending).run config).run r = some (.ok decided, t))
    (hnone : true ∉ decided) : R t ∧ PutBack pending r t Waits := by
  induction pending generalizing r decided with
  | nil =>
    cases h
    exact ⟨hr, [], rfl, by simp, by simp⟩
  | cons first pending ih =>
    obtain ⟨d, rest, s, rfl, hfirst, hrest⟩ := tryEach_cons_ok h
    rw [List.mem_cons, not_or] at hnone
    obtain rfl : d = false := by simpa using hnone.1
    obtain ⟨hattemptFirst, hattempt⟩ := List.forall_mem_cons.mp hattempt
    obtain ⟨hs, blockers, hqueue, hwaits⟩ := hattemptFirst r s hr hfirst
    obtain ⟨ht, left, hleft, hall, hwaiting⟩ := ih hs hattempt hrest hnone.2
    refine ⟨ht, (first.1, blockers) :: left, by simp [hleft],
      List.forall_mem_cons.mpr ⟨hwaits, hall⟩, ?_⟩
    rw [hwaiting, hqueue]
    simp

/-! ## Demands for disjointness -/

/-- The check of a demand for disjointness in that store is undecided and waits for `blockers`. -/
def Undecided (globals : Globals) (fuel : Nat) (store : Store)
    (entry : Obligation × List MetaId) : Prop :=
  ∃ left right facts store', entry.1.demand = .disjoint left right facts ∧
    (Row.checkDisjoint globals fuel left right facts).run store =
      some (.ok (.deferred entry.2), store')

theorem Undecided.alike {globals : Globals} {store store' : Store}
    {entry : Obligation × List MetaId} (h : Undecided globals fuel store entry)
    (halike : ReadAlike store store') : Undecided globals fuel store' entry := by
  obtain ⟨left, right, facts, after, hdemand, hrun⟩ := h
  have hchecks : Throughout (Repeatable ReadAlike)
      (Row.checkDisjoint globals fuel left right facts) :=
    Row.checkDisjoint_throughout fuel left right facts
  have hchecks : Repeatable ReadAlike _ (Row.checkDisjoint globals fuel left right facts).run :=
    hchecks
  obtain ⟨after', hrun', -⟩ := hchecks.again halike hrun
  exact ⟨left, right, facts, after', hdemand, hrun'⟩

/-- What an undecided demand for disjointness waits for is unsolved. -/
theorem Undecided.blockers {globals : Globals} {store : Store}
    {entry : Obligation × List MetaId} (h : Undecided globals fuel store entry)
    (ok : Store.condensation.Ok store) : ∀ b ∈ entry.2, store.isSolved b = false := by
  obtain ⟨left, right, facts, after, hdemand, hrun⟩ := h
  obtain ⟨-, same, hawaits⟩ := Row.checkDisjoint_awaits fuel ok left right facts _ _
    (exec_of_run hrun)
  intro b hb
  rw [← same.solved]
  exact hawaits _ rfl _ rfl b hb

/-- What an attempt at a demand for disjointness does. -/
theorem discharge_disjoint_run (left right : Con) (facts : List Fact) (depth : Nat) (span : Span) :
    ((discharge fuel ⟨.disjoint left right facts, depth, span⟩).run config).run s =
      ((Row.checkDisjoint s.globals fuel left right facts).run s.store).map fun result =>
        let s' := { s with store := result.2 }
        match result.1 with
        | .ok .definite => (.ok true, s')
        | .ok (.deferred blockers) =>
          (.ok false, { s' with
            queue := s.queue.push ⟨.disjoint left right facts, depth, span⟩ blockers })
        | .error overlap => (.error ⟨span, .ofOverlap overlap⟩, s') := by
  change Option.bind (Option.map _ ((Row.checkDisjoint s.globals fuel left right facts).run
    s.store)) _ = _
  rcases (Row.checkDisjoint s.globals fuel left right facts).run s.store with
    _ | ⟨_ | _ | blockers, store⟩ <;> rfl

/-- A demand that is undecided goes back into the queue; besides that, the attempt only reads. -/
theorem discharge_undecided (config : Config) {entry : Obligation × List MetaId}
    (h : Undecided s.globals fuel s.store entry) (ok : Store.condensation.Ok s.store) :
    ∃ store, ((discharge fuel entry.1).run config).run s =
        some (.ok false, { s with store, queue := s.queue.push entry.1 entry.2 }) ∧
      ReadAlike s.store store := by
  obtain ⟨⟨demand, depth, span⟩, blockers⟩ := entry
  obtain ⟨left, right, facts, store, rfl, hrun⟩ := h
  have hchecks : Throughout (Repeatable ReadAlike)
      (Row.checkDisjoint s.globals fuel left right facts) :=
    Row.checkDisjoint_throughout fuel left right facts
  refine ⟨store, ?_, (hchecks (.refl ok) hrun).1⟩
  rw [discharge_disjoint_run, hrun]
  rfl

/-- An attempt that does not decide a demand for disjointness has found it undecided. -/
theorem undecided_of_discharge {o : Obligation} (ho : o.demand.isDisjointness)
    (h : ((discharge fuel o).run config).run s = some (.ok false, t)) :
    ∃ blockers, Undecided s.globals fuel s.store (o, blockers) := by
  obtain ⟨demand, depth, span⟩ := o
  cases demand with
  | disjoint left right facts =>
    rw [discharge_disjoint_run] at h
    obtain ⟨⟨answer, store⟩, hrun, hanswer⟩ := Option.map_eq_some_iff.mp h
    cases answer with
    | error overlap => cases hanswer
    | ok answer =>
      cases answer with
      | definite => cases hanswer
      | deferred blockers => exact ⟨blockers, left, right, facts, store, rfl, hrun⟩
  | unify | «class» => cases ho

/-- A round over demands for disjointness that decides none of them puts all of them back, and each
one is undecided in the session in which the round begins. -/
theorem tryEach_undecided {decided : List Bool} (ok : Store.condensation.Ok r.store)
    (hall : ∀ entry ∈ pending, entry.1.demand.isDisjointness)
    (h : ((tryEach fuel pending).run config).run r = some (.ok decided, t))
    (hnone : true ∉ decided) :
    (ReadAlike r.store t.store ∧ t.globals = r.globals) ∧
      PutBack pending r t fun entry => Undecided r.globals fuel r.store entry := by
  refine tryEach_putBack (R := fun s => ReadAlike r.store s.store ∧ s.globals = r.globals)
    ⟨.refl ok, rfl⟩ (fun entry hentry s s' ⟨halike, hglobals⟩ hattempt => ?_) h hnone
  obtain ⟨blockers, undecided⟩ := undecided_of_discharge (hall entry hentry) hattempt
  obtain ⟨store, hagain, hread⟩ := discharge_undecided config undecided halike.ok.2
  cases hagain.symm.trans hattempt
  exact ⟨⟨trans_of ReadAlike halike hread, hglobals⟩, blockers, rfl,
    hglobals ▸ undecided.alike (symm_of ReadAlike halike)⟩

/-! ## Demands for dictionaries -/

/-- What the search for a dictionary is given, apart from the goal. -/
def searchContext (config : Config) (globals : Globals) (locals : List LocalDict)
    (depth valDepth : Nat) : Class.Context where
  globals := globals
  locals := locals
  depth := depth
  valDepth := valDepth
  maxDepth := config.maxInstanceDepth

/-- The obligation asks for a dictionary, and all that the search looks at has been made in the
store. -/
def SearchesIn (config : Config) (globals : Globals) (store : Store) (o : Obligation) : Prop :=
  ∃ slot goal locals facts valDepth, o.demand = .class slot goal locals facts valDepth ∧
    goal.MadeIn store ∧ (searchContext config globals locals o.depth valDepth).MadeIn store

theorem SearchesIn.isClass {globals : Globals} {store : Store} {o : Obligation}
    (h : SearchesIn config globals store o) : o.demand.isClass := by
  obtain ⟨_, _, _, _, _, hdemand, -⟩ := h
  rw [hdemand]
  rfl

/-- The search for the dictionary that the obligation asks for waits for `blockers` in that store.
-/
def Awaits (config : Config) (globals : Globals) (fuel : Nat) (store : Store)
    (entry : Obligation × List MetaId) : Prop :=
  ∃ slot goal locals facts valDepth store',
    entry.1.demand = .class slot goal locals facts valDepth ∧
    (Class.resolve (searchContext config globals locals entry.1.depth valDepth) fuel goal).run
      store = some (.ok (.deferred entry.2), store')

/-- A demand whose search waits goes back into the queue, and nothing else is kept. -/
theorem discharge_awaits {entry : Obligation × List MetaId}
    (h : Awaits config s.globals fuel s.store entry) :
    ∃ store, ((discharge fuel entry.1).run config).run s =
        some (.ok false, { s with store, queue := s.queue.push entry.1 entry.2 }) ∧
      s.store.Restores store := by
  obtain ⟨⟨demand, depth, span⟩, blockers⟩ := entry
  obtain ⟨slot, goal, locals, facts, valDepth, store, rfl, hrun⟩ := h
  have hresolve : ((resolveClass fuel goal locals depth valDepth).run config).run s =
      some (.ok (.ok (.deferred blockers)), { s with store }) := by
    change ((Class.resolve (searchContext config s.globals locals depth valDepth) fuel goal).run
      s.store).map _ = _
    rw [hrun]
    rfl
  refine ⟨store, ?_, Class.resolve_restores hrun (by simp)⟩
  rw [discharge, run_bind_of_ok hresolve]
  rfl

/-- An attempt that does not decide a demand for a dictionary has found that the search waits. -/
theorem awaits_of_discharge {o : Obligation} (ho : o.demand.isClass)
    (h : ((discharge fuel o).run config).run s = some (.ok false, t)) :
    ∃ blockers, Awaits config s.globals fuel s.store (o, blockers) := by
  obtain ⟨demand, depth, span⟩ := o
  cases demand with
  | «class» slot goal locals facts valDepth =>
    obtain ⟨result, s₁, hresolve, h⟩ := run_bind_ok h
    obtain ⟨⟨answer, store⟩, hsearch, heq⟩ := Option.map_eq_some_iff.mp hresolve
    obtain ⟨hanswer, rfl⟩ := Prod.mk.inj heq
    cases hanswer
    rcases result with _ | ⟨dict, disjoint⟩ | blockers
    · cases h
    · obtain ⟨_, _, -, h⟩ := run_bind_ok h
      obtain ⟨_, _, -, h⟩ := run_bind_ok h
      cases h
    · exact ⟨blockers, slot, goal, locals, facts, valDepth, store, rfl, hsearch⟩
  | unify | disjoint => cases ho

/-- A search for a dictionary that does not find one leaves the store as it was. -/
theorem discharge_restores {o : Obligation} (ho : o.demand.isClass)
    (h : ((discharge fuel o).run config).run s = some (.ok false, t)) :
    s.store.Restores t.store := by
  obtain ⟨blockers, awaits⟩ := awaits_of_discharge ho h
  obtain ⟨store, hagain, restores⟩ := discharge_awaits awaits
  cases hagain.symm.trans h
  exact restores

/-- A search that waits does so again if nothing but new metavariables has come in. -/
theorem Awaits.again {globals : Globals} {base store store' : Store} {o : Obligation}
    {blockers : List MetaId} (h : Awaits config globals fuel store (o, blockers))
    (coherent : base.Coherent) (hsearches : SearchesIn config globals base o)
    (hstore : base.Resumes store) (hstore' : base.Resumes store') :
    ∃ blockers', Awaits config globals fuel store' (o, blockers') ∧
      Class.SameBelow base.cells.size blockers blockers' := by
  obtain ⟨slot, goal, locals, facts, valDepth, after, hdemand, hrun⟩ := h
  obtain ⟨_, _, _, _, _, hdemand', hgoal, hcontext⟩ := hsearches
  cases hdemand.symm.trans hdemand'
  obtain ⟨blockers', after', hrun', hsame⟩ :=
    Class.resolve_again coherent hcontext hgoal hstore hstore' hrun
  exact ⟨blockers', ⟨slot, goal, locals, facts, valDepth, after', hdemand, hrun'⟩, hsame⟩

/-! ## Forcing -/

/-- With nothing solved and nothing ready there is nothing to run. -/
theorem runReady_idle (hready : s.queue.ready = []) (hsolved : s.store.solved = #[]) :
    ((runReady (fuel + 1)).run config).run s = some (.ok (), s) := by
  have hpop : (popReady.run config).run s = some (.ok none, s) := by
    change some (Except.ok s.queue.pop.1, { s with queue := s.queue.pop.2 }) = _
    rw [Queue.pop_of_ready_eq_nil hready]
  rw [runReady, run_bind_of_ok (wakeSolved_of_solved hsolved), run_bind_of_ok hpop]
  rfl

theorem Settles.exists_fuel (h : Settles config fuel rounds s pending r t) :
    ∃ n, fuel = n + 1 := by
  cases fuel with
  | zero => cases h with | still htake | again htake => cases htake
  | succ fuel => exact ⟨fuel, rfl⟩

/-- After the last round, forcing only drains the queue. -/
theorem Settles.force (h : Settles config fuel config.maxWakeRounds s pending r t)
    (hready : t.queue.ready = []) (hsolved : t.store.solved = #[]) :
    ((force fuel).run config).run s =
      some (.ok t.queue.drain.1, { t with queue := t.queue.drain.2 }) := by
  have hrounds : ((Elaborate.forceRounds fuel config.maxWakeRounds).run config).run s =
    some (.ok (), t) := h.forceRounds
  obtain ⟨fuel, rfl⟩ := h.exists_fuel
  change ((Elaborate.forceRounds (fuel + 1) config.maxWakeRounds >>= fun _ => do
    runReady (fuel + 1)
    drainQueue).run config).run s = _
  rw [run_bind_of_ok hrounds, run_bind_of_ok (runReady_idle hready hsolved)]
  rfl

/-- What the obligation waits for is unsolved, and another attempt does not decide it: nothing
fails, nothing is solved, and the obligation waits as before. -/
structure StaysUndecided (config : Config) (fuel : Nat) (s : Session)
    (entry : Obligation × List MetaId) : Prop where
  blockers : ∀ b ∈ entry.2, s.store.isSolved b = false
  again : ∃ store, ((discharge fuel entry.1).run config).run s =
      some (.ok false, { s with store, queue := s.queue.push entry.1 entry.2 }) ∧
    store.solved = s.store.solved ∧ ∀ v, store.isSolved v = s.store.isSolved v

theorem Undecided.stays {entry : Obligation × List MetaId}
    (h : Undecided s.globals fuel s.store entry) (ok : Store.condensation.Ok s.store) :
    StaysUndecided config fuel s entry := by
  obtain ⟨store, hagain, hread⟩ := discharge_undecided config h ok
  exact ⟨h.blockers ok, store, hagain, hread.recorded, hread.solved⟩

/-- In a round that tries `pending` from `r` on, an attempt at one of these obligations has left
`entry`.  At that time the same cells were solved as in `s`.  If it was a demand for a dictionary,
it has left the store as it was; if it was a demand for disjointness, and the stores read alike, it
stays undecided. -/
def LeftBehind (config : Config) (fuel : Nat) (pending : Pending) (r s : Session)
    (entry : Obligation × List MetaId) : Prop :=
  ∃ o ∈ pending.map (·.1), ∃ before after, Attempt config fuel r o before after ∧
    RemainsOf o entry.1 ∧
    (∃ left ∈ after.queue.waiting, left ∉ before.queue.waiting ∧
      entry = (left.obligation, left.blockers)) ∧
    (∀ v, before.store.isSolved v = s.store.isSolved v ∧
      after.store.isSolved v = s.store.isSolved v) ∧
    (o.demand.isClass → before.store.Restores after.store) ∧
    (o.demand.isDisjointness → ReadAlike before.store s.store →
      StaysUndecided config fuel s entry)

/-- What an attempt at a demand for disjointness has put back stays undecided. -/
theorem Attempt.stays {o : Obligation} {before after : Session} {left : Waiting}
    (h : Attempt config fuel r o before after) (ho : o.demand.isDisjointness)
    (hleft : left ∈ after.queue.waiting) (hnew : left ∉ before.queue.waiting)
    (hglobals : before.globals = s.globals) (halike : ReadAlike before.store s.store) :
    StaysUndecided config fuel s (left.obligation, left.blockers) := by
  obtain ⟨blockers, undecided⟩ := undecided_of_discharge ho h.undecided
  obtain ⟨store, hagain, -⟩ := discharge_undecided config undecided halike.ok.1
  cases hagain.symm.trans h.undecided
  rw [Queue.waiting_push, List.mem_append, List.mem_singleton] at hleft
  obtain rfl := hleft.resolve_left hnew
  exact Undecided.stays (hglobals ▸ undecided.alike halike) halike.ok.2

/-- Forcing that ends with a round that decides and solves nothing leaves an empty queue, and the
same cells are solved as when that round began.  Whatever is left was left by an attempt of that
round, made when the same cells were solved, at the same obligation or at an equation that it is
left of.  An attempt at a demand for a dictionary has kept nothing; a demand for disjointness stays
undecided if nothing is read otherwise than then.  So it is if no solution is a variable and only
demands for disjointness were tried: all of them are left. -/
theorem force_settles (reached : Session.empty.Reaches s)
    (h : Settles config fuel config.maxWakeRounds s pending r t) :
    ∃ residue s', ((force fuel).run config).run s = some (.ok residue, s') ∧
      s'.queue.waiting = [] ∧ s'.queue.ready = [] ∧ s'.store.solved = #[] ∧
      (∀ v, s'.store.isSolved v = r.store.isSolved v) ∧
      (∀ entry ∈ residue, LeftBehind config fuel pending r s' entry) ∧
      (Store.condensation.Ok r.store → (∀ entry ∈ pending, entry.1.demand.isDisjointness) →
        residue.map (·.1) = pending.map (·.1) ∧
          ∀ entry ∈ residue, StaysUndecided config fuel s' entry) := by
  obtain ⟨reachedLast, hwaiting, hready, htry⟩ := h.lastRound reached
  obtain ⟨decided, hrun, hnone, hsolved⟩ := tryAll_still htry
  have recorded := (Session.attentive_of_reaches reachedLast).recorded
  have htries : r.Tries t := tryEach_within pending _ _ ⟨config, _, hrun⟩
  have hsame := fun v => Session.Tries.solves_nothing recorded htries (refl_of _ t) hsolved v
  refine ⟨_, _, h.force (htries.ready.trans hready) hsolved, Queue.waiting_drain _, rfl, hsolved,
    hsame, fun entry hentry => ?_, fun ok hall => ?_⟩
  · rw [Queue.fst_drain] at hentry
    obtain ⟨left, hleft, rfl⟩ := List.mem_map.mp hentry
    obtain ⟨o, ho, before, after, attempt, later, hbefore, hafter⟩ :=
      exists_attempt hrun hnone hleft (by simp [hwaiting])
    have hremains := (discharge_leaves attempt.undecided left hafter).resolve_left hbefore
    refine ⟨o, ho, before, after, attempt, hremains, ⟨left, hafter, hbefore, rfl⟩, fun v => ?_,
      fun hclass => discharge_restores hclass attempt.undecided,
      fun hdisjoint halike => attempt.stays hdisjoint hafter hbefore ?_ halike⟩
    · have htried := attempt.after_tries
      have hb :=
        attempt.tries.solves_nothing recorded (trans_of Session.Tries htried later) hsolved v
      have ha :=
        (trans_of Session.Tries attempt.tries htried).solves_nothing recorded later hsolved v
      exact ⟨hb.trans (hsame v).symm, ha.trans (hsame v).symm⟩
    · rw [attempt.tries.rest, htries.rest]
  · obtain ⟨⟨halike, hglobals⟩, left, hleft, hundecided, hqueue⟩ :=
      tryEach_undecided ok hall hrun hnone
    have hresidue : t.queue.drain.1 = left := by
      rw [Queue.fst_drain, hqueue, hwaiting]
      rfl
    refine ⟨hresidue ▸ hleft, fun entry hentry => Undecided.stays ?_ halike.ok.2⟩
    exact hglobals ▸ (hundecided entry (hresidue ▸ hentry)).alike halike

/-- The row `[B = int]`. -/
def labelB : Con := .row .type [(.label "B", .int)]

/-- A demand for disjointness from `[B = int]` that waits for the row. -/
def rowAwaited : Obligation × List MetaId := (⟨.disjoint (.mvar 0 []) labelB [], 0, default⟩, [0])

/-- The session in which nothing is known but the row, and everything that waits has been taken. -/
def rowTaken : Session :=
  { Session.empty with
    store := rowCells [none] #[], queue := { Queue.empty with entries := #[none] } }

theorem force_settles_awaitRow :
    Settles default 20 (default : Config).maxWakeRounds (sessionAfter awaitRow)
      [rowAwaited] rowTaken
      { rowTaken with queue := rowTaken.queue.push rowAwaited.1 rowAwaited.2 } ∧
    ∃ residue s', ((force 20).run default).run (sessionAfter awaitRow) = some (.ok residue, s') ∧
      residue.map (·.1) = [rowAwaited.1] ∧
      ∀ entry ∈ residue, LeftBehind default 20 [rowAwaited] rowTaken s' entry ∧
        StaysUndecided default 20 s' entry := by
  have reached := sessionAfter_reached (x := awaitRow)
    (.bind (freshCon_within _) fun _ => requireDisjoint_within _ _ _ _)
  have hsettles : Settles default 20 (default : Config).maxWakeRounds (sessionAfter awaitRow)
      [rowAwaited] rowTaken
      { rowTaken with queue := rowTaken.queue.push rowAwaited.1 rowAwaited.2 } :=
    .still rfl rfl
  have hstore : (rowCells [none] #[]).FirstOrder := by
    refine Store.firstOrder_unsolved ?_ rfl
    rintro (_ | i) <;> rfl
  have ok : Store.condensation.Ok rowTaken.store :=
    ⟨⟨hstore.steady, hstore.imitates⟩, fun _ => 0, fun _ _ ⟨_, h, _⟩ => nomatch h⟩
  obtain ⟨residue, s', hrun, -, -, -, -, hleft, hstays⟩ := force_settles reached hsettles
  obtain ⟨hresidue, hstays⟩ := hstays ok (List.forall_mem_singleton.mpr rfl)
  exact ⟨hsettles, residue, s', hrun, hresidue, fun entry hentry =>
    ⟨hleft entry hentry, hstays entry hentry⟩⟩

/-- Forcing that ends with a round over demands for dictionaries only leaves all of them, and
another attempt does not decide them: it keeps nothing, and the demand waits for the same
metavariables, apart from ones that the search itself has made. -/
theorem force_settles_classes (reached : Session.empty.Reaches s)
    (h : Settles config fuel config.maxWakeRounds s pending r t) (coherent : r.store.Coherent)
    (hsearches : ∀ entry ∈ pending, SearchesIn config r.globals r.store entry.1) :
    ∃ residue s', ((force fuel).run config).run s = some (.ok residue, s') ∧
      residue.map (·.1) = pending.map (·.1) ∧ r.store.Resumes s'.store ∧
      ∀ entry ∈ residue, ∃ blockers store,
        ((discharge fuel entry.1).run config).run s' =
          some (.ok false, { s' with store, queue := s'.queue.push entry.1 blockers }) ∧
        s'.store.Restores store ∧ Class.SameBelow r.store.cells.size entry.2 blockers := by
  obtain ⟨reachedLast, hwaiting, hready, htry⟩ := h.lastRound reached
  obtain ⟨decided, hrun, hnone, hsolved⟩ := tryAll_still htry
  have htries : r.Tries t := tryEach_within pending _ _ ⟨config, _, hrun⟩
  have hround : (r.store.Resumes t.store ∧ t.globals = r.globals) ∧
      PutBack pending r t fun entry => ∀ store, r.store.Resumes store → ∃ blockers,
        Awaits config r.globals fuel store (entry.1, blockers) ∧
          Class.SameBelow r.store.cells.size entry.2 blockers := by
    refine tryEach_putBack (R := fun s => r.store.Resumes s.store ∧ s.globals = r.globals)
      ⟨.refl _, rfl⟩ (fun entry hentry s s' ⟨resumes, hglobals⟩ hattempt => ?_) hrun hnone
    have hsearches := hsearches entry hentry
    obtain ⟨blockers, awaits⟩ := awaits_of_discharge hsearches.isClass hattempt
    obtain ⟨store, hagain, restores⟩ := discharge_awaits awaits
    cases hagain.symm.trans hattempt
    exact ⟨⟨resumes.trans restores.resumes, hglobals⟩, blockers, rfl,
      fun store' => (hglobals ▸ awaits).again coherent hsearches resumes⟩
  obtain ⟨⟨resumes, hglobals⟩, left, hleft, hwaits, hqueue⟩ := hround
  have hresidue : t.queue.drain.1 = left := by
    rw [Queue.fst_drain, hqueue, hwaiting]
    rfl
  refine ⟨_, _, h.force (htries.ready.trans hready) hsolved, hresidue ▸ hleft, resumes,
    fun entry hentry => ?_⟩
  obtain ⟨blockers, awaits, hsame⟩ := hwaits entry (hresidue ▸ hentry) t.store resumes
  obtain ⟨store, hagain, restores⟩ :=
    discharge_awaits (s := { t with queue := t.queue.drain.2 }) (hglobals ▸ awaits)
  exact ⟨blockers, store, hagain, restores, hsame⟩

/-- A demand for a dictionary of a type of which nothing is known. -/
def awaitDict : ElaborateM Unit := do
  let goal ← freshType
  let _ ← requireClass 20 default goal

def dictAwaited : Obligation × List MetaId :=
  (⟨.class 0 (.mvar 0 []) [] [] 0, 0, default⟩, [0])

/-- The session in which nothing is known but the type, and everything that waits has been taken. -/
def dictTaken : Session :=
  { Session.empty with
    store := { Store.empty with cells := #[⟨.type, 0, none⟩] }
    queue := { (Queue.empty.newSlot (.mvar 0 [])).2 with entries := #[none] } }

theorem dictTaken_coherent : dictTaken.store.Coherent := by
  have hunsolved : ∀ i, dictTaken.store.solution? i = none := by rintro (_ | i) <;> rfl
  exact
    { states := fun _ hv => absurd hv (Nat.not_lt_zero _)
      cellKinds := fun i hi => by
        obtain rfl := Nat.lt_one_iff.mp hi
        exact fun v hv => nomatch hv
      solutions := fun i _ c hc => by simp [hunsolved] at hc
      kindsAcyclic := ⟨fun _ => 0, fun _ _ ⟨_, hlink, _⟩ => nomatch hlink⟩
      acyclic := ⟨fun _ => 0, fun i _ ⟨_, hsolution, _⟩ => by simp [hunsolved] at hsolution⟩ }

theorem force_settles_classes_awaitDict :
    Settles default 20 (default : Config).maxWakeRounds (sessionAfter awaitDict)
      [dictAwaited] dictTaken
      { dictTaken with queue := dictTaken.queue.push dictAwaited.1 dictAwaited.2 } ∧
    ∃ residue s', ((force 20).run default).run (sessionAfter awaitDict) = some (.ok residue, s') ∧
      residue.map (·.1) = [dictAwaited.1] ∧
      ∀ entry ∈ residue, ∃ blockers store,
        ((discharge 20 entry.1).run default).run s' =
          some (.ok false, { s' with store, queue := s'.queue.push entry.1 blockers }) ∧
        s'.store.Restores store := by
  have reached := sessionAfter_reached (x := awaitDict) <|
    .bind (freshCon_within _) fun _ => .bind (requireClass_within _ _ _) fun _ => .pure _
  have hsettles : Settles default 20 (default : Config).maxWakeRounds (sessionAfter awaitDict)
      [dictAwaited] dictTaken
      { dictTaken with queue := dictTaken.queue.push dictAwaited.1 dictAwaited.2 } :=
    .still (by cbv) (by cbv)
  have hgoal : (Con.mvar 0 []).MadeIn dictTaken.store :=
    { cells := fun i hi => by
        cases hi with
        | here => exact Nat.one_pos
        | part hp => cases hp
      kinds := .intro (List.forall_mem_nil _) (List.forall_mem_nil _) }
  have hsearches : SearchesIn default dictTaken.globals dictTaken.store dictAwaited.1 :=
    ⟨0, .mvar 0 [], [], [], 0, rfl, hgoal, ⟨List.forall_mem_nil _, List.forall_mem_nil _,
      List.forall_mem_nil _⟩⟩
  obtain ⟨residue, s', hrun, hresidue, -, hstays⟩ := force_settles_classes reached hsettles
    dictTaken_coherent (List.forall_mem_singleton.mpr hsearches)
  refine ⟨hsettles, residue, s', hrun, hresidue, fun entry hentry => ?_⟩
  obtain ⟨blockers, store, hagain, restores, -⟩ := hstays entry hentry
  exact ⟨blockers, store, hagain, restores⟩

/-- The rows `far` and `near` are `row` under a function that is the identity, one and two times. -/
def awaitFarRow : ElaborateM Unit := do
  pushCon "b" .typeRow
  pushFact (.bvar 0) labelB
  let row ← freshTypeRow
  let image ← freshTypeRow
  let near ← freshTypeRow
  let far ← freshTypeRow
  unify 20 default far (.mvar 1 [near])
  unify 20 default near (.mvar 1 [row])
  unify 20 default row (.bvar 0)
  unify 20 default image (.bvar 0)
  requireDisjoint 20 default far labelB

/-- Whether another attempt decides the obligation. -/
def decides (s : Session) (o : Obligation) : Bool :=
  match ((discharge 20 o).run default).run s with
  | some (.ok decided, _) => decided
  | _ => false

theorem exists_of_decides {s : Session} {o : Obligation} (h : decides s o = true) :
    ∃ s', ((discharge 20 o).run default).run s = some (.ok true, s') := by
  unfold decides at h
  split at h
  next decided s' hrun => exact ⟨s', h ▸ hrun⟩
  next => cases h

/-- Whether forcing ends with its first round and leaves an obligation with that property. -/
def forceLeaves (s : Session) (p : Session → Obligation × List MetaId → Bool) : Bool :=
  match ((takePending 20).run default).run s with
  | some (.ok pending, r) =>
    match ((tryAll 20 pending).run default).run r, ((force 20).run default).run s with
    | some (.ok false, _), some (.ok residue, s') => residue.any (p s')
    | _, _ => false
  | _ => false

theorem exists_of_forceLeaves {s : Session} {p : Session → Obligation × List MetaId → Bool}
    (h : forceLeaves s p = true) :
    ∃ pending r t residue s', Settles default 20 (default : Config).maxWakeRounds s pending r t ∧
      ((force 20).run default).run s = some (.ok residue, s') ∧
      ∃ entry ∈ residue, p s' entry = true := by
  unfold forceLeaves at h
  split at h
  next pending r htake =>
    split at h
    next t residue s' htry hforce =>
      exact ⟨pending, r, t, residue, s', .still htake htry, hforce, List.any_eq_true.mp h⟩
    next => cases h
  next => cases h

/-- An obligation that is left may be decided by the next attempt: each attempt follows the row by
one solution more, and the last one that forcing makes ends at a solved metavariable. -/
theorem force_stops_short :
    ∃ s pending r t residue s', Session.empty.Reaches s ∧
      Settles default 20 (default : Config).maxWakeRounds s pending r t ∧
      ((force 20).run default).run s = some (.ok residue, s') ∧
      ∃ entry ∈ residue, (∃ b ∈ entry.2, s'.store.isSolved b = true) ∧
        ∃ s'', ((discharge 20 entry.1).run default).run s' = some (.ok true, s'') := by
  have reached := sessionAfter_reached (x := awaitFarRow) <|
    .bind (modifyScope_within (.con · _ _)) fun _ =>
      .bind (modifyScope_within (.fact · _ _)) fun _ =>
    .bind (freshCon_within _) fun _ => .bind (freshCon_within _) fun _ =>
    .bind (freshCon_within _) fun _ => .bind (freshCon_within _) fun _ =>
    .bind (unify_within _ _ _ _) fun _ => .bind (unify_within _ _ _ _) fun _ =>
    .bind (unify_within _ _ _ _) fun _ => .bind (unify_within _ _ _ _) fun _ =>
    requireDisjoint_within _ _ _ _
  obtain ⟨pending, r, t, residue, s', hsettles, hforce, entry, hentry, hfound⟩ :=
    exists_of_forceLeaves (s := sessionAfter awaitFarRow)
      (p := fun s' entry => entry.2.any s'.store.isSolved && decides s' entry.1)
      (by decide +kernel)
  obtain ⟨hblocker, hdecides⟩ := Bool.and_eq_true_iff.mp hfound
  exact ⟨_, pending, r, t, residue, s', reached, hsettles, hforce, entry, hentry,
    List.any_eq_true.mp hblocker, exists_of_decides hdecides⟩

end Elaborate

end RowML
