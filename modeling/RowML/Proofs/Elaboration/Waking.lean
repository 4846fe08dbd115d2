import RowML.Proofs.Elaboration.Balance
import RowML.Proofs.Obligation.Queue
import RowML.Proofs.Store.Reporting

/-!
# Waking what waits

An obligation waits for the metavariables that block it.  A blocker that is solved after the
obligation was pushed is on the list of solved cells until the list is read, and reading it makes
the obligation ready; so once nothing is ready and nothing is listed, exactly those blockers are
solved that were solved when the obligation was pushed.  There can be such blockers: the head of a
constructor may be a metavariable that another solution brought in, solved and reported before.
-/

namespace RowML

namespace Session

/-! ## Sessions that miss nothing -/

/-- The obligation `entry` was pushed in the session `start`, and `s` is a later session of the same
declaration. -/
structure PushedIn (start : Session) (entry : Waiting) (s : Session) : Prop where
  reached : Session.empty.Reaches start
  id : entry.id = start.queue.pushed
  passes :
    { start with queue := start.queue.push entry.obligation entry.blockers : Session }.Passes s

/-- No speculation is open.  A blocker that was unsolved or listed as solved when an obligation was
pushed is unsolved or listed now, or the obligation is ready. -/
structure Attentive (s : Session) : Prop where
  recorded : s.store.Recorded
  closed : s.store.snapshots = 0
  consistent : s.queue.Consistent
  heeds : ∀ entry ∈ s.queue.waiting, ∃ start, PushedIn start entry s ∧
    ∀ b ∈ entry.blockers, s.store.isSolved b →
      (start.store.isSolved b ∧ b ∉ start.store.solved.toList) ∨ b ∈ s.store.solved.toList ∨
        entry.id ∈ s.queue.ready

variable {s s' : Session}

theorem attentive_empty : Session.empty.Attentive where
  recorded := by simp [Store.Recorded, Session.empty, Store.empty]
  closed := rfl
  consistent := .empty
  heeds := by simp [Session.empty, Queue.empty, Queue.waiting]

theorem Attentive.step (h : s.Attentive) (reached : Session.empty.Reaches s) (hstep : Step s s') :
    s'.Attentive := by
  have later : ∀ {start entry}, PushedIn start entry s → PushedIn start entry s' :=
    fun pushed => { pushed with passes := pushed.passes.tail hstep }
  cases hstep with
  | @compute _ _ _ store operation hrun =>
    obtain ⟨recorded, reports⟩ := operation.composed.reporting _ _ ⟨_, hrun⟩ h.recorded
    refine ⟨recorded, reports.snapshots.trans h.closed, h.consistent, fun entry hentry => ?_⟩
    obtain ⟨start, pushed, heeded⟩ := h.heeds entry hentry
    refine ⟨start, later pushed, fun b hb hsolved => ?_⟩
    by_cases hlisted : b ∈ store.solved.toList
    · exact .inr (.inl hlisted)
    · obtain ⟨hsolved, hlisted⟩ := reports.unlisted hsolved hlisted
      exact (heeded b hb hsolved).imp_right fun h => .inr (h.resolve_left hlisted)
  | push obligation blockers =>
    refine ⟨h.recorded, h.closed, h.consistent.push _ _, fun entry hentry => ?_⟩
    rw [Queue.waiting_push] at hentry
    rcases List.mem_append.mp hentry with hentry | hentry
    · obtain ⟨start, pushed, heeded⟩ := h.heeds entry hentry
      exact ⟨start, later pushed, heeded⟩
    · cases List.mem_singleton.mp hentry
      refine ⟨s, ⟨reached, rfl, .refl⟩, fun b _ hsolved => ?_⟩
      by_cases hlisted : b ∈ s.store.solved.toList
      · exact .inr (.inl hlisted)
      · exact .inl ⟨hsolved, hlisted⟩
  | wake =>
    refine ⟨h.recorded, h.closed, h.consistent.wake _, fun entry hentry => ?_⟩
    rw [Queue.waiting_wake] at hentry
    obtain ⟨start, pushed, heeded⟩ := h.heeds entry hentry
    refine ⟨start, later pushed, fun b hb hsolved => ?_⟩
    rcases heeded b hb hsolved with hearlier | hlisted | hready
    · exact .inl hearlier
    · exact .inr (.inr (h.consistent.mem_ready_wake hentry hb hlisted))
    · exact .inr (.inr ((Queue.mem_ready_wake_iff _).mpr (.inl hready)))
  | pop =>
    refine ⟨h.recorded, h.closed, h.consistent.pop, fun entry hentry => ?_⟩
    obtain ⟨hentry, hready⟩ := h.consistent.pop_keeps hentry
    obtain ⟨start, pushed, heeded⟩ := h.heeds entry hentry
    exact ⟨start, later pushed, fun b hb hsolved =>
      (heeded b hb hsolved).imp_right (.imp_right hready)⟩
  | drain => exact ⟨h.recorded, h.closed, h.consistent.drain, by simp⟩
  | newSlot goal =>
    refine ⟨h.recorded, h.closed, h.consistent.newSlot goal, fun entry hentry => ?_⟩
    obtain ⟨start, pushed, heeded⟩ := h.heeds entry hentry
    exact ⟨start, later pushed, heeded⟩
  | fillSlot slot dict =>
    refine ⟨h.recorded, h.closed, h.consistent.fillSlot slot dict, fun entry hentry => ?_⟩
    obtain ⟨start, pushed, heeded⟩ := h.heeds entry hentry
    exact ⟨start, later pushed, heeded⟩
  | elsewhere hstore hqueue =>
    refine ⟨hstore ▸ h.recorded, hstore ▸ h.closed, hqueue ▸ h.consistent, fun entry hentry => ?_⟩
    obtain ⟨start, pushed, heeded⟩ := h.heeds entry (hqueue ▸ hentry)
    rw [hstore, hqueue]
    exact ⟨start, later pushed, heeded⟩

/-- A solution stays for the rest of the declaration. -/
theorem Passes.isSolved (h : s.Passes s') (recorded : s.store.Recorded) :
    s'.store.Recorded ∧ ∀ {b}, s.store.isSolved b → s'.store.isSolved b := by
  induction h with
  | refl => exact ⟨recorded, id⟩
  | tail _ hstep ih =>
    obtain ⟨recorded, stays⟩ := ih
    cases hstep with
    | compute operation hrun =>
      obtain ⟨recorded, reports⟩ := operation.composed.reporting _ _ ⟨_, hrun⟩ recorded
      exact ⟨recorded, fun hsolved => reports.stays (stays hsolved)⟩
    | push | wake | pop | drain | newSlot | fillSlot => exact ⟨recorded, stays⟩
    | elsewhere hstore => exact hstore ▸ ⟨recorded, stays⟩

theorem Restarts.attentive (h : s.Attentive) (hrestart : s.Restarts s') : s'.Attentive where
  recorded := hrestart.1 ▸ h.recorded
  closed := hrestart.1 ▸ h.closed
  consistent := hrestart.2 ▸ .empty
  heeds := by simp [hrestart.2, Queue.empty, Queue.waiting]

theorem attentive_of_reaches (h : Session.empty.Reaches s) : s.Attentive := by
  induction h with
  | refl => exact attentive_empty
  | tail hreach hstep ih =>
    rcases hstep with hstep | hrestart
    · exact ih.step hreach hstep
    · exact hrestart.attentive ih

end Session

/-- Every speculation of a program is closed by its end. -/
theorem elaborate_snapshots {config : Config} {fuel : Nat} {decls : List Surface.Decl}
    {elaborated : Elaborated} (h : elaborate config fuel decls = some elaborated) :
    elaborated.store.snapshots = 0 := by
  obtain ⟨s, reached, hstore, -⟩ := elaborate_reaches h
  exact hstore ▸ (Session.attentive_of_reaches reached).closed

/-! ## Running what is ready -/

namespace Elaborate

variable {config : Config} {fuel : Nat} {s s' : Session}

/-- A run ends when, right after the last reading of the list of solved cells, nothing is ready. -/
theorem runReady_ends (hrun : ((runReady fuel).run config).run s = some (.ok (), s')) :
    ∃ queue : Queue, queue.pop.1 = none ∧ s'.queue = queue.pop.2 ∧ s'.store.solved = #[] := by
  induction fuel generalizing s with
  | zero => cases hrun
  | succ fuel ih =>
    unfold runReady at hrun
    obtain ⟨_, s₁, hwake, hrun⟩ := run_bind_ok hrun
    cases hwake
    obtain ⟨popped, s₂, hpop, hrun⟩ := run_bind_ok hrun
    cases popped with
    | none =>
      cases hrun
      have hpop := Prod.mk.inj (Option.some.inj hpop)
      exact ⟨_, Except.ok.inj hpop.1, hpop.2 ▸ rfl, hpop.2 ▸ rfl⟩
    | some obligation =>
      obtain ⟨_, _, -, hrun⟩ := run_bind_ok hrun
      exact ih hrun

/-- No wake-up is lost.  Whenever what is ready has been run, nothing is ready and every solved cell
has been reported.  An obligation that still waits was pushed earlier in the same declaration, and
the same of its blockers are solved as were then, by solutions that had been reported before: none,
if it was pushed with unsolved or unreported blockers only.  The next report of any of its blockers
makes it ready. -/
theorem runReady_loses_no_wakeup (reached : Session.empty.Reaches s)
    (hrun : ((runReady fuel).run config).run s = some (.ok (), s')) :
    s'.queue.ready = [] ∧ s'.store.solved = #[] ∧
      ∀ entry ∈ s'.queue.waiting,
        (∃ start, Session.PushedIn start entry s' ∧
          ∀ b ∈ entry.blockers, s'.store.isSolved b = start.store.isSolved b ∧
            (start.store.isSolved b → b ∉ start.store.solved.toList)) ∧
        ∀ b ∈ entry.blockers, ∀ solved, b ∈ solved → entry.id ∈ (s'.queue.wake solved).ready := by
  obtain ⟨queue, hpop, hqueue, hsolved⟩ := runReady_ends hrun
  have hready : s'.queue.ready = [] := hqueue ▸ Queue.ready_eq_nil_of_pop hpop
  have reached' : Session.empty.Reaches s' :=
    trans_of Session.Reaches reached (runReady_within fuel s s' ⟨config, _, hrun⟩)
  have attentive := Session.attentive_of_reaches reached'
  refine ⟨hready, hsolved, fun entry hentry => ⟨?_, fun b hb solved hmem => ?_⟩⟩
  · obtain ⟨start, pushed, heeded⟩ := attentive.heeds entry hentry
    have recorded := (Session.attentive_of_reaches pushed.reached).recorded
    have hstays : ∀ {b}, start.store.isSolved b → s'.store.isSolved b :=
      (pushed.passes.isSolved recorded).2
    have hheeded : ∀ b ∈ entry.blockers, s'.store.isSolved b →
        start.store.isSolved b ∧ b ∉ start.store.solved.toList := fun b hb hb' => by
      simpa [hsolved, hready] using heeded b hb hb'
    exact ⟨start, pushed, fun b hb =>
      ⟨Bool.eq_iff_iff.mpr ⟨fun hb' => (hheeded b hb hb').1, hstays⟩,
        fun hb' => (hheeded b hb (hstays hb')).2⟩⟩
  · exact attentive.consistent.mem_ready_wake hentry hb hmem

/-- The session that a computation leads to from the empty one. -/
def sessionAfter (x : ElaborateM Unit) : Session :=
  (((x.run default).run Session.empty).map (·.2)).getD Session.empty

theorem sessionAfter_within {R : Session → Session → Prop} [IsPreorder Session R]
    {x : ElaborateM Unit} (h : Within R x) : R Session.empty (sessionAfter x) := by
  unfold sessionAfter
  cases hrun : (x.run default).run Session.empty with
  | none => exact refl_of R _
  | some result => exact h _ _ ⟨default, result.1, hrun⟩

theorem sessionAfter_reached {x : ElaborateM Unit} (h : Within Session.Passes x) :
    Session.empty.Reaches (sessionAfter x) :=
  (sessionAfter_within h).reaches

/-- Whether running what is ready succeeds and leads to a session with that property. -/
def readyLeadsTo (s : Session) (p : Session → Bool) : Bool :=
  match ((runReady 20).run default).run s with
  | some (.ok (), s') => p s'
  | _ => false

theorem exists_of_readyLeadsTo {p : Session → Bool} (h : readyLeadsTo s p = true) :
    ∃ s', ((runReady 20).run default).run s = some (.ok (), s') ∧ p s' = true := by
  unfold readyLeadsTo at h
  split at h
  · exact ⟨_, ‹_›, h⟩
  · cases h

/-- A row has to be disjoint from another one before it is known. -/
def awaitRow : ElaborateM Unit := do
  let row ← freshTypeRow
  requireDisjoint 20 default row (.row .type [(.label "B", .int)])

theorem runReady_loses_no_wakeup_awaitRow :
    ∃ s', ((runReady 20).run default).run (sessionAfter awaitRow) = some (.ok (), s') ∧
      ∃ entry ∈ s'.queue.waiting, ∃ start, Session.PushedIn start entry s' ∧
        ∀ b ∈ entry.blockers, s'.store.isSolved b = start.store.isSolved b ∧
          (start.store.isSolved b → b ∉ start.store.solved.toList) := by
  have reached := sessionAfter_reached (x := awaitRow)
    (.bind (freshCon_within _) fun _ => requireDisjoint_within _ _ _ _)
  obtain ⟨s', hrun, hwaits⟩ := exists_of_readyLeadsTo (s := sessionAfter awaitRow)
    (p := fun s' => !s'.queue.waiting.isEmpty) (by decide +kernel)
  obtain ⟨-, -, hwaiting⟩ := runReady_loses_no_wakeup reached hrun
  obtain ⟨entry, hentry⟩ := List.exists_mem_of_ne_nil s'.queue.waiting (by simpa using hwaits)
  exact ⟨s', hrun, entry, hentry, (hwaiting entry hentry).1⟩

/-- Both rows are the variable `b`.  The second one, with the first one in the place of the
variable, has then a solved metavariable at its head. -/
def awaitSolvedRow : ElaborateM Unit := do
  pushCon "b" .typeRow
  let row ← freshTypeRow
  let image ← freshTypeRow
  unify 20 default row (.bvar 0)
  unify 20 default image (.bvar 0)
  requireDisjoint 20 default (.mvar 1 [row]) (.row .type [(.label "B", .int)])

/-- An obligation can be left waiting for a metavariable that is solved already. -/
theorem runReady_awaits_solved :
    ∃ s s', Session.empty.Reaches s ∧ ((runReady 20).run default).run s = some (.ok (), s') ∧
      ∃ entry ∈ s'.queue.waiting, ∃ b ∈ entry.blockers, s'.store.isSolved b = true := by
  have reached := sessionAfter_reached (x := awaitSolvedRow) <|
    .bind (modifyScope_within (.con · _ _)) fun _ => .bind (freshCon_within _) fun _ =>
    .bind (freshCon_within _) fun _ => .bind (unify_within _ _ _ _) fun _ =>
    .bind (unify_within _ _ _ _) fun _ => requireDisjoint_within _ _ _ _
  obtain ⟨s', hrun, hwaits⟩ := exists_of_readyLeadsTo (s := sessionAfter awaitSolvedRow)
    (p := fun s' => s'.queue.waiting.any fun entry => entry.blockers.any s'.store.isSolved)
    (by decide +kernel)
  obtain ⟨entry, hentry, hblockers⟩ := List.any_eq_true.mp hwaits
  exact ⟨_, s', reached, hrun, entry, hentry, List.any_eq_true.mp hblockers⟩

end Elaborate

end RowML
