import RowML.Elaboration.Monad

/-!
# Solving obligations

Every constraint is tried at once.  What cannot be decided waits in the queue of the declaration,
and is tried again as soon as one of the metavariables that block it is solved.
-/

namespace RowML

namespace Elaborate

/-- Tries a demand for disjointness.  The answer says whether it is decided; if not, it waits. -/
def dischargeDisjoint (fuel : Nat) (left right : Con) (facts : List Fact) (depth : Nat)
    (span : Span) : ElaborateM Bool := do
  match ← onStore (Row.checkDisjoint (← getGlobals) fuel left right facts).run with
  | .ok .definite => pure true
  | .ok (.deferred blockers) =>
    modifyQueue (·.push ⟨.disjoint left right facts, depth, span⟩ blockers)
    pure false
  | .error overlap => fail span (.ofOverlap overlap)

/-- Searches the dictionary that an obligation asks for. -/
def resolveClass (fuel : Nat) (goal : Con) (locals : List LocalDict) (depth valDepth : Nat) :
    ElaborateM (Except ClassError Resolution) := do
  let context : Class.Context := {
    globals := ← getGlobals
    locals
    depth
    valDepth
    maxDepth := (← read).maxInstanceDepth }
  onStore (Class.resolve context fuel goal).run

/-- Tries an obligation.  The answer says whether it is decided; if not, what is left of it waits.
-/
def discharge (fuel : Nat) (obligation : Obligation) : ElaborateM Bool := do
  let span := obligation.span
  match obligation.demand with
  | .unify expected found =>
    let (result, postponed) ←
      onStore (RowML.unify (← getGlobals) fuel obligation.depth expected found)
    match result with
    | .error error => fail span (.ofUnifyError error)
    | .ok () =>
      postponed.forM fun p =>
        modifyQueue (·.push ⟨.unify p.expected p.found, p.depth, span⟩ p.blockers)
      pure postponed.isEmpty
  | .disjoint left right facts =>
    dischargeDisjoint fuel left right facts obligation.depth span
  | .class slot goal locals facts valDepth =>
    match ← resolveClass fuel goal locals obligation.depth valDepth with
    | .ok (.resolved dict disjoint) =>
      modifyQueue (·.fillSlot slot dict)
      disjoint.forM fun (left, right) => do
        let _ ← dischargeDisjoint fuel left right facts obligation.depth span
      pure true
    | .ok (.deferred blockers) =>
      modifyQueue (·.push obligation blockers)
      pure false
    | .error error => fail span (.ofClassError error)

/-- Wakes what waits for the metavariables solved so far; the answer says whether there are any. -/
def wakeSolved : ElaborateM Bool := do
  let solved ← onStoreM Store.takeSolved
  modifyQueue (·.wake solved)
  pure !solved.isEmpty

def popReady : ElaborateM (Option Obligation) :=
  modifyGet fun session =>
    let (popped, queue) := session.queue.pop
    (popped, { session with queue })

def drainQueue : ElaborateM (List (Obligation × List MetaId)) :=
  modifyGet fun session =>
    let (drained, queue) := session.queue.drain
    (drained, { session with queue })

/-- Tries what solutions have made ready, until nothing is. -/
def runReady : Nat → ElaborateM Unit
  | 0 => noFuel
  | fuel + 1 => do
    let _ ← wakeSolved
    match ← popReady with
    | none => pure ()
    | some obligation =>
      let _ ← discharge fuel obligation
      runReady fuel

/-- Tries every obligation that waits, again and again, until a whole round decides nothing and
solves nothing, or `rounds` rounds are over. -/
def forceRounds (fuel : Nat) : Nat → ElaborateM Unit
  | 0 => pure ()
  | rounds + 1 => do
    runReady fuel
    let pending ← drainQueue
    if pending.isEmpty then pure ()
    else
      let decided ← pending.mapM fun (obligation, _) => discharge fuel obligation
      let solved ← wakeSolved
      if decided.contains true || solved then forceRounds fuel rounds

/-- Decides what can be decided; the rest leaves the queue together with its blockers. -/
def force (fuel : Nat) : ElaborateM (List (Obligation × List MetaId)) := do
  forceRounds fuel (← read).maxWakeRounds
  runReady fuel
  drainQueue

/-! ## Demands at the current place -/

def unify (fuel : Nat) (span : Span) (expected found : Con) : ElaborateM Unit := do
  let _ ← discharge fuel ⟨.unify expected found, ← conDepth, span⟩
  runReady fuel

def requireDisjoint (fuel : Nat) (span : Span) (left right : Con) : ElaborateM Unit := do
  let scope := (← get).scope
  let _ ← discharge fuel ⟨.disjoint left right scope.facts, scope.depth.con, span⟩
  runReady fuel

/-- Asks for a dictionary; the answer is the slot that will hold it. -/
def requireClass (fuel : Nat) (span : Span) (goal : Con) : ElaborateM SlotId := do
  let slot ← modifyGet fun session =>
    let (slot, queue) := session.queue.newSlot goal
    (slot, { session with queue })
  let scope := (← get).scope
  let demand := Demand.class slot goal scope.dictionaries scope.facts scope.valDepth
  let _ ← discharge fuel ⟨demand, scope.depth.con, span⟩
  runReady fuel
  pure slot

/-- The failure that an obligation stands for if nothing decides it. -/
def residualCause (fuel : Nat) (obligation : Obligation) : List MetaId → ElaborateM Cause
  | var :: _ => pure (.ambiguousType var)
  | [] => do
    match obligation.demand with
    | .unify expected found =>
      return .typeMismatch (← zonk fuel expected) (← zonk fuel found) .structural
    | .disjoint left right _ =>
      return .unprovableDisjointness (← zonk fuel left) (← zonk fuel right)
    | .class _ goal _ _ _ => return .noInstance (← zonk fuel goal)

/-- Decides all obligations; one that is left is a failure. -/
def forceAll (fuel : Nat) : ElaborateM Unit := do
  match ← force fuel with
  | [] => pure ()
  | (obligation, blockers) :: _ => do
    fail obligation.span (← residualCause fuel obligation blockers)

end Elaborate

end RowML
