import RowML.Class.Goal
import RowML.Unify.Engine

/-!
# Class resolution

Dictionaries come from the term variables in scope, the innermost first, and then from the global
instances.  Every candidate is matched and undone; only the single candidate that certainly matches
is matched again for good.  A goal whose metavariables could still decide between candidates waits.
-/

namespace RowML

namespace Class

/-- What a search for dictionaries may use. -/
structure Context where
  globals : Globals
  /-- The dictionaries among the term variables in scope, the innermost last. -/
  locals : List LocalDict
  /-- Constructor binders in scope. -/
  depth : Nat
  /-- Term binders in scope. -/
  valDepth : Nat
  /-- Bound on nested premises. -/
  maxDepth : Nat

inductive Step where
  | found (dict : Dict)
  | wait (blockers : List MetaId)
deriving Inhabited

/-- Computations of a search; the state besides the store are the preconditions collected so far. -/
abbrev ResolveM := ExceptT ClassError (StateT (List (Con × Con)) FuelM)

/-- Unifies a candidate with a goal and undoes it.  A match that solves a metavariable of the goal
is not certain, since another candidate could fit as well. -/
def matchGoal (context : Context) (fuel : Nat) (candidate goal : Con) (goalMVars : List MetaId) :
    FuelM TryResult := do
  let mark ← Store.snapshot
  let outcome ← tryUnify context.globals fuel context.depth candidate goal
  let store ← get
  let outcome := if outcome = .yes ∧ goalMVars.any store.isSolved then .maybe else outcome
  Store.rollback mark
  pure outcome

/-- Matches an instance with a goal and undoes it. -/
def attempt (context : Context) (fuel : Nat) (inst : Instance) (goal : Con)
    (goalMVars : List MetaId) : FuelM TryResult := do
  let mark ← Store.snapshot
  let opened ← openType context.globals context.depth fuel inst.type
  let outcome ← matchGoal context fuel opened.head goal goalMVars
  Store.rollback mark
  pure outcome

/-- Searches a list of dictionaries in order.  The answer `none` sends the search on to the
instances. -/
def fromLocals (context : Context) (fuel : Nat) (goal : Con) (goalMVars : List MetaId) :
    Bool → List LocalDict → FuelM (Option Step)
  | undecided, [] => pure (if undecided then some (.wait goalMVars) else none)
  | undecided, candidate :: rest => do
    let type := candidate.type.lift (context.depth - candidate.depth)
    match ← matchGoal context fuel type goal goalMVars with
    | .yes =>
      if (← tryUnify context.globals fuel context.depth type goal) = .yes then
        pure (some (.found (.local (context.valDepth - (candidate.level + 1)))))
      else fromLocals context fuel goal goalMVars undecided rest
    | .maybe => fromLocals context fuel goal goalMVars true rest
    | .no => fromLocals context fuel goal goalMVars undecided rest

/-- Resolves goals in order; the answer holds the dictionaries found and what the others wait
for. -/
def resolveAll {α : Type} (resolve : Con → ResolveM Step) :
    List (α × Con) → ResolveM (List (α × Dict) × List MetaId)
  | [] => pure ([], [])
  | (key, goal) :: rest => do
    match ← resolve goal with
    | .found dict =>
      let (dicts, waiting) ← resolveAll resolve rest
      pure ((key, dict) :: dicts, waiting)
    | .wait blockers =>
      let (dicts, waiting) ← resolveAll resolve rest
      pure (dicts, blockers ++ waiting)

/-- Resolves the goals of a record once its row is known.  `blockers` keep the row from being known;
a row with a rigid remainder has no dictionary. -/
def resolveFields (resolve : Con → ResolveM Step) (goal : Con) (fields : List (Con × Con))
    (blockers : List MetaId) (rigid : Bool) : ResolveM Step := do
  if !blockers.isEmpty then pure (.wait blockers)
  else if rigid then throw (.noInstance goal)
  else
    let (dicts, waiting) ← resolveAll resolve fields
    if waiting.isEmpty then pure (.found (.record dicts)) else pure (.wait waiting)

/-- Resolves a record of goals field by field. -/
def resolveRecord (context : Context) (fuel : Nat) (resolve : Con → ResolveM Step)
    (goal row : Con) : ResolveM Step := do
  match ← Row.fieldsOf context.globals fuel row with
  | .unknown var => pure (.wait [var])
  | .closed fields =>
    let names ← Unify.unsolvedHeads (fields.map (·.1))
    resolveFields resolve goal fields names false
  | .opened fields tail =>
    let names ← Unify.unsolvedHeads (fields.map (·.1))
    let rest ← Row.summarize context.globals fuel tail
    resolveFields resolve goal fields (names ++ Row.blockers rest) (rest.any (·.rest?.isSome))

/-- Uses an instance for a goal. -/
def useInstance (context : Context) (fuel : Nat) (resolve : Con → ResolveM Step) (inst : Instance)
    (goal : Con) : ResolveM Step := do
  let opened ← openType context.globals context.depth fuel inst.type
  let (result, _) ← unify context.globals fuel context.depth opened.head goal
  match result with
  | .error _ => throw (.noInstance goal)
  | .ok () =>
    let (dicts, waiting) ← resolveAll resolve (opened.premises.map ((), ·))
    if waiting.isEmpty then
      modify (· ++ opened.disjoint)
      pure (.found (.instance inst.source opened.kinds opened.cons (dicts.map (·.2))))
    else pure (.wait waiting)

/-- Searches the instances for a goal that is a class application. -/
def fromInstances (context : Context) (fuel : Nat) (resolve : Con → ResolveM Step) (goal : Con)
    (goalMVars : List MetaId) : ResolveM Step := do
  let outcomes ← context.globals.instances.toList.mapM fun inst =>
    return (inst, ← attempt context fuel inst goal goalMVars)
  let certain := outcomes.filterMap fun (inst, outcome) =>
    if outcome = .yes then some inst else none
  let possible := outcomes.any fun (_, outcome) => outcome = .maybe
  match certain with
  | [inst] =>
    if possible ∧ !goalMVars.isEmpty then pure (.wait goalMVars)
    else useInstance context fuel resolve inst goal
  | candidates =>
    if !goalMVars.isEmpty then pure (.wait goalMVars)
    else if candidates.isEmpty then throw (.noInstance goal)
    else throw (.ambiguous goal (candidates.map (·.source)))

/-- Resolves a goal that is `level` premises deep. -/
def resolveGoal (context : Context) : Nat → Nat → Con → ResolveM Step
  | 0, _, _ => (outOfFuel : FuelM Step)
  | fuel + 1, level, goal => do
    if context.maxDepth < level then throw (.depthExceeded goal)
    else
      let goal ← headNormal context.globals fuel goal
      let goalMVars ← Store.unsolvedMVars fuel goal
      match ← fromLocals context fuel goal goalMVars false context.locals.reverse with
      | some step => pure step
      | none =>
        let next := resolveGoal context fuel (level + 1)
        match goal with
        | .record row => resolveRecord context fuel next goal row
        | _ =>
          match ← head context.globals fuel goal with
          | .mvar var _ => pure (.wait [var])
          | head =>
            if context.globals.isClassHead head then
              fromInstances context fuel next goal goalMVars
            else throw (.notAClass goal)

/-- Finds the dictionary for a goal.  Nothing is kept unless the whole goal is resolved, premises
included. -/
def resolve (context : Context) (fuel : Nat) (goal : Con) :
    ExceptT ClassError FuelM Resolution := do
  let mark ← Store.snapshot
  let (result, disjoint) ← (resolveGoal context fuel 0 goal).run.run []
  match result with
  | .ok (.found dict) =>
    Store.commit
    pure (.resolved dict disjoint)
  | .ok (.wait blockers) =>
    Store.rollback mark
    pure (.deferred blockers)
  | .error error =>
    Store.rollback mark
    throw error

end Class

end RowML
