import RowML.Elaboration.Closing

/-!
# Generalisation

The metavariables that are left in the types of a group of declarations become quantifiers.  While
the group is being closed, a quantifier is a skolem.  An obligation that speaks of nothing but these
skolems becomes a parameter of every member: a precondition of disjointness or a dictionary.
-/

namespace RowML

/-- What generalisation puts in front of every member of a group. -/
structure Generalization where
  /-- The quantifiers, the outermost first. -/
  skolems : List SkolemId
  facts : List Fact
  /-- The types of the dictionary parameters. -/
  dicts : List Con
deriving Inhabited

/-- The use of a dictionary that becomes a parameter. -/
structure LiftedUse where
  slot : SlotId
  /-- The position among the dictionary parameters. -/
  position : Nat
  /-- The number of term binders around the use. -/
  valDepth : Nat
deriving Inhabited

namespace Elaborate

/-! ## Quantifiers -/

/-- The name of a quantifier.  Rows are counted apart from everything else. -/
def quantifierName (rows others : Nat) : Kind → String × Nat × Nat
  | .record _ => ("r" ++ toString (rows + 1), rows + 1, others)
  | _ => ("t" ++ toString (others + 1), rows, others + 1)

/-- Solves metavariables with new skolems.  `rows` and `others` count the names given so far. -/
def quantify (fuel rows others : Nat) : List MetaId → ElaborateM (List SkolemId)
  | [] => pure []
  | var :: rest => do
    let kind ← closeKind fuel ((← get).store.cell var).kind
    let (name, rows, others) := quantifierName rows others kind
    let skolem ← onStoreM (Store.freshSkolem name kind)
    match ← onStoreM (Store.assign var (.skolem skolem)).run with
    | .ok () => return skolem :: (← quantify fuel rows others rest)
    | .error _ => quantify fuel rows others rest

/-- Turns the metavariables of some types into skolems. -/
def generalizeTypes (fuel : Nat) (types : List Con) : ElaborateM (List SkolemId) := do
  let vars ← types.mapM fun type => onStore (Store.unsolvedMVars fuel type)
  let skolems ← quantify fuel 0 0 (vars.flatten.foldl insertLast [])
  let _ ← wakeSolved
  pure skolems

/-! ## Parameters -/

/-- Computations that settle what is left of a group. -/
abbrev SettleM := StateT (Generalization × List LiftedUse) ElaborateM

/-- Whether a constructor speaks of the new quantifiers only, and of at least one. -/
def isLiftable (fuel : Nat) (skolems : List SkolemId) (c : Con) : ElaborateM Bool := do
  if (← onStore (Store.unsolvedMVars fuel c)).isEmpty then
    let mentioned ← onStore (Store.skolemsOf fuel c)
    pure (!mentioned.isEmpty && mentioned.all (skolems.contains ·))
  else pure false

/-- A precondition outside the binders of its use, if it can become a parameter. -/
def liftFact? (fuel : Nat) (skolems : List SkolemId) (left right : Con) (depth : Nat) :
    ElaborateM (Option Fact) := do
  let left ← zonk fuel left
  let right ← zonk fuel right
  match left.strengthen depth, right.strengthen depth with
  | some left, some right =>
    if ← isLiftable fuel skolems (.concat left right) then pure (some ⟨left, right⟩)
    else pure none
  | _, _ => pure none

def settleDisjoint (fuel : Nat) (left right : Con) (facts : List Fact) (depth : Nat)
    (span : Span) : SettleM Unit := do
  let (generalization, lifted) ← get
  match ← onStore (Row.checkDisjoint (← getGlobals) fuel left right facts).run with
  | .ok .definite => pure ()
  | .ok (.deferred (var :: _)) => fail span (.ambiguousType var)
  | .ok (.deferred []) =>
    match ← liftFact? fuel generalization.skolems left right depth with
    | some fact =>
      set ({ generalization with facts := insertLast generalization.facts fact }, lifted)
    | none =>
      fail span (.unprovableDisjointness (← zonk fuel left) (← zonk fuel right))
  | .error overlap => fail span (.ofOverlap overlap)

/-- Makes a goal that no instance meets a parameter, which `slot` then refers to. -/
def liftGoal (fuel : Nat) (slot : SlotId) (goal : Con) (depth valDepth : Nat) (span : Span) :
    SettleM Unit := do
  let (generalization, lifted) ← get
  match (← zonk fuel goal).strengthen depth with
  | none => fail span (.noInstance goal)
  | some type =>
    if ← isLiftable fuel generalization.skolems type then
      let dicts := insertLast generalization.dicts type
      set ({ generalization with dicts }, lifted ++ [⟨slot, dicts.idxOf type, valDepth⟩])
    else fail span (.noInstance goal)

/-- Settles an obligation; the answer are the preconditions that this leaves to be settled. -/
def settle (fuel : Nat) (obligation : Obligation) : SettleM (List Obligation) := do
  let span := obligation.span
  let depth := obligation.depth
  match obligation.demand with
  | .unify _ _ => fail span (← residualCause fuel obligation [])
  | .disjoint left right facts =>
    settleDisjoint fuel left right facts depth span
    pure []
  | .class slot goal locals facts valDepth =>
    match ← resolveClass fuel goal locals depth valDepth with
    | .ok (.resolved dict disjoint) =>
      modifyQueue (·.fillSlot slot dict)
      pure (disjoint.map fun (left, right) => ⟨.disjoint left right facts, depth, span⟩)
    | .ok (.deferred (var :: _)) => fail span (.ambiguousType var)
    | .ok (.deferred []) => fail span (.noInstance goal)
    | .error (.noInstance missing) =>
      liftGoal fuel slot missing depth valDepth span
      pure []
    | .error (.depthExceeded missing) =>
      liftGoal fuel slot missing depth valDepth span
      pure []
    | .error error => fail span (.ofClassError error)

/-- Settles obligations in order, and then the preconditions that they leave. -/
def settleAll (fuel : Nat) (obligations : List Obligation) : SettleM Unit := do
  let preconditions ← obligations.mapM (settle fuel)
  preconditions.flatten.forM fun obligation => do
    let _ ← settle fuel obligation

end Elaborate

namespace Generalization

def empty : Generalization := ⟨[], [], []⟩

/-- The skolems of a generalisation as variables, in a context of `base` further binders. -/
def bindIn (generalization : Generalization) (base : Nat) (c : Con) : Con :=
  c.abstractSkolems generalization.skolems base

/-- The type of a member with its new parameters. -/
def bindType (generalization : Generalization) (store : Store) (type : Con) : Con :=
  let type := generalization.dicts.foldr .arrow type
  let type := generalization.facts.foldr (fun fact type => .disjoint fact.left fact.right type) type
  generalization.skolems.foldr
    (fun id type => .poly (store.skolem id).name true (store.skolem id).kind type)
    (generalization.bindIn 0 type)

end Generalization

end RowML
