import RowML.Row.Summary

/-!
# Disjointness of rows

Two rows are disjoint if no label can occur in both.  Every piece of one is compared with every
piece of the other: two labels by name, a pair with a rigid variable by the facts in scope, and a
pair with an unsolved metavariable waits for it.
-/

namespace RowML

/-- The assumption that two rows share no label. -/
structure Fact where
  left : Con
  right : Con
deriving DecidableEq, Inhabited

inductive Disjointness where
  | definite
  /-- Not decided.  Without blockers, the rows are rigid and no fact proves them disjoint. -/
  | deferred (blockers : List MetaId)
deriving DecidableEq

/-- Both rows contain `field`. -/
structure Overlap where
  field : Con
  left : Con
  right : Con
deriving DecidableEq

namespace Row

/-- What a piece is called in facts.  Maps do not matter, since they keep the labels. -/
def key? : Piece → Option Con
  | .field name _ => some name
  | .atom c => some (stripMaps c)
  | .flex c _ => some (stripMaps c)
  | .error => none

/-- How two pieces of different rows stand to each other. -/
inductive Pairing where
  | apart
  | waits (var : MetaId)
  /-- Apart if a fact separates the two keys. -/
  | needsFact (left right : Con)

def pairing (left right : Piece) : Pairing :=
  match left.blocker?.or right.blocker? with
  | some var => .waits var
  | none =>
    match left, right with
    | .field (.label _) _, .field (.label _) _ => .apart
    | _, _ =>
      match key? left, key? right with
      | some a, some b => .needsFact a b
      | _, _ => .apart

/-- A fact as two lists of keys. -/
def factKeys (globals : Globals) (fuel : Nat) (fact : Fact) : FuelM (List Con × List Con) := do
  let left ← summarize globals fuel fact.left
  let right ← summarize globals fuel fact.right
  pure (left.filterMap key?, right.filterMap key?)

/-- Whether a fact says that `a` and `b` share no label. -/
def covers (known : List (List Con × List Con)) (a b : Con) : Bool :=
  known.any fun (left, right) =>
    (left.contains a && right.contains b) || (left.contains b && right.contains a)

/-- The first label of `left` that `right` has as well. -/
def sharedLabel? (left right : List Piece) : Option Con :=
  ((fields left).find? fun (name, _) => (fields right).any fun (other, _) => other = name).map (·.1)

/-- The metavariables that the pairs of pieces wait for, each once. -/
def waits (left right : List Piece) : List MetaId :=
  ((left.flatMap fun p => right.map (pairing p)).filterMap fun
    | .waits var => some var
    | _ => none).foldl insertLast []

/-- The pairs of keys that facts have to separate. -/
def questions (left right : List Piece) : List (Con × Con) :=
  (left.flatMap fun p => right.map (pairing p)).filterMap fun
    | .needsFact a b => some (a, b)
    | _ => none

/-- The answer for the pieces of two rows that no label shows to overlap. -/
def separate (globals : Globals) (fuel : Nat) (left right : List Piece) (facts : List Fact) :
    FuelM Disjointness := do
  let questions := questions left right
  let known ← if questions.isEmpty then pure [] else facts.mapM (factKeys globals fuel)
  let blockers := waits left right
  if blockers.isEmpty && questions.all (fun (a, b) => covers known a b) then pure .definite
  else pure (.deferred blockers)

/-- Decides whether two rows share no label, under the facts in scope. -/
def checkDisjoint (globals : Globals) (fuel : Nat) (left right : Con) (facts : List Fact) :
    ExceptT Overlap FuelM Disjointness := do
  let leftPieces ← summarize globals fuel left
  let rightPieces ← summarize globals fuel right
  if hasError leftPieces || hasError rightPieces then pure .definite
  else
    match sharedLabel? leftPieces rightPieces with
    | some field => throw ⟨field, left, right⟩
    | none => separate globals fuel leftPieces rightPieces facts

end Row

end RowML
