import RowML.Normal.Head

/-!
# Row summaries

For unification and disjointness only the pieces of a row matter: the fields that it is known to
have, and the remainders that it cannot be reduced past.  The order of the pieces is the order in
which they are written.
-/

namespace RowML

inductive Piece where
  /-- A field; the name is a label, a variable or a metavariable. -/
  | field (name value : Con)
  /-- A rigid remainder. -/
  | atom (con : Con)
  /-- A remainder that is stuck on the metavariable `var`. -/
  | flex (con : Con) (var : MetaId)
  /-- Poison: the whole row may be anything. -/
  | error
deriving DecidableEq

namespace Piece

def isField : Piece → Bool
  | .field _ _ => true
  | _ => false

def isFlex : Piece → Bool
  | .flex _ _ => true
  | _ => false

def field? : Piece → Option (Con × Con)
  | .field name value => some (name, value)
  | _ => none

/-- The remainder that a piece stands for. -/
def rest? : Piece → Option Con
  | .atom c => some c
  | .flex c _ => some c
  | _ => none

/-- The metavariable that a piece waits for. -/
def blocker? : Piece → Option MetaId
  | .flex _ var => some var
  | .field (.mvar var _) _ => some var
  | _ => none

end Piece

/-- Adds an element at the end of a list unless it is there. -/
def insertLast {α : Type} [BEq α] (list : List α) (a : α) : List α :=
  if list.contains a then list else list ++ [a]

theorem mem_foldl_insertLast {α : Type} [BEq α] [LawfulBEq α] {as list : List α} {a : α} :
    a ∈ as.foldl insertLast list ↔ a ∈ list ∨ a ∈ as := by
  induction as generalizing list with
  | nil => simp
  | cons b as ih =>
    rw [List.foldl_cons, ih, insertLast]
    split
    next h => grind
    next => grind

namespace Row

/-- The unsolved metavariable that a constructor in head normal form is stuck on. -/
def blocker? : Con → Option MetaId
  | .mvar var _ => some var
  | .app f _ => blocker? f
  | .kapp f _ => blocker? f
  | .component t _ => blocker? t
  | .map _ _ f r => (blocker? r).or (blocker? f)
  | .proj r field => (blocker? r).or (blocker? field)
  | .concat l r => (blocker? l).or (blocker? r)
  | _ => none

/-- The row under any number of maps. -/
def stripMaps : Con → Con
  | .map _ _ _ r => stripMaps r
  | c => c

def remainder (c : Con) : Piece :=
  match blocker? c with
  | some var => .flex c var
  | none => .atom c

/-- The pieces of a row, reduced as far as possible. -/
def summarize (globals : Globals) : Nat → Con → FuelM (List Piece)
  | 0, _ => outOfFuel
  | fuel + 1, row => do
    match ← headNormal globals fuel row with
    | .row _ fields =>
      fields.mapM fun (name, value) => return .field (← headNormal globals fuel name) value
    | .concat left right =>
      return (← summarize globals fuel left) ++ (← summarize globals fuel right)
    | .error => pure [.error]
    | stuck => pure [remainder stuck]

def fields (pieces : List Piece) : List (Con × Con) := pieces.filterMap Piece.field?

def hasError (pieces : List Piece) : Bool := pieces.contains .error

/-- The metavariables that keep a row from being known, each once. -/
def blockers (pieces : List Piece) : List MetaId :=
  (pieces.filterMap Piece.blocker?).foldl insertLast []

/-- The row made of the given pieces: the fields in one literal, then the remainders.  Without any
piece it is the empty row. -/
def rebuild (kind : Kind) (pieces : List Piece) : Con :=
  let rests := pieces.filterMap fun piece =>
    match piece with
    | .field _ _ => none
    | .error => some .error
    | .atom c => some c
    | .flex c _ => some c
  match fields pieces, rests with
  | [], [] => .row kind []
  | [], first :: others => others.foldl .concat first
  | known, others => others.foldl .concat (.row kind known)

/-- What is known of the fields of a row. -/
inductive FieldSet where
  /-- Exactly these fields. -/
  | closed (fields : List (Con × Con))
  /-- These fields and a remainder. -/
  | opened (fields : List (Con × Con)) (tail : Con)
  /-- Nothing before the metavariable is solved. -/
  | unknown (var : MetaId)

/-- The element kind of a row literal, `Type` for any other row. -/
def elementKind : Con → Kind
  | .row kind _ => kind
  | _ => .type

def fieldsOf (globals : Globals) (fuel : Nat) (row : Con) : FuelM FieldSet := do
  let pieces ← summarize globals fuel row
  let known := fields pieces
  match known, pieces.filter (!·.isField) with
  | known, [] => pure (.closed known)
  | [], [.flex _ var] => pure (.unknown var)
  | known, rest => pure (.opened known (rebuild (elementKind row) rest))

end Row

end RowML
