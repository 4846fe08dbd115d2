/-!
# Settings of an elaboration run

Two settings can be overridden by text that comes from outside: the presence of one value turns
generalisation off, the other gives the bound on nested instance premises as a decimal number.
-/

namespace RowML

/-- White space in the sense of Unicode's `White_Space` property. -/
def isBlank (c : Char) : Bool :=
  let n := c.toNat
  (9 ≤ n && n ≤ 13) || n == 0x20 || n == 0x85 || n == 0xA0 || n == 0x1680 ||
    (0x2000 ≤ n && n ≤ 0x200A) || n == 0x2028 || n == 0x2029 || n == 0x202F || n == 0x205F ||
    n == 0x3000

/-- The text without the white space at both of its ends. -/
def trimBlanks (chars : List Char) : List Char :=
  ((chars.dropWhile isBlank).reverse.dropWhile isBlank).reverse

/-- The number that a non-empty list of ASCII digits stands for. -/
def decimal? (chars : List Char) : Option Nat :=
  if chars.isEmpty || !chars.all Char.isDigit then none
  else some (chars.foldl (fun n c => n * 10 + (c.toNat - '0'.toNat)) 0)

/-- Reads a 32-bit number: blanks around it and a leading plus sign are allowed. -/
def readWord? (text : String) : Option Nat :=
  let digits := match trimBlanks text.toList with
    | '+' :: rest => rest
    | chars => chars
  match decimal? digits with
  | some n => if n < UInt32.size then some n else none
  | none => none

structure Config where
  /-- Quantify over the metavariables left in the type of a declaration. -/
  generalize : Bool
  /-- Default the kind metavariables left at the end of a declaration group. -/
  defaultKinds : Bool
  /-- Bound on the rounds in which a group's obligations are forced. -/
  maxWakeRounds : Nat
  /-- Bound on nested instance premises. -/
  maxInstanceDepth : Nat
deriving DecidableEq, Repr

namespace Config

def default : Config where
  generalize := true
  defaultKinds := true
  maxWakeRounds := 64
  maxInstanceDepth := 32

instance : Inhabited Config := ⟨default⟩

/-- The default settings with the overrides that are present.  A depth that is no 32-bit number
is ignored. -/
def ofOverrides (noGeneralize maxInstanceDepth : Option String) : Config where
  generalize := noGeneralize.isNone
  defaultKinds := default.defaultKinds
  maxWakeRounds := default.maxWakeRounds
  maxInstanceDepth := (maxInstanceDepth.bind readWord?).getD default.maxInstanceDepth

end Config

end RowML
