/-!
# Plain data

Values enter and leave the library as plain data: numbers, texts, lists and records.  A form with
parts is a list that starts with a tag; a form without parts is mostly a text.
-/

namespace RowML

inductive Data where
  | null
  | bool (value : Bool)
  | int (value : Int)
  | text (value : String)
  | list (items : List Data)
  | record (fields : List (String × Data))
deriving Inhabited

/-- Why data cannot be read. -/
structure DataError where
  expected : String
deriving DecidableEq, Repr

/-- Computations that read data. -/
abbrev ReadM := Except DataError

namespace Data

def expect {α : Type} (what : String) : ReadM α := throw ⟨what⟩

/-! ## Reading -/

def asNat : Data → ReadM Nat
  | .int value => pure value.toNat
  | _ => expect "number"

def asText : Data → ReadM String
  | .text value => pure value
  | _ => expect "text"

def asBool : Data → ReadM Bool
  | .bool value => pure value
  | _ => expect "truth value"

def asList : Data → ReadM (List Data)
  | .list items => pure items
  | _ => expect "list"

def asListOf {α : Type} (read : Data → ReadM α) (data : Data) : ReadM (List α) := do
  (← data.asList).mapM read

/-- A list of names that leads to an item. -/
def asPath (data : Data) : ReadM (List String) := data.asListOf asText

def asPair {α β : Type} (first : Data → ReadM α) (second : Data → ReadM β) :
    Data → ReadM (α × β)
  | .list [a, b] => return (← first a, ← second b)
  | _ => expect "pair"

/-- An optional part is written as `null` where it is absent. -/
def asOption {α : Type} (read : Data → ReadM α) : Data → ReadM (Option α)
  | .null => pure none
  | data => some <$> read data

/-- The field of a record, if the data is a record that has it. -/
def field? (name : String) : Data → Option Data
  | .record fields => fields.lookup name
  | _ => none

/-- The rest of a text after a leading mark. -/
def afterMark? (mark : Char) (text : String) : Option String :=
  match text.toList with
  | c :: rest => if c = mark then some (String.ofList rest) else none
  | [] => none

/-! ## Writing -/

def nat (n : Nat) : Data := .int n

/-- A form with parts. -/
def form (tag : String) (parts : List Data) : Data := .list (.text tag :: parts)

def path (names : List String) : Data := .list (names.map .text)

def option {α : Type} (write : α → Data) : Option α → Data
  | none => .null
  | some a => write a

end Data

end RowML
