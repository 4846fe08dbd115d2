/-!
# Symbol tables

A symbol table numbers strings in the order in which they are first seen.  The empty string is
always symbol 0.
-/

namespace RowML

structure SymbolTable where
  texts : Array String
deriving Repr, Inhabited

namespace SymbolTable

def empty : SymbolTable := ⟨#[""]⟩

def size (table : SymbolTable) : Nat := table.texts.size

/-- A table is empty while it holds nothing but the empty string. -/
def isEmpty (table : SymbolTable) : Bool := table.size ≤ 1

def find? (table : SymbolTable) (text : String) : Option Nat :=
  table.texts.toList.findIdx? (· == text)

/-- The number of `text`, which is entered at the end if it is new. -/
def insert (table : SymbolTable) (text : String) : Nat × SymbolTable :=
  match table.find? text with
  | some symbol => (symbol, table)
  | none => (table.size, ⟨table.texts.push text⟩)

/-- The text of a symbol; a number that was never given out has the text `<?>`. -/
def text (table : SymbolTable) (symbol : Nat) : String := (table.texts[symbol]?).getD "<?>"

end SymbolTable

end RowML
