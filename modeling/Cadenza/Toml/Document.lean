import Cadenza.Toml.Value

/-!
# TOML documents

A document is a list of tables, each under a header of keys. Read as a tree, tables whose headers
start alike lie in one table, and tables of one header in double brackets follow each other in a
list. The header that opens a table must not stand again, and a list must not stand under a name
that holds a table.
-/

namespace Cadenza.Toml

set_option autoImplicit false

/-- Entries under a header; the entries before all headers are under the empty one. -/
structure Table where
  header : List String
  listed : Bool
  entries : List (String × Value)

inductive Item where
  | value (v : Value)
  | table (entries : List (String × Item))
  | tables (elements : List (List (String × Item)))

def header? (ts : List Token) : Option (Table × List Token) := do
  let double := skipMark? .leftBracket ts
  let (keys, afterKeys) ← keys? (skipBlanks (double.getD ts))
  let afterFirst ← skipMark? .rightBracket afterKeys
  let closed ← if double.isSome then skipMark? .rightBracket afterFirst else some afterFirst
  let rest ← skipLineEnd? (skipBlanks closed)
  some (⟨keys, double.isSome, []⟩, rest)

def entry? (ts : List Token) : Option (List String × Value × List Token) := do
  let (keys, afterKeys) ← entryKeys? ts
  let (v, afterValue) ← readValue? afterKeys
  let rest ← skipLineEnd? (skipBlanks afterValue)
  some (keys, v, rest)

def readTables? : Nat → List Table → Table → List Token → Option (List Table)
  | 0, _, _, _ => none
  | bound + 1, done, current, ts => do
      match ← skipGaps ts with
      | [] => some (done ++ [current])
      | .leftBracket :: rest =>
          let (next, after) ← header? rest
          readTables? bound (done ++ [current]) next after
      | line =>
          let (keys, v, after) ← entry? line
          let entries ← insert? keys v current.entries
          readTables? bound done { current with entries } after

/-- The tables of a text in their order. A text that starts with a header has no table before it. -/
def tables? (text : String) : Option (List Table) := do
  let ts ← tokens? text
  let tables ← readTables? (ts.length + 1) [] ⟨[], false, []⟩ ts
  some (tables.filter fun t => !t.header.isEmpty || !t.entries.isEmpty)

def Table.key? (t : Table) : Option String :=
  t.header.head?

def Table.inside (t : Table) : Table :=
  { t with header := t.header.drop 1 }

def Table.isHere (t : Table) : Bool :=
  t.header.isEmpty

def Table.ownItems (t : Table) : List (String × Item) :=
  t.entries.map fun (key, v) => (key, .value v)

/-- Whether the header of the first table stands twice. A header after longer ones may do so. -/
def startsTwice : List Table → Bool
  | [] => false
  | t :: rest => t.isHere && rest.any Table.isHere

mutual

/-- The tree below a common start of headers, which the tables no longer show. -/
def tree? : Nat → List Table → Option (List (String × Item))
  | 0, _ => none
  | bound + 1, ts => if startsTwice ts then none else join? bound ts

/-- Joins what tables say: those whose header ends here give entries, the others go by their next
key. -/
def join? : Nat → List Table → Option (List (String × Item))
  | 0, _ => none
  | _ + 1, [] => some []
  | bound + 1, t :: rest =>
      match t.key? with
      | none => if t.listed then none else (join? bound rest).map (t.ownItems ++ ·)
      | some key => do
          let below := (t :: rest.filter (·.key? == some key)).map Table.inside
          let item ←
            if t.listed && t.inside.isHere then (elements? bound below).map Item.tables
            else (tree? bound below).map Item.table
          let others ← join? bound (rest.filter (·.key? != some key))
          some ((key, item) :: others)

/-- The elements of a list of tables: each starts with a table in double brackets, and takes in what
stands before the next of these. -/
def elements? : Nat → List Table → Option (List (List (String × Item)))
  | 0, _ => none
  | _ + 1, [] => some []
  | bound + 1, t :: rest => do
      let starts (t : Table) : Bool := t.listed && t.isHere
      let inner := rest.takeWhile fun t => !starts t
      let later := rest.dropWhile fun t => !starts t
      if inner.any Table.isHere then none
      else
        let below ← join? bound inner
        let elements ← elements? bound later
        some ((t.ownItems ++ below) :: elements)

end

/-- Reads the tables of a document as a tree. Of two steps in a row, one goes past a table or past
a key. -/
def nest? (tables : List Table) : Option (List (String × Item)) :=
  tree? (2 * tables.foldl (fun bound t => bound + t.header.length + 1) 0 + 2) tables

end Cadenza.Toml
