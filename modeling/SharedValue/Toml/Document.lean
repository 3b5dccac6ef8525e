import SharedValue.Registry
import SharedValue.Toml.Token

/-!
# TOML documents

A document is a tree of tables. Headers and dotted keys may only add to what was opened for
adding: a table is defined by one header, a key is given once, and a table that came about
through dotted keys is not extended by others. Each table therefore remembers how it came about
(`Form`). Arrays and inline tables are complete when they are read, and nothing is ever added to
them, so of a value only the integer is kept.
-/

namespace SharedValue.Toml

open Text (expect?)

/-- How a table came about. -/
inductive Form
  /-- By a header of its own. -/
  | header
  /-- On the way to a table that a header names. -/
  | passed
  /-- On the way to a value that a dotted key names. -/
  | dotted
  deriving DecidableEq

/-- What a key stands for. -/
inductive Node
  /-- A value, with its number if it is an integer. -/
  | value (integer : Option Int64)
  | table (form : Form) (entries : List (String × Node))
  /-- Tables under one repeated header, in order. -/
  | tables (elements : List (List (String × Node)))

/-- The keys of a table with what they stand for. -/
abbrev Entries := Registry Node

/-- How deep values may be nested and how many keys a path may have. -/
def nestingLimit : Nat := 80

/-- Changes the table at the end of a path, tables on the way being made where there are none.
The last one of several tables under one header is the one that is entered. A path of a dotted
key does not lead into a table that has a header of its own. -/
def modifyAt (dotted : Bool) (change : Form → Entries → Option Entries) :
    (path : List String) → Form → Entries → Option Entries
  | [], form, entries => change form entries
  | key :: path, _, entries =>
    match Registry.get? entries key with
    | none => do
      let form := if dotted then .dotted else .passed
      let inner ← modifyAt dotted change path form []
      return Registry.set entries key (.table form inner)
    | some (.table form inner) =>
      if dotted ∧ form = .header then none
      else do
        let inner ← modifyAt dotted change path form inner
        return Registry.set entries key (.table form inner)
    | some (.tables elements) => do
      let inner ← modifyAt dotted change path .header (elements.getLast?.getD [])
      return Registry.set entries key (.tables (elements.dropLast ++ [inner]))
    | some (.value _) => none

/-- Gives a key that a path leads to, which must be new. A table that dotted keys made takes
only dotted keys, and any other only plain ones. -/
def define (path : List String) (key : String) (n : Node) (form : Form) (entries : Entries) :
    Option Entries :=
  modifyAt true (fun form entries ↦
    if decide (form = .dotted) = path.isEmpty then none
    else if Registry.has entries key then none
    else some (entries ++ [(key, n)])) path form entries

/-- Opens the table that a header names. -/
def openTable (path : List String) (key : String) (root : Entries) : Option Entries :=
  modifyAt false (fun _ entries ↦
    match Registry.get? entries key with
    | none => some (entries ++ [(key, .table .header [])])
    | some (.table .passed inner) => some (Registry.set entries key (.table .header inner))
    | some _ => none) path .header root

/-- Opens one more table under a repeated header. -/
def openElement (path : List String) (key : String) (root : Entries) : Option Entries :=
  modifyAt false (fun _ entries ↦
    match Registry.get? entries key with
    | none => some (entries ++ [(key, .tables [[]])])
    | some (.tables elements) => some (Registry.set entries key (.tables (elements ++ [[]])))
    | some _ => none) path .header root

/-- Splits a path into what leads to its last key and that key. -/
def splitPath (path : List String) : List String × String :=
  (path.dropLast, path.getLast?.getD "")

/-! ### Values -/

mutual

/-- A value: a scalar, an array or an inline table. -/
def readValue : (fuel depth : Nat) → Reader (Option Int64)
  | 0, _, _ => none
  | fuel + 1, depth, '[' :: cs =>
    if depth + 1 < nestingLimit then
      (readItems fuel (depth + 1) true cs).map (none, ·)
    else none
  | fuel + 1, depth, '\x7b' :: cs =>
    if depth + 1 < nestingLimit then
      match skipBlanks cs with
      | '\x7d' :: rest => some (none, rest)
      | cs => (readInline fuel (depth + 1) [] cs).map (none, ·)
    else none
  | _ + 1, _, cs => scalar? cs

/-- The text after the items of an array and its end. -/
def readItems : (fuel depth : Nat) → (first : Bool) → List Char → Option (List Char)
  | 0, _, _, _ => none
  | fuel + 1, depth, first, cs => do
    match ← skipTrivia cs.length cs with
    | ']' :: rest => return rest
    | cs =>
      let cs ← if first then some cs else expect? [','] cs >>= fun cs ↦ skipTrivia cs.length cs
      match cs with
      | ']' :: rest => if first then none else return rest
      | cs =>
        let (_, cs) ← readValue fuel depth cs
        readItems fuel depth false cs

/-- The text after the pairs of an inline table and its end; `entries` are those before. -/
def readInline : (fuel depth : Nat) → Entries → List Char → Option (List Char)
  | 0, _, _, _ => none
  | fuel + 1, depth, entries, cs => do
    let (path, cs) ← path? (cs.length + 1) cs
    let cs ← expect? ['='] cs
    let (v, cs) ← readValue fuel depth (skipBlanks cs)
    let (front, key) := splitPath path
    let entries ← if path.length < nestingLimit then define front key (.value v) .header entries
      else none
    match skipBlanks cs with
    | ',' :: cs => readInline fuel depth entries cs
    | '\x7d' :: cs => return cs
    | _ => none

end

/-! ### Documents -/

/-- One expression: a table header, or a key with its value. Gives the tables after it and the
path of the table that is open then. -/
def readExpression (root : Entries) (current : List String) (cs : List Char) :
    Option ((Entries × List String) × List Char) :=
  let fuel := 2 * cs.length + 2
  match cs with
  | '[' :: '[' :: cs => do
    let (path, cs) ← path? fuel cs
    let cs ← expect? [']', ']'] cs >>= endExpression?
    let (front, key) := splitPath path
    if path.length < nestingLimit then return ((← openElement front key root, path), cs) else none
  | '[' :: cs => do
    let (path, cs) ← path? fuel cs
    let cs ← expect? [']'] cs >>= endExpression?
    let (front, key) := splitPath path
    if path.length < nestingLimit then return ((← openTable front key root, path), cs) else none
  | cs => do
    let (path, cs) ← path? fuel cs
    let cs ← expect? ['='] cs
    let (v, cs) ← readValue fuel 0 (skipBlanks cs)
    let cs ← endExpression? cs
    let (front, key) := splitPath path
    if path.length < nestingLimit then
      return ((← modifyAt false (define front key (.value v)) current .header root, current), cs)
    else none

/-- The expressions of a document, one a line. -/
def readExpressions : (fuel : Nat) → Entries → List String → List Char → Option Entries
  | 0, _, _, _ => none
  | fuel + 1, root, current, cs =>
    match skipBlanks cs with
    | [] => some root
    | '#' :: rest => endExpression? ('#' :: rest) >>= readExpressions fuel root current
    | cs =>
      match lineEnd? cs with
      | some rest => readExpressions fuel root current rest
      | none => do
        let ((root, current), cs) ← readExpression root current cs
        readExpressions fuel root current cs

/-- The tables of a document, which may begin with a byte order mark. -/
def read (text : String) : Option Entries :=
  let cs :=
    match text.toList with
    | '\uFEFF' :: cs => cs
    | cs => cs
  readExpressions (cs.length + 1) [] [] cs

end SharedValue.Toml
