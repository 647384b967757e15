/-!
# Settings as tables of values

The meaning of a settings file: tables of named values, which a file fills line by line. A header opens a
table, or another table of a list of them; an entry gives a value to a key below the open table. A table
that was only named on the way to another one may still be opened once, and a key that holds a list may be
given again; everything else may be given once.
-/

namespace Weft.Toml

/-- A value. Of numbers with a fraction and of points in time only the kind is kept. -/
inductive Value where
  | string (s : String)
  | int (n : Int)
  | bool (b : Bool)
  | float
  | time
  | array (items : List Value)
  | table (entries : List (String × Value))
  | tables (items : List (List (String × Value)))
deriving Inhabited

/-- Named values in the order they were given. -/
abbrev Table := List (String × Value)

/-- Give a name another value. -/
def Table.set (t : Table) (name : String) (v : Value) : Table :=
  t.map fun e => if e.1 = name then (name, v) else e

/-- The tables filled so far, the tables that were only named on the way, and the keys that hold lists. -/
structure Document where
  root : Table
  implicit : List (List String)
  lists : List (List String)
deriving Inhabited

namespace Document

/-- A document without entries. -/
def empty : Document := ⟨[], [], []⟩

/-- Change the table at a path; of a list of tables the last one is meant. -/
def change (f : Table → Option Table) : List String → Table → Option Table
  | [], t => f t
  | name :: path, t =>
    match t.lookup name with
    | some (.table u) => (change f path u).map fun u => Table.set t name (.table u)
    | some (.tables us) =>
      match us.getLast? with
      | some u => (change f path u).map fun u => Table.set t name (.tables (us.dropLast ++ [u]))
      | none => none
    | _ => none

/-- Whether a name has a value in the table at a path. -/
def has (d : Document) (path : List String) (name : String) : Bool :=
  (change (fun t => if (t.lookup name).isSome then some t else none) path d.root).isSome

/-- Give a name in the table at a path a value. A table that was only named on the way stays as it is, but
not if it is given as one value. -/
def assign (d : Document) (path : List String) (name : String) (v : Value) (whole : Bool) :
    Option Document := do
  let key := path ++ [name]
  let known := d.has path name
  let root ← change (fun t =>
    if !known then some (t ++ [(name, v)])
    else if d.lists.contains key then some (Table.set t name v)
    else if d.implicit.contains key ∧ !whole then some t
    else none) path d.root
  return { d with root, implicit := if known ∨ whole then d.implicit.erase key else d.implicit }

/-- Make the tables on the way to a key, from a path on. -/
def ensure (d : Document) (path : List String) : List String → Option Document
  | [] | [_] => some d
  | name :: rest => do
    let key := path ++ [name]
    let d ←
      if d.has path name then some d
      else do
        let root ← change (fun t => some (t ++ [(name, .table [])])) path d.root
        some { d with root, implicit := key :: d.implicit }
    ensure d key rest

/-- Open the table with a key. -/
def openTable (d : Document) (key : List String) : Option Document := do
  let d ← d.ensure [] key
  let d ← d.assign key.dropLast (key.getLastD "") (.table []) false
  return { d with lists := d.lists.erase key }

/-- Open another table of the list of tables with a key. -/
def openNext (d : Document) (key : List String) : Option Document := do
  let d ← d.ensure [] key
  let name := key.getLastD ""
  let root ← change (fun t =>
    match t.lookup name with
    | none => some (t ++ [(name, .tables [[]])])
    | some (.tables us) => some (Table.set t name (.tables (us ++ [[]])))
    | some _ => none) key.dropLast d.root
  return { d with root, lists := d.lists.erase key }

/-- Open the tables that a dotted key names, one after the other. -/
def openDotted (d : Document) (path : List String) : List String → Option Document
  | [] | [_] => some d
  | name :: rest => do
    let key := path ++ [name]
    let d ← openTable { d with implicit := key :: d.implicit.erase key } key
    openDotted d key rest

/-- Give a dotted key below an open table a value. -/
def entry (d : Document) (context key : List String) (v : Value) : Option Document := do
  let d ← d.openDotted context key
  let path := context ++ key.dropLast
  let name := key.getLastD ""
  let full := path ++ [name]
  match v with
  | .array _ => assign { d with lists := full :: d.lists.erase full } path name v false
  | .table _ => do
    let d ← d.assign path name v true
    return { d with lists := d.lists.erase full }
  | _ => do
    let d ← d.assign path name v false
    return { d with lists := d.lists.erase full }

end Document

/-- A line of a settings file. -/
inductive Line where
  | header (key : List String)
  | next (key : List String)
  | entry (key : List String) (v : Value)
deriving Inhabited

/-- The document of a list of lines, with the key of the table that is open. -/
def Document.fill (d : Document) (context : List String) : List Line → Option Document
  | [] => some d
  | .header key :: rest => do fill (← d.openTable key) key rest
  | .next key :: rest => do fill (← d.openNext key) key rest
  | .entry key v :: rest => do fill (← d.entry context key v) context rest

/-- The table of a list of lines. -/
def tableOf? (lines : List Line) : Option Table := (Document.empty.fill [] lines).map Document.root

end Weft.Toml
