import Weft.Disk

/-!
# Files in memory

A file system held as a list of places, each a file with its contents and the time of its last change, or
a directory. What is written gets the present time. A path is followed part by part, and every part but
the last has to be a directory.
-/

namespace Weft

/-- A file or a directory. -/
inductive Node where
  | file (content : Bytes) (time : Int)
  | directory
deriving DecidableEq, Repr, Inhabited

/-- Files in memory: the directory that relative paths are looked at from, the present time, and what
stands at each place. A place is given by the names on the way from the root. -/
structure Memory where
  directory : String
  now : Int
  nodes : List (List String × Node)
deriving Inhabited

namespace Memory

/-- What stands at a place. -/
def node? (m : Memory) (place : List String) : Option Node := m.nodes.lookup place

/-- Put something at a place. -/
def put (m : Memory) (place : List String) (n : Node) : Memory :=
  { m with nodes := (place, n) :: m.nodes.filter fun e => e.1 ≠ place }

/-- Files in memory with nothing but the directory to look at paths from, and those above it. -/
def new (directory : String) : Memory :=
  let ps := Path.parts directory
  { directory, now := 0, nodes := (List.range (ps.length + 1)).map fun i => (ps.take i, .directory) }

/-- Follow the parts of a path from a place on. -/
def follow (m : Memory) (place : List String) : List String → Except Cause (List String)
  | [] => .ok place
  | part :: rest =>
    match m.node? place with
    | none => .error .missing
    | some (.file ..) => .error .notDirectory
    | some .directory =>
      if part = "" ∨ part = "." then follow m place rest
      else if part = ".." then follow m place.dropLast rest
      else follow m (place ++ [part]) rest

/-- The place that a path means. -/
def locate (m : Memory) (p : String) : Except Cause (List String) :=
  if p = "" then .error .missing
  else m.follow (if Path.isAbsolute p then [] else Path.parts m.directory) (Text.pieces '/' p)

/-- What stands at a path. -/
def find (m : Memory) (p : String) : Except Cause Node :=
  match m.locate p with
  | .error c => .error c
  | .ok place =>
    match m.node? place with
    | some n => .ok n
    | none => .error .missing

/-- The contents of a file. -/
def read (m : Memory) (p : String) : Except Fault Bytes :=
  match m.find p with
  | .error c => .error ⟨"open", p, c⟩
  | .ok .directory => .error ⟨"read", p, .isDirectory⟩
  | .ok (.file content _) => .ok content

/-- Write a file. -/
def write (m : Memory) (p : String) (content : Bytes) : Except Fault Memory :=
  match m.locate p with
  | .error c => .error ⟨"open", p, c⟩
  | .ok place =>
    if m.node? place = some .directory then .error ⟨"open", p, .isDirectory⟩
    else .ok (m.put place (.file content m.now))

/-- Make the directories of a list of paths, unless they are there. -/
def makeAll (m : Memory) : List String → Except Fault Memory
  | [] => .ok m
  | p :: rest =>
    match m.find p with
    | .ok .directory => makeAll m rest
    | .ok (.file ..) => .error ⟨"mkdir", p, .notDirectory⟩
    | .error _ =>
      match m.locate p with
      | .error c => .error ⟨"mkdir", p, c⟩
      | .ok place => makeAll (m.put place .directory) rest

/-- Make a directory and those above it. -/
def makeDirectory (m : Memory) (p : String) : Except Fault Memory := m.makeAll (Path.stages p)

/-- The names in a directory in order. -/
def names (m : Memory) (p : String) : Except Fault (List String) :=
  match m.locate p with
  | .error c => .error ⟨"open", p, c⟩
  | .ok place =>
    let inside := m.nodes.filterMap fun (q, _) =>
      if q ≠ [] ∧ q.dropLast = place then q.getLast? else none
    .ok (inside.mergeSort fun a b => a ≤ b)

/-- Write a file with a time of its own, in directories that are made for it. -/
def store (m : Memory) (p : String) (content : Bytes) (time : Int) : Memory :=
  let m := (m.makeDirectory (Path.parent p)).toOption.getD m
  match m.locate p with
  | .ok place => m.put place (.file content time)
  | .error _ => m

/-- Give a file another time. -/
def touch (m : Memory) (p : String) (time : Int) : Memory :=
  match m.find p with
  | .ok (.file content _) => m.store p content time
  | _ => m

/-- Remove what stands at a path and all that is inside it. -/
def remove (m : Memory) (p : String) : Memory :=
  match m.locate p with
  | .ok place => { m with nodes := m.nodes.filter fun e => !place.isPrefixOf e.1 }
  | .error _ => m

end Memory

/-- A computation on files in memory. -/
abbrev InMemory := StateM Memory

/-- Run an operation that changes the files unless it fails. -/
def InMemory.change (f : Memory → Except Fault Memory) : InMemory (Except Fault PUnit) := fun m =>
  match f m with
  | .ok m => (.ok ⟨⟩, m)
  | .error e => (.error e, m)

/-- Files in memory as a file system. A directory counts as changed at the present time. -/
instance : Disk InMemory where
  directory := return (← get).directory
  stat p := do
    match (← get).find p with
    | .ok (.file _ time) => return .ok ⟨time, false⟩
    | .ok .directory => return .ok ⟨(← get).now, true⟩
    | .error c => return .error c
  read p := return (← get).read p
  write p b := InMemory.change (·.write p b)
  makeDirectory p := InMemory.change (·.makeDirectory p)
  names p := return (← get).names p
  programTime := return none
  bound := return (← get).nodes.length

end Weft
