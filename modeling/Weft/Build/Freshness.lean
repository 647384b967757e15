import Weft.Build.Layout
import Weft.Cbor.Field
import Weft.Token.Lexer

/-!
# What is kept between builds

The cached module of a file is fresh if nothing that it was made from is newer than it: the file itself,
every file that it imports, directly or not, and the compiler.
-/

namespace Weft.Build

/-- What decides about the cached module of a source: when the source was changed, if it could be looked at,
whether it is free of problems, the places of the sources it imports, if all are known, and when its
module was cached, if it was. -/
structure Standing where
  source : Source
  time : Option Int
  sound : Bool
  imports : Option (List String)
  cacheTime : Option Int
deriving Repr, Inhabited

/-- The places that are reached from a frontier by following the imports of each place, in at most so many
rounds, with those that were reached before. -/
def reach (next : String → List String) : Nat → List String → List String → List String
  | 0, _, seen => seen
  | n + 1, frontier, seen =>
    let new := ((frontier.flatMap next).filter fun p => !seen.contains p).eraseDups
    if new.isEmpty then seen else reach next n new (seen ++ new)

/-- What is known about the source at a place. -/
def standing? (all : List Standing) (place : String) : Option Standing :=
  all.find? fun s => s.source.place = place

/-- The places of the sources that a place imports. -/
def importsOf (all : List Standing) (place : String) : List String :=
  ((standing? all place).bind Standing.imports).getD []

/-- The places of a source and of those that it imports, directly or not. Every round but the last finds a
source, so there are at most as many rounds as sources. -/
def closure (all : List Standing) (place : String) : List String :=
  reach (importsOf all) all.length [place] [place]

/-- Whether a time is known and not after another. -/
def notAfter (time : Option Int) (limit : Int) : Bool := time.any (· ≤ limit)

/-- Whether a source leaves a module usable that was cached at a time: it is not newer, and it is known what
it imports. -/
def Standing.allows (cached : Int) (s : Standing) : Bool := s.imports.isSome && notAfter s.time cached

/-- Whether the cached module of a source is fresh, with the time of the compiler. A compiler whose time is
not known is newer than everything. -/
def isFresh (compiler : Option Int) (all : List Standing) (s : Standing) : Bool :=
  match s.cacheTime with
  | none => false
  | some t => s.sound && s.allows t && notAfter compiler t &&
      (closure all s.source.place).all fun p => (standing? all p).any (Standing.allows t)

/-! ## Lists of imports

The imports of a source text are found without reading it as a program, and are kept between builds as a
record of their own.
-/

open Cbor

/-- The paths in tokens that follow the word for an import. -/
def importPaths : List Token → List String
  | a :: b :: rest =>
    if a.kind = .kwImport ∧ b.kind = .string then b.text :: importPaths (b :: rest)
    else importPaths (b :: rest)
  | _ => []

/-- The paths that a source text imports. -/
def scanImports (src : Bytes) : List String := importPaths (Token.scan src)

/-- The bytes of a list of imports. -/
def encodeImports (paths : List String) : Bytes :=
  (Item.record [Item.listField (paths.map .ofString)]).encode

/-- The list of imports in a byte sequence. -/
def decodeImports? (b : Bytes) : Option (List String) := do
  let fields ← (← Cbor.decode? b).record?
  (fieldOf fields 1).list? Item.string?

end Weft.Build
