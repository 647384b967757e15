import Weft.Bytecode.Constant
import Weft.Symbol.Record

/-!
# Compiled modules
-/

namespace Weft.Bytecode

/-- A function of a module and the position of its code. -/
structure FuncPos where
  name : String
  pos : Int
deriving DecidableEq, Repr, Inhabited

/-- A compiled module: its name and file, the modules it imports, its declarations, the constants, the code
for its initialisation and for its functions with their line maps, and where its functions start. -/
structure Compiled where
  version : Int
  name : String
  file : String
  imports : List String
  space : Option NamespaceRecord
  constants : List Constant
  init : Bytes
  code : Bytes
  initLines : List LinePos
  lines : List LinePos
  funcs : List FuncPos
deriving BEq, Inhabited

namespace Compiled

/-- The version of the format. -/
def formatVersion : Int := 1

/-- The position of the function with a name. -/
def funcPos? (m : Compiled) (name : String) : Option Int :=
  (m.funcs.find? fun f => f.name = name).map FuncPos.pos

end Compiled

end Weft.Bytecode
