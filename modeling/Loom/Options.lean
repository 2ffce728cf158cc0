import Loom.Json.Reader
import Loom.Json.Record
import Loom.Text

/-!
Options of a parse, and the part of them that the script parser needs.
-/

namespace Loom

/-- How a script is run. -/
inductive SourceType where
  | module
  | script
deriving DecidableEq, Repr, Inhabited

namespace SourceType

def all : List SourceType := [.module, .script]

def name : SourceType → String
  | .module => "module"
  | .script => "script"

end SourceType

/-- What the script parser is told about the text. -/
structure HostOptions where
  sourceType : SourceType
  ecmaVersion : Nat
  typescript : Bool
deriving DecidableEq, Repr, Inhabited

structure Options where
  filePath : String
  sourceType : SourceType
  ecmaVersion : Nat
  /-- Forces runes mode on or off; it is detected when unset. -/
  runes : Option Bool
  configSource : Option String
deriving DecidableEq, Repr

namespace Options

def standard : Options := ⟨"<input>", .module, 2022, none, none⟩

instance : Inhabited Options := ⟨standard⟩

def hostOptions (o : Options) (typescript : Bool) : HostOptions :=
  ⟨o.sourceType, o.ecmaVersion, typescript⟩

open Json (defaulted nullable)

/-- Reads options from JSON; every field has a default, language versions fit 32 bits. -/
def ofJson? (j : Json) : Option Options := do
  match ← j.fields? ["filePath", "sourceType", "ecmaVersion", "runes", "configSource"] with
  | [filePath, sourceType, ecmaVersion, runes, configSource] =>
    some {
      filePath := ← defaulted standard.filePath Json.string? filePath
      sourceType :=
        ← defaulted standard.sourceType (Json.oneOf .streamed SourceType.all SourceType.name)
          sourceType
      ecmaVersion := ← defaulted standard.ecmaVersion (Json.natBelow? UInt32.size) ecmaVersion
      runes := ← defaulted standard.runes (nullable Json.bool?) runes
      configSource := ← defaulted standard.configSource (nullable Json.string?) configSource
    }
  | _ => none

def read? (text : Text) : Option Options := (Json.read? text).bind ofJson?

end Options

end Loom
