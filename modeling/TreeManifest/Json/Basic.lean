import TreeManifest.Mapping

/-!
# JSON values

Values keep the order of their members and tell integers from decimals. An object is read as an
ordered mapping: a repeated key keeps its first place and its last value.
-/

namespace TreeManifest

inductive Json where
  | null
  | bool (value : Bool)
  | int (value : Int)
  | float (value : Float)
  | str (value : String)
  | arr (items : List Json)
  | obj (members : List (String × Json))
  deriving Inhabited

namespace Json

def member? (key : String) : Json → Option Json
  | obj members => Mapping.get? key members
  | _ => none

end Json

end TreeManifest
