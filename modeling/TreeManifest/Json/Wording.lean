import TreeManifest.Json.Basic
import TreeManifest.Decimal.Shortest
import TreeManifest.Text.Quoted

/-!
# Values in running text

How a value that a provider sent reads inside a sentence or a manifest: text stands for itself, and
inside a list or a record it is quoted. Records are what JSON objects are read as.
-/

namespace TreeManifest.Json

def kindName : Json → String
  | null => "NoneType"
  | bool _ => "bool"
  | int _ => "int"
  | float _ => "float"
  | str _ => "str"
  | arr _ => "list"
  | obj _ => "types.SimpleNamespace"

mutual

def quotedText : Json → String
  | null => "None"
  | bool true => "True"
  | bool false => "False"
  | int n => toString n
  | float x => Decimal.textStyle.render x
  | str s => Text.quote s
  | arr items => "[" ++ String.intercalate ", " (quotedItems items) ++ "]"
  | obj members => "namespace(" ++ String.intercalate ", " (quotedMembers members) ++ ")"

def quotedItems : List Json → List String
  | [] => []
  | item :: items => quotedText item :: quotedItems items

def quotedMembers : List (String × Json) → List String
  | [] => []
  | (key, value) :: members => (key ++ "=" ++ quotedText value) :: quotedMembers members

end

def runningText : Json → String
  | str s => s
  | value => quotedText value

/-- Whether a value counts as given: not null, false, zero, or empty text or list. -/
def isGiven : Json → Bool
  | null => false
  | bool b => b
  | int n => n ≠ 0
  | float x => !(x == 0.0)
  | str s => s ≠ ""
  | arr items => !items.isEmpty
  | obj _ => true

end TreeManifest.Json
