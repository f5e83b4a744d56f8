import TreeManifest.Decimal.Shortest
import TreeManifest.Json.Basic
import TreeManifest.Text.Quoted

/-!
# Printed JSON

Two layouts: `compact`, without any blank outside strings, and `indented`, two columns to a level.
Strings keep every character but the quote, the backslash and the controls below the space.
-/

namespace TreeManifest.Json

/-- Doubles that are not numbers have names that readers of this library accept. -/
def numberStyle : Decimal.Style := ⟨"NaN", "Infinity"⟩

def escapeChar (c : Char) : List Char :=
  if c = '"' then ['\\', '"']
  else if c = '\\' then ['\\', '\\']
  else if c = '\n' then ['\\', 'n']
  else if c = '\r' then ['\\', 'r']
  else if c = '\t' then ['\\', 't']
  else if c = '\x08' then ['\\', 'b']
  else if c = '\x0c' then ['\\', 'f']
  else if c.toNat < 0x20 then '\\' :: 'u' :: Text.hexDigits 4 c.toNat
  else [c]

def printString (text : String) : List Char :=
  '"' :: text.toList.flatMap escapeChar ++ ['"']

def printInt (n : Int) : List Char :=
  if n < 0 then '-' :: Nat.toDigits 10 n.natAbs else Nat.toDigits 10 n.natAbs

def printScalar : Json → List Char
  | null => "null".toList
  | bool true => "true".toList
  | bool false => "false".toList
  | int n => printInt n
  | float x => (numberStyle.render x).toList
  | str s => printString s
  | arr _ => "[]".toList
  | obj _ => "\x7b\x7d".toList

mutual

def compactChars : Json → List Char
  | arr [] => ['[', ']']
  | arr (item :: items) => '[' :: compactChars item ++ compactItems items ++ [']']
  | obj [] => ['{', '}']
  | obj ((key, value) :: members) =>
    '{' :: printString key ++ ':' :: compactChars value ++ compactMembers members ++ ['}']
  | value => printScalar value

def compactItems : List Json → List Char
  | [] => []
  | item :: items => ',' :: compactChars item ++ compactItems items

def compactMembers : List (String × Json) → List Char
  | [] => []
  | (key, value) :: members =>
    ',' :: printString key ++ ':' :: compactChars value ++ compactMembers members

end

def newLine (level : Nat) : List Char := '\n' :: List.replicate (2 * level) ' '

mutual

def indentedChars (level : Nat) : Json → List Char
  | arr [] => ['[', ']']
  | arr (item :: items) =>
    '[' :: newLine (level + 1) ++ indentedChars (level + 1) item ++ indentedItems level items
  | obj [] => ['{', '}']
  | obj ((key, value) :: members) =>
    '{' :: newLine (level + 1) ++ printString key ++ ':' :: ' ' ::
      indentedChars (level + 1) value ++ indentedMembers level members
  | value => printScalar value

def indentedItems (level : Nat) : List Json → List Char
  | [] => newLine level ++ [']']
  | item :: items =>
    ',' :: newLine (level + 1) ++ indentedChars (level + 1) item ++ indentedItems level items

def indentedMembers (level : Nat) : List (String × Json) → List Char
  | [] => newLine level ++ ['}']
  | (key, value) :: members =>
    ',' :: newLine (level + 1) ++ printString key ++ ':' :: ' ' ::
      indentedChars (level + 1) value ++ indentedMembers level members

end

def compact (value : Json) : String := String.ofList (compactChars value)

def indented (value : Json) : String := String.ofList (indentedChars 0 value)

end TreeManifest.Json
