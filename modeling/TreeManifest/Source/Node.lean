import TreeManifest.Text.Utf8

/-!
# Syntax trees

A node of a syntax tree: its type, whether the grammar names it, the octets of the file that it
covers, the row that it starts on, counted from zero, and its children in order. A file's tree is
the list of the children of its root.
-/

namespace TreeManifest.Source

def nonEmpty? (cs : List Char) : Option String :=
  if cs = [] then none else some (String.ofList cs)

structure Node where
  type : String
  named : Bool
  start : Nat
  stop : Nat
  row : Nat
  children : List Node
  deriving Inhabited

namespace Node

def chars (octets : List UInt8) (node : Node) : List Char :=
  Text.Utf8.decodeLossy ((octets.drop node.start).take (node.stop - node.start))

def text? (octets : List UInt8) (node : Node) : Option String := nonEmpty? (node.chars octets)

end Node

end TreeManifest.Source
