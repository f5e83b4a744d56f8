import TreeManifest.Event
import TreeManifest.Prompt.Request
import TreeManifest.Usage

/-!
# Model clients

A client answers a request with a stream of tagged pieces, which ends or breaks off with a failure.
Its answer may depend on what it was asked before, which its state keeps.
-/

namespace TreeManifest

inductive Chunk where
  | text (text : String)
  /-- A piece that is tagged as text and holds a value of another kind. -/
  | notText (kind : String)
  | reasoning (text : String)
  | usage (usage : CallUsage)
  /-- A piece that lacks an attribute which its tag promises. -/
  | lacking (name : String)
  /-- A piece of another kind, which nobody looks at. -/
  | other

/-- An answer: its pieces in order, what the client notes while it sends them, and the failure that
breaks the stream off after them. -/
structure Reply where
  chunks : List Chunk
  events : List Event
  failure : Option Failure

abbrev Client (σ : Type) := Request → σ → Reply × σ

/-- A client that plays answers by the number of the call: its state counts the calls. -/
def Client.scripted (answers : Nat → Reply) : Client Nat := fun _ n => (answers n, n + 1)

end TreeManifest
