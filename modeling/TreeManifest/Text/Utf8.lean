/-!
# UTF-8 octets

One pass cuts an octet sequence into pieces: a scalar value with its octets, or a longest ill-formed
part with the reason it is one. `decodeLossy` writes one U+FFFD for each ill-formed piece;
`decodeStrict` stops at the first. Both read the same pieces, so they agree on well-formed input.
-/

namespace TreeManifest.Text.Utf8

inductive Reason where
  /-- The octet can open no sequence. -/
  | invalidStart
  /-- An opened sequence meets an octet that cannot continue it. -/
  | invalidContinuation
  /-- The input ends inside a sequence. -/
  | truncated
  deriving DecidableEq, Repr

inductive Piece where
  | scalar (char : Char)
  /-- A longest ill-formed part: its first octet and how many octets it has. -/
  | illFormed (reason : Reason) (first : UInt8) (size : Nat)
  deriving DecidableEq, Repr

/-- A sequence that has been opened: the octets still owed, the range of the next one, and the
bits, first octet and length so far. -/
structure Opened where
  owed : Nat
  low : UInt8
  high : UInt8
  bits : Nat
  first : UInt8
  size : Nat
  deriving DecidableEq, Repr

/-- What a first octet announces. The narrowed ranges after E0, ED, F0 and F4 exclude overlong
forms, surrogates and values above U+10FFFF. -/
inductive Lead where
  | complete (char : Char)
  | opened (sequence : Opened)
  | invalid

def lead (b : UInt8) : Lead :=
  let n := b.toNat
  if n < 0x80 then .complete (Char.ofNat n)
  else if n < 0xC2 then .invalid
  else if n < 0xE0 then .opened ⟨1, 0x80, 0xBF, n - 0xC0, b, 1⟩
  else if n == 0xE0 then .opened ⟨2, 0xA0, 0xBF, 0, b, 1⟩
  else if n == 0xED then .opened ⟨2, 0x80, 0x9F, 13, b, 1⟩
  else if n < 0xF0 then .opened ⟨2, 0x80, 0xBF, n - 0xE0, b, 1⟩
  else if n == 0xF0 then .opened ⟨3, 0x90, 0xBF, 0, b, 1⟩
  else if n < 0xF4 then .opened ⟨3, 0x80, 0xBF, n - 0xF0, b, 1⟩
  else if n == 0xF4 then .opened ⟨3, 0x80, 0x8F, 4, b, 1⟩
  else .invalid

def Opened.push (s : Opened) (b : UInt8) : Opened :=
  ⟨s.owed - 1, 0x80, 0xBF, s.bits * 64 + (b.toNat - 0x80), s.first, s.size + 1⟩

def Opened.continues (s : Opened) (b : UInt8) : Bool := s.low ≤ b && b ≤ s.high

/-- The pieces of an input that starts inside the sequence `s`, or between sequences. An octet that
breaks a sequence is read again as a first octet. -/
def piecesFrom : Option Opened → List UInt8 → List Piece
  | none, [] => []
  | some s, [] => [.illFormed .truncated s.first s.size]
  | none, b :: rest => match lead b with
    | .complete c => .scalar c :: piecesFrom none rest
    | .opened s => piecesFrom (some s) rest
    | .invalid => .illFormed .invalidStart b 1 :: piecesFrom none rest
  | some s, b :: rest =>
    if s.continues b then
      let s' := s.push b
      if s'.owed = 0 then .scalar (Char.ofNat s'.bits) :: piecesFrom none rest
      else piecesFrom (some s') rest
    else .illFormed .invalidContinuation s.first s.size :: match lead b with
      | .complete c => .scalar c :: piecesFrom none rest
      | .opened s => piecesFrom (some s) rest
      | .invalid => .illFormed .invalidStart b 1 :: piecesFrom none rest

def pieces (octets : List UInt8) : List Piece := piecesFrom none octets

/-- The first ill-formed part of an input: which octets it covers and why. -/
structure Malformed where
  reason : Reason
  first : UInt8
  start : Nat
  size : Nat
  deriving DecidableEq, Repr

/-- One U+FFFD stands for each longest ill-formed part. -/
def decodeLossy (octets : List UInt8) : List Char :=
  (pieces octets).map fun
    | .scalar c => c
    | .illFormed .. => '\uFFFD'

def scanStrict (position : Nat) : List Piece → List Char × Option Malformed
  | [] => ([], none)
  | .scalar c :: rest =>
    let (cs, bad) := scanStrict (position + c.utf8Size) rest
    (c :: cs, bad)
  | .illFormed reason first size :: _ => ([], some ⟨reason, first, position, size⟩)

def decodeStrict (octets : List UInt8) : Except Malformed (List Char) :=
  match scanStrict 0 (pieces octets) with
  | (cs, none) => .ok cs
  | (_, some bad) => .error bad

def encode (text : String) : List UInt8 := text.toList.flatMap String.utf8EncodeChar

end TreeManifest.Text.Utf8
