import TreeManifest.Text.Blank

/-!
# Lines

Two notions of line. Files are read with every line ending turned into a line feed
(`unifyLineEnds`); comments are split at every character that ends a line in any script
(`splitLines`), which are more.
-/

namespace TreeManifest.Text

/-- Carriage returns, alone or before a line feed, become line feeds. -/
def unifyLineEnds : List Char → List Char
  | [] => []
  | '\r' :: '\n' :: rest => '\n' :: unifyLineEnds rest
  | '\r' :: rest => '\n' :: unifyLineEnds rest
  | c :: rest => c :: unifyLineEnds rest

/-- The characters that end a line: the vertical controls, the file, group and record separators,
the next-line control and the two Unicode separators. -/
def isLineEnd (c : Char) : Bool :=
  let n := c.toNat
  (0x0A ≤ n && n ≤ 0x0D) || (0x1C ≤ n && n ≤ 0x1E) || n == 0x85 || n == 0x2028 || n == 0x2029

/-- The lines of a text without their ends; a final line end opens no further line. -/
def splitLines : List Char → List (List Char)
  | [] => []
  | '\r' :: '\n' :: rest => [] :: splitLines rest
  | c :: rest =>
    if isLineEnd c then [] :: splitLines rest
    else match splitLines rest with
      | [] => [[c]]
      | line :: lines => (c :: line) :: lines

def linesWithEnds : List Char → List (List Char)
  | [] => []
  | '\n' :: rest => ['\n'] :: linesWithEnds rest
  | c :: rest => match linesWithEnds rest with
    | [] => [[c]]
    | line :: lines => (c :: line) :: lines

theorem not_mem_cr_unifyLineEnds (cs : List Char) : '\r' ∉ unifyLineEnds cs := by
  fun_induction unifyLineEnds cs with
  | case4 c rest _ h ih => simp only [List.mem_cons, not_or]; exact ⟨fun e => h e.symm, ih⟩
  | _ => simp_all

theorem unifyLineEnds_eq_self {cs : List Char} (h : '\r' ∉ cs) : unifyLineEnds cs = cs := by
  fun_induction unifyLineEnds cs <;> simp_all

end TreeManifest.Text
