/-!
# Blanks and trimming

The blank characters of running text, and the three ways of cutting a text at its ends. Texts are
lists of characters here; `trim` loses blanks at the ends and nothing else.
-/

namespace TreeManifest.Text

/-- White space of every script, with the four separator controls U+001C to U+001F. -/
def isBlank (c : Char) : Bool :=
  let n := c.toNat
  (0x09 ≤ n && n ≤ 0x0D) || (0x1C ≤ n && n ≤ 0x20) || n == 0x85 || n == 0xA0 || n == 0x1680 ||
    (0x2000 ≤ n && n ≤ 0x200A) || n == 0x2028 || n == 0x2029 || n == 0x202F || n == 0x205F ||
    n == 0x3000

def dropRightWhile (p : Char → Bool) (cs : List Char) : List Char :=
  (cs.reverse.dropWhile p).reverse

def trimWhile (p : Char → Bool) (cs : List Char) : List Char :=
  dropRightWhile p (cs.dropWhile p)

def trimRight (cs : List Char) : List Char := dropRightWhile isBlank cs

def trim (cs : List Char) : List Char := trimWhile isBlank cs

@[simp] theorem dropRightWhile_nil (p : Char → Bool) : dropRightWhile p [] = [] := rfl

theorem dropRightWhile_append_of_all {p : Char → Bool} {cs ds : List Char}
    (h : ds.all p = true) : dropRightWhile p (cs ++ ds) = dropRightWhile p cs := by
  unfold dropRightWhile
  rw [List.reverse_append, List.dropWhile_append_of_pos]
  simpa using h

end TreeManifest.Text
