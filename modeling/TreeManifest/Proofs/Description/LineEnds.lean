import TreeManifest.Proofs.Description.Content
import TreeManifest.Proofs.FileSystem.Write
import TreeManifest.Proofs.Text.Ascii

/-!
# Descriptions do not depend on line ends

A file whose lines end in line feeds is described as before when every line feed becomes a carriage
return, alone or in front of a line feed (`describe_lineEnds`). Line feeds and carriage returns are
characters wherever they stand, so that other line ends in the octets are other line ends in the
text, next to ill-formed parts too, and the text is read with its line ends unified
(`textOf_replaceAll`).
-/

namespace TreeManifest.Description

open Text (replaceAll)

variable {octets lineEnd : List UInt8} {cs written : List Char}

-- ---------------------------------------------------------------------------
-- Texts
-- ---------------------------------------------------------------------------

theorem head?_replaceAll_ne (hlineEnd : written.head? = some '\r') (cs : List Char) :
    (replaceAll '\n' written cs).head? ≠ some '\n' := by
  cases cs with
  | nil => simp
  | cons c cs =>
    by_cases hc : c = '\n'
    · subst hc
      rw [Text.replaceAll_cons_self, List.head?_append, hlineEnd]
      simp
    · rw [Text.replaceAll_cons_of_ne hc]
      simpa using hc

/-- No line feed is left that a carriage return at the end of a line could be paired with. -/
theorem unifyLineEnds_replaceAll (hlineEnd : written = ['\r', '\n'] ∨ written = ['\r'])
    (h : '\r' ∉ cs) : Text.unifyLineEnds (replaceAll '\n' written cs) = cs := by
  have hone : Text.unifyLineEnds written = ['\n'] := by rcases hlineEnd with rfl | rfl <;> rfl
  have hhead : written.head? = some '\r' := by rcases hlineEnd with rfl | rfl <;> rfl
  induction cs with
  | nil => rfl
  | cons c cs ih =>
    rw [List.mem_cons, not_or] at h
    by_cases hc : c = '\n'
    · rw [hc, Text.replaceAll_cons_self,
        Text.unifyLineEnds_append fun _ => head?_replaceAll_ne hhead cs, hone, ih h.2]
      rfl
    · rw [Text.replaceAll_cons_of_ne hc, Text.unifyLineEnds, ih h.2]
      · exact fun _ heq => absurd heq.symm h.1
      · exact fun heq => h.1 heq.symm

theorem textOf_replaceAll (hreturn : 0x0D ∉ octets)
    (hlineEnd : lineEnd = [0x0D, 0x0A] ∨ lineEnd = [0x0D]) :
    textOf (replaceAll 0x0A lineEnd octets) = textOf octets := by
  have hbare : '\r' ∉ Text.Utf8.decodeLossy octets :=
    Text.Utf8.ascii_not_mem_decodeLossy (a := 0x0D) (by decide) hreturn
  have hascii : ∀ b ∈ lineEnd, b < 0x80 := by rcases hlineEnd with rfl | rfl <;> simp
  have hsome : lineEnd ≠ [] := by rcases hlineEnd with rfl | rfl <;> decide
  rw [textOf, textOf, Text.unifyLineEnds_eq_self hbare,
    Text.Utf8.decodeLossy_replaceAll (by decide) hascii hsome]
  refine unifyLineEnds_replaceAll ?_ hbare
  rcases hlineEnd with rfl | rfl
  · exact .inl rfl
  · exact .inr rfl

-- ---------------------------------------------------------------------------
-- Descriptions
-- ---------------------------------------------------------------------------

theorem isBinaryContent_of_not_mem (h : 0 ∉ octets) : isBinaryContent octets = false :=
  isBinaryContent_eq_false fun hm => h (List.mem_of_mem_take hm)

theorem ofContent?_replaceAll (method : Method) (hnull : 0 ∉ octets) (hreturn : 0x0D ∉ octets)
    (hlineEnd : lineEnd = [0x0D, 0x0A] ∨ lineEnd = [0x0D]) :
    ofContent? method (replaceAll 0x0A lineEnd octets) = ofContent? method octets := by
  have hnull' : 0 ∉ replaceAll 0x0A lineEnd octets := by
    intro hm
    rcases Text.mem_replaceAll hm with hm | ⟨-, hm⟩
    · rcases hlineEnd with rfl | rfl <;> exact absurd hm (by decide)
    · exact hnull hm
  unfold ofContent?
  simp only [isBinaryContent_of_not_mem hnull, isBinaryContent_of_not_mem hnull',
    textOf_replaceAll hreturn hlineEnd]

/-- Every path is described as before after the line ends of a file have been written otherwise,
whether it leads to that file or not. -/
theorem describe_lineEnds {fs : FileSystem} {location : Location}
    (hfile : fs.entryAt? location = some (.file octets)) (hnull : 0 ∉ octets)
    (hreturn : 0x0D ∉ octets) (hlineEnd : lineEnd = [0x0D, 0x0A] ∨ lineEnd = [0x0D])
    (path : String) :
    describe (fs.put location (.file (replaceAll 0x0A lineEnd octets))) path =
      describe fs path := by
  unfold describe
  rcases FileSystem.read_put_file hfile (replaceAll 0x0A lineEnd octets) (Path.ofString path) with
    hsame | ⟨hold, hnew⟩
  · simp only [hsame]
  · simp only [hold, hnew, Except.toOption]
    rcases FileSystem.hasNull (Path.ofString path) with _ | _
    · simp only [Bool.false_eq_true, if_false, Option.bind_some,
        ofContent?_replaceAll _ hnull hreturn hlineEnd]
    · simp only [if_true, Option.bind_none]

def brokenTitle : List UInt8 := Text.Utf8.encode "# Caf" ++ [0xC3, 0x0A] ++ Text.Utf8.encode "1\n"

def brokenTitleFiles : FileSystem where
  entries := [(["README.md"], .file brokenTitle), (["index.md"], .link "README.md")]
  working := []
  home := "/"
  unreadable := []

theorem describe_lineEnds_brokenTitle :
    brokenTitleFiles.entryAt? ["README.md"] = some (.file brokenTitle) ∧ 0 ∉ brokenTitle ∧
      0x0D ∉ brokenTitle ∧
      describe (brokenTitleFiles.put ["README.md"]
        (.file (replaceAll 0x0A [0x0D, 0x0A] brokenTitle))) "index.md" =
        Report.pure "Caf\uFFFD" := by
  have hfile : brokenTitleFiles.entryAt? ["README.md"] = some (.file brokenTitle) := by rfl
  have hnull : 0 ∉ brokenTitle := by decide
  have hreturn : 0x0D ∉ brokenTitle := by decide
  refine ⟨hfile, hnull, hreturn, ?_⟩
  rw [describe_lineEnds hfile hnull hreturn (.inl rfl)]
  rfl

end TreeManifest.Description
