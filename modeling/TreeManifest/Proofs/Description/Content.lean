import TreeManifest.Description
import TreeManifest.Proofs.Text.Line
import TreeManifest.Proofs.Text.Utf8

/-!
# The content that a description looks at

A file whose method looks into it is described by what that method makes of its octets
(`describe_of_content`). A file without null characters has a text, and the text of an encoded file
is what was encoded, up to its line ends.
-/

namespace TreeManifest.Description

theorem describe_of_content {fs : FileSystem} {path text : String} {octets : List UInt8}
    {method : Method} (hmethod : Method.ofName (Path.ofString path).name = method)
    (hreads : method.reads = true) (hpath : FileSystem.hasNull (Path.ofString path) = false)
    (hread : fs.read (Path.ofString path) = .ok octets)
    (hcontent : ofContent? method octets = some text) : describe fs path = Report.pure text := by
  unfold describe
  simp only [hmethod, hreads, hpath, hread, Bool.false_eq_true, if_false, if_true, Except.toOption,
    Option.bind_some, hcontent]

theorem isBinaryContent_eq_false {octets : List UInt8} (h : 0 ∉ octets.take sampleSize) :
    isBinaryContent octets = false := by
  simpa [isBinaryContent] using h

theorem zero_not_mem {octets : List UInt8} (h : '\x00' ∉ textOf octets) (n : Nat) :
    0 ∉ octets.take n := by
  intro hzero
  have hnull := Text.Utf8.null_mem_decodeLossy (List.mem_of_mem_take hzero)
  exact h ((Text.mem_unifyLineEnds (by decide) (by decide)).mpr hnull)

theorem textOf_encode (text : String) :
    textOf (Text.Utf8.encode text) = Text.unifyLineEnds text.toList := by
  rw [textOf, Text.Utf8.decodeLossy_encode]

end TreeManifest.Description
