import TreeManifest.Mapping
import TreeManifest.Path

/-!
# Descriptions within a directory

The descriptions of what lies strictly below a directory, by the path that leads there from the
directory. Paths are compared part by part, so two spellings of one path share a description: the
place of the first and the text of the last.
-/

namespace TreeManifest.Prompt

def scopedKey? (directory : Path) (path : String) : Option String :=
  match (Path.ofString path).relativeTo? directory with
  | some relative => if relative.parts = [] then none else some relative.toString
  | none => none

def scopedBindings (analysis : Mapping String String) (directory : Path) :
    List (String × String) :=
  analysis.filterMap fun (path, description) => (scopedKey? directory path).map (·, description)

def scope (analysis : Mapping String String) (directory : Path) : Mapping String String :=
  Mapping.ofList (scopedBindings analysis directory)

end TreeManifest.Prompt
