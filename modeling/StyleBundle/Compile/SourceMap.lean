import StyleBundle.Json.Parser
import StyleBundle.Json.Printer
import StyleBundle.Path.Basic

/-!
# Source maps

The compiler works on a temporary file.  In the source map that it writes, the temporary file is
replaced by the logical one, and the other sources are the files that the compiler loaded itself.
-/

namespace StyleBundle

namespace SourceMap

/-- The URL of a file. -/
def fileUrl (p : Path) : Text :=
  let text := p.display
  if text.head? = some '/' then "file://".toList ++ text else "file:///".toList ++ text

/-- One source with the input replaced. -/
def replaceSource (input logical : Text) : Json → Json
  | .string url => if url = input then .string logical else .string url
  | other => other

/-- The URL of a source that is not the input. -/
def loadedUrl? (input : Text) : Json → Option Text
  | .string url => if url = input then none else some url
  | _ => none

/-- The name of the CSS file. -/
def cssName (logical : Path) : Text :=
  ((logical.withExtension "css".toList).fileName?).getD []

/-- One member of a source map for the logical file. -/
def replaceMember (input logical : Path) (name : Text) (value : Json) : Json :=
  if name = "sources".toList then
    match value with
    | .array sources => .array (sources.map (replaceSource (fileUrl input) (fileUrl logical)))
    | other => other
  else if name = "file".toList then .string (cssName logical)
  else value

/-- The source map for the logical file. -/
def replace (input logical : Path) : Json → Json
  | .object members =>
    .object (members.map fun (name, value) => (name, replaceMember input logical name value))
  | other => other

/-- The URLs of the files that the compiler loaded itself. -/
def loadedUrls (input : Path) (map : Json) : List Text :=
  match map.get? "sources".toList with
  | some (.array sources) => sources.filterMap (loadedUrl? (fileUrl input))
  | _ => []

end SourceMap

end StyleBundle
