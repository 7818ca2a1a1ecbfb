import StyleBundle.Compile.Kind
import StyleBundle.Compile.Report
import StyleBundle.Compile.SourceMap
import StyleBundle.FileTree.Basic

/-!
# The Sass program

A stylesheet is compiled by running the Sass program on a temporary file.  What the program does
is a parameter: a runner takes an invocation and gives what came out of it.
-/

namespace StyleBundle

/-- What a compilation gives. -/
structure CompileOutput where
  /-- The CSS. -/
  css : Text
  /-- The source map. -/
  sourceMap : Option Text
  /-- The URLs of files that the compiler loaded itself. -/
  loadedUrls : List Text
deriving DecidableEq

namespace Sass

/-- One run of the program. -/
structure Invocation where
  /-- The program. -/
  binary : Text
  /-- The arguments, the input and the output last. -/
  arguments : List Text
  /-- The temporary file with the stylesheet. -/
  input : Path
  /-- The text of that file. -/
  source : Text
deriving DecidableEq

/-- What came out of a run. -/
structure Outcome where
  /-- Whether the program said that all went well. -/
  success : Bool
  /-- What it wrote to the standard error. -/
  stderr : Content
  /-- The CSS file that it wrote. -/
  css : Option Content
  /-- The source map that it wrote. -/
  map : Option Content
deriving DecidableEq

/-- Runs the program on the files as they are, or tells why it could not be started. -/
abbrev Runner := FileTree → Invocation → Except IoFailure Outcome

/-- How the program is run. -/
structure Options where
  /-- The program. -/
  binary : Text
  /-- The directories in which it looks for files. -/
  loadPaths : List Path
  /-- The output style. -/
  style : OutputStyle
  /-- Whether it writes a source map. -/
  sourceMap : Bool
deriving DecidableEq

namespace Options

/-- The options when nothing is said. -/
def default : Options :=
  ⟨"sass".toList, [], .expanded, true⟩

/-- The argument that adds a directory to look for files in. -/
def loadPathArgument (directory : Path) : Text :=
  "--load-path=".toList ++ directory.text

/-- The directory of the logical file, in which the program looks first. -/
def anchor (logical : Path) : List Path :=
  match logical.parent? with
  | some directory => if directory.text = [] then [] else [directory]
  | none => []

/-- The arguments about the source map. -/
def mapArguments (o : Options) : List Text :=
  if o.sourceMap then
    ["--source-map".toList, "--embed-sources".toList, "--source-map-urls=absolute".toList]
  else ["--no-source-map".toList]

/-- The arguments of a run. -/
def arguments (o : Options) (input output logical : Path) : List Text :=
  "--no-color".toList :: (anchor logical ++ o.loadPaths).map loadPathArgument ++
    ("--style=".toList ++ o.style.name) :: o.mapArguments ++ [input.text, output.text]

end Options

/-- The temporary file for a stylesheet. -/
def inputPath (scratch logical : Path) : Path :=
  scratch.push ("input.".toList ++ (Syntax.ofPath logical).extension)

/-- The temporary file for the CSS. -/
def outputPath (scratch : Path) : Path :=
  scratch.push "input.css".toList

/-- The invocation that compiles a text as the logical file. -/
def invocation (o : Options) (scratch : Path) (source : Text) (logical : Path) : Invocation :=
  let input := inputPath scratch logical
  { binary := o.binary
    arguments := o.arguments input (outputPath scratch) logical
    input := input
    source := source }

/-- The text of a file that the program was to write. -/
def written : Option Content → Except CompileError Text
  | none => .error (.io (.os .noEntry))
  | some content =>
    match content.text? with
    | some text => .ok text
    | none => .error (.io .notUtf8)

/-- Whether the text is the comment that names the source map, with nothing but white space after
it. -/
def isMapComment (t : Text) : Bool :=
  match Text.after? "/*# sourceMappingURL=".toList t with
  | none => false
  | some rest =>
    match Text.after? "*/".toList (rest.dropWhile (· != '*')) with
    | some rest => rest.all isWhitespace
    | none => false

/-- Whether the text is such a comment, after a newline or right at its start. -/
def isMapEnding : Text → Bool
  | '\n' :: rest => isMapComment rest
  | t => isMapComment t

/-- The CSS without the comment at its end that names the source map.  A newline stands in its
place. -/
def dropMapComment : Text → Text
  | [] => []
  | c :: rest => if isMapEnding (c :: rest) then ['\n'] else c :: dropMapComment rest

/-- The source map for the logical file, and the URLs of the other sources. -/
def readMap (input logical : Path) (text : Text) : Except CompileError (Text × List Text) :=
  match Json.parse? text with
  | none => .error .invalidSourceMap
  | some map =>
    .ok ((SourceMap.replace input logical map).compact, SourceMap.loadedUrls input map)

/-- Compiles a text as the logical file. -/
def compile (run : Runner) (scratch : Path) (o : Options) (tree : FileTree) (source : Text)
    (logical : Path) : Except CompileError CompileOutput := do
  let call := invocation o scratch source logical
  match run tree call with
  | .error cause => throw (.notStarted o.binary cause)
  | .ok outcome =>
    unless outcome.success do
      throw (.stylesheet (Report.diagnose outcome.stderr.lossy call.input logical))
    let css ← written outcome.css
    let css := dropMapComment css
    if o.sourceMap then
      let map ← written outcome.map
      let (sourceMap, loadedUrls) ← readMap call.input logical map
      return ⟨css, some sourceMap, loadedUrls⟩
    else
      return ⟨css, none, []⟩

end Sass

end StyleBundle
