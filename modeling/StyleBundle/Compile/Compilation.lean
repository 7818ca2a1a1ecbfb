import StyleBundle.Compile.Mixin
import StyleBundle.Compile.PackageImport
import StyleBundle.Compile.Sass

/-!
# The way from an expanded stylesheet to CSS

Package imports are replaced in the expanded text, the global mixins are put in front of it, and
the whole goes to the backend.
-/

namespace StyleBundle

/-- What turns a text into CSS. -/
inductive Compiler where
  /-- Gives the text back. -/
  | passthrough
  /-- Runs the Sass program in a scratch directory. -/
  | sass (run : Sass.Runner) (scratch : Path) (options : Sass.Options)

namespace Compiler

/-- Compiles a text as the logical file. -/
def compile (c : Compiler) (tree : FileTree) (source : Text) (logical : Path) :
    Except CompileError CompileOutput :=
  match c with
  | passthrough => .ok ⟨source, none, []⟩
  | sass run scratch options => Sass.compile run scratch options tree source logical

end Compiler

/-- The steps of a compilation. -/
structure Compilation where
  /-- The backend. -/
  compiler : Compiler
  /-- The global mixins. -/
  mixins : Option Mixins
  /-- The directory of the packages. -/
  packageDir : Option Path

/-- What a compilation took and gave. -/
structure Compiled where
  /-- The text that went to the backend. -/
  input : Text
  /-- What the backend gave. -/
  output : CompileOutput
deriving DecidableEq

namespace Compilation

/-- The text with package imports replaced, if there is a directory of packages. -/
def replacePackages (p : Compilation) (text : Text) : Text :=
  match p.packageDir with
  | some directory => PackageImport.replace directory.display text
  | none => text

/-- The text that goes to the backend. -/
def prepare (p : Compilation) (tree : FileTree) (expanded : Text) : Except CompileError Text := do
  let blocks ←
    match p.mixins with
    | some mixins => mixins.load tree
    | none => .ok []
  return Text.joinWith ['\n'] (blocks ++ [p.replacePackages expanded])

/-- Compiles an expanded text as the logical file. -/
def compile (p : Compilation) (tree : FileTree) (expanded : Text) (logical : Path) :
    Except CompileError Compiled := do
  let input ← p.prepare tree expanded
  let output ← p.compiler.compile tree input logical
  return ⟨input, output⟩

end Compilation

end StyleBundle
