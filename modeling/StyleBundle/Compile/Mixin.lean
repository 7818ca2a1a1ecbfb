import StyleBundle.Compile.Error
import StyleBundle.FileTree.Basic

/-!
# Global mixins

Files that stand in front of every stylesheet.  A mixin is looked up in the directory of the
stylesheets under its name, with an underscore, with the extension `.scss` and with both, and then
in the same four ways in the directory `lib`.
-/

namespace StyleBundle

/-- The global mixins of a project. -/
structure Mixins where
  /-- The root that shown paths are relative to. -/
  root : Path
  /-- The directory of the stylesheets. -/
  stylesDir : Path
  /-- The names, in the order of the output. -/
  names : List Text
deriving DecidableEq

namespace Mixins

/-- The four ways to write a name. -/
def spellings (name : Text) : List Text :=
  let (directory, file) :=
    match Text.cutLast? '/' name with
    | some (directory, file) => (directory ++ ['/'], file)
    | none => ([], name)
  [directory ++ file, directory ++ '_' :: file, directory ++ file ++ ".scss".toList,
    directory ++ '_' :: file ++ ".scss".toList]

/-- The relative paths under which a mixin is looked up.  An absolute name stands for itself. -/
def variants (name : Text) : List Text :=
  if (⟨name⟩ : Path).isAbsolute then [name]
  else spellings name ++ (spellings name).map ("lib/".toList ++ ·)

/-- The first variant that can be read. -/
def find? (m : Mixins) (tree : FileTree) (name : Text) : Option (Path × Text) :=
  (variants name).findSome? fun variant =>
    let p := m.stylesDir.push variant
    match tree.read p with
    | .ok text => some (p, text)
    | .error _ => none

/-- The block of a mixin: a comment that names the file, then its text. -/
def block (m : Mixins) (p : Path) (text : Text) : Text :=
  let shown := (p.stripPrefix? m.root).getD p
  "// Global mixin from: ".toList ++ shown.text ++ '\n' :: text ++ ['\n']

/-- The blocks of all mixins. -/
def load (m : Mixins) (tree : FileTree) : Except CompileError (List Text) :=
  m.names.mapM fun name =>
    match m.find? tree name with
    | some (p, text) => .ok (m.block p text)
    | none => .error (.mixinNotFound name)

end Mixins

end StyleBundle
