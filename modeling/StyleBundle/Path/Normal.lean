import StyleBundle.Path.Basic

/-!
# Normal paths

`Path.normalize` folds `.` and `..` by looking at the text alone.  A `..` takes back the name
in front of it, does nothing at the root, and is kept where there is nothing to take back.
-/

namespace StyleBundle

namespace Path

/-- Puts one component on a stack of folded components, the last one on top. -/
def foldStep (stack : List Component) : Component → List Component
  | .current => stack
  | .parent =>
    match stack with
    | .normal _ :: below => below
    | .root :: _ => stack
    | _ => .parent :: stack
  | step => step :: stack

/-- The components with `.` dropped and `..` taken back where that is possible. -/
def foldComponents (steps : List Component) : List Component :=
  (steps.foldl foldStep []).reverse

/-- The clean path with `.` and `..` folded. -/
def normalize (p : Path) : Path :=
  ofComponents (foldComponents p.components)

/-- `p` as seen from `base`, with `.` and `..` folded. -/
def resolveIn (base p : Path) : Path :=
  (base.join p).normalize

/-- A partial is a file whose name starts with an underscore. -/
def isPartial (p : Path) : Bool :=
  match p.fileName? with
  | some ('_' :: _) => true
  | _ => false

end Path

end StyleBundle
