import StyleBundle.Expansion.InFlight
import StyleBundle.Resolve.Error

/-!
# Sessions

Expansion runs in a session.  A session knows the paths in flight and the successful reads.  What
happened up to an error is kept.
-/

namespace StyleBundle

/-- The state of expansion. -/
structure Session where
  /-- The paths being expanded. -/
  inFlight : InFlight
  /-- The successful reads, the latest first. -/
  reads : List (Path × Text)
deriving DecidableEq

/-- A step of expansion. -/
abbrev Expansion := EStateM ResolveError Session

namespace Session

/-- A session in which nothing happened. -/
def start : Session := ⟨.empty, []⟩

/-- The session with one more read. -/
def record (s : Session) (p : Path) (text : Text) : Session :=
  { s with reads := (p, text) :: s.reads }

/-- The session with a path no longer in flight. -/
def release (s : Session) (p : Path) : Session :=
  { s with inFlight := s.inFlight.release p }

end Session

namespace Expansion

/-- Runs a step while the path is in flight.  However the step ends, the path is released.  A path
that is in flight already is a cycle. -/
def guarded {α : Type} (p : Path) (step : Expansion α) : Expansion α := fun s =>
  match s.inFlight.enter? p with
  | none => .error (.circular p) s
  | some inFlight =>
    match step { s with inFlight := inFlight } with
    | .ok result s => .ok result (s.release p)
    | .error cause s => .error cause (s.release p)

/-- A step that needs no session. -/
def ofExcept {α : Type} : Except ResolveError α → Expansion α
  | .ok result => pure result
  | .error cause => throw cause

end Expansion

end StyleBundle
