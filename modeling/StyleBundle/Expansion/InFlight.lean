import StyleBundle.Path.Basic

/-!
# Paths in flight

The paths that are being expanded at one moment.  A path that is entered while it is in flight
is part of a cycle.  Paths are compared by their components.

`GuardTable` keeps, for every successful entry, whether it is still held.
-/

namespace StyleBundle

/-- The paths being expanded. -/
structure InFlight where
  /-- The paths, the latest first. -/
  paths : List Path
deriving DecidableEq

namespace InFlight

/-- Nothing is in flight. -/
def empty : InFlight := ⟨[]⟩

/-- Whether the path is in flight. -/
def contains (s : InFlight) (p : Path) : Bool :=
  p.isIn s.paths

/-- Adds a path, unless it is in flight already. -/
def enter? (s : InFlight) (p : Path) : Option InFlight :=
  if s.contains p then none else some ⟨p :: s.paths⟩

/-- Removes a path. -/
def release (s : InFlight) (p : Path) : InFlight :=
  ⟨s.paths.filter fun q => !p.same q⟩

/-- The number of paths in flight. -/
def size (s : InFlight) : Nat :=
  s.paths.length

end InFlight

/-- The paths in flight together with the guards that hold them. -/
structure GuardTable where
  /-- The paths in flight. -/
  inFlight : InFlight
  /-- The path of each guard in the order of entry, nothing for a released guard. -/
  guards : List (Option Path)
deriving DecidableEq

namespace GuardTable

/-- No guard was given out yet. -/
def empty : GuardTable := ⟨.empty, []⟩

/-- Enters a path under the next guard, unless it is in flight already. -/
def enter? (t : GuardTable) (p : Path) : Option GuardTable :=
  (t.inFlight.enter? p).map fun inFlight => ⟨inFlight, t.guards ++ [some p]⟩

/-- Releases a guard.  Nothing changes when it is not held. -/
def release (t : GuardTable) (guard : Nat) : GuardTable :=
  match t.guards[guard]? with
  | some (some p) => ⟨t.inFlight.release p, t.guards.set guard none⟩
  | _ => t

/-- Whether the guard is held. -/
def holds (t : GuardTable) (guard : Nat) : Bool :=
  match t.guards[guard]? with
  | some (some _) => true
  | _ => false

end GuardTable

end StyleBundle
