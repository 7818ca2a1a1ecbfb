import StyleBundle.Proofs.Expansion.Unlimited

/-!
# Requests

What can be asked of a session: to expand a text, to expand a file, to expand a file in its
marker, or to expand the stylesheets of a directory.

`Request.run` answers a request in a session, and `Request.runFreely` answers it by the recursion
without a limit.  Where there is room for the files to come, the latter ends with the result of
the former (`Request.ends_runFreely`).
-/

namespace StyleBundle

/-- A request to a session. -/
inductive Request where
  /-- Expand a text that stands in the file `p`. -/
  | text (text : Text) (p : Path)
  /-- Expand a file. -/
  | file (p : Path)
  /-- Expand a file and put its marker around it. -/
  | bundle (p : Path)
  /-- Expand the stylesheets of the directory that `tree` names from `directory`. -/
  | tree (tree : Text) (directory : Path)
deriving DecidableEq

namespace Request

open Catalog Expansion Unlimited

/-- Answers a request. -/
def run (c : Catalog) : Request → Expansion Expanded
  | text t p => c.expandText t p
  | file p => c.expandFile p
  | bundle p => c.bundleFile p
  | tree t directory => c.expandTree t directory

/-- The file `p` with its marker around it. -/
def bundled (p : Path) (e : Expanded) : Expanded where
  content := (Boundary.ofPath p).wrap e.content
  dependencies := Path.dedup (p :: e.dependencies)

/-- Answers a request along chains of at most `depth` files. -/
def runWithin (c : Catalog) (depth : Nat) : Request → Expansion Expanded
  | text t p => c.expandWithin depth t p
  | file p => c.expandRead (c.expandWithin depth) p
  | bundle p => do
    let expanded ← c.expandRead (c.expandWithin depth) p.normalize
    return bundled p.normalize expanded
  | tree t directory => c.expandTreeWith (c.expandRead (c.expandWithin depth)) t directory

theorem run_eq_runWithin (c : Catalog) (r : Request) : r.run c = r.runWithin c c.depth := by
  cases r <;> rfl

/-- Answers a request by the recursion without a limit. -/
def runFreely (c : Catalog) (flight : InFlight) : Request → Unlimited Expanded
  | text t p => c.expandFreely t p flight
  | file p => do
    let found ← c.includeFreely p flight
    return found.2
  | bundle p => do
    let found ← c.includeFreely p.normalize flight
    return bundled found.1 found.2
  | tree t directory => do
    let members ← (treeMembers c.source (treeDirectory t directory)).mapM fun p =>
      c.includeFreely p flight
    return joinMembers members

/-- The directory in which the first targets of a request are looked up. -/
def directory : Request → Path
  | text _ p => p.normalize.directory
  | file p => p.normalize.directory
  | bundle p => p.normalize.directory
  | tree _ directory => directory

variable {c : Catalog} {flight : InFlight}

/-- Answering a request only looks at the paths in flight, and leaves them as they are. -/
theorem framed_runWithin (c : Catalog) (depth : Nat) (r : Request) :
    Framed (r.runWithin c depth) := by
  have hfile := framed_expandRead (c := c) (framed_expandWithin c depth)
  cases r with
  | text t p => exact framed_expandWithin c depth t p
  | file p => exact hfile p
  | bundle p => exact (hfile p.normalize).bind fun _ => framed_pure _
  | tree t directory => exact framed_expandTreeWith hfile t directory

theorem framed_run (c : Catalog) (r : Request) : Framed (r.run c) := by
  rw [run_eq_runWithin]
  exact framed_runWithin c c.depth r

/-- The recursion without a limit ends on every request. -/
theorem ends_runFreely {keep : Path → Bool} (hkeep : c.Encloses keep) {n : Nat} {r : Request}
    (hroom : Room (c.source.only keep) flight n)
    (hr : ∀ d q, c.LeadsTo r.directory d q → keep q = true) :
    Ends (r.runFreely c flight) (outcome (r.runWithin c (n + 1)) flight)
      (flight.size + n + 1) := by
  have hfile : ∀ p : Path, (∀ d q, c.LeadsTo p.normalize.directory d q → keep q = true) →
      Ends (c.includeFreely p flight) (c.inclusionOutcome (n + 1) flight p)
        (flight.size + n + 1) :=
    fun p hp => ends_includeFreely_of_text fun text _ => ends_expandFreely hkeep hroom hp
  have hframed := framed_expandRead (c := c) (framed_expandWithin c (n + 1))
  cases r with
  | text t p => exact ends_expandFreely hkeep hroom hr
  | file p =>
    have hresult : outcome ((file p).runWithin c (n + 1)) flight =
        c.inclusionOutcome (n + 1) flight p >>= fun found => .ok found.2 := by
      change c.fileOutcome (n + 1) flight p = _
      rw [inclusionOutcome]
      cases c.fileOutcome (n + 1) flight p <;> rfl
    rw [hresult]
    exact (hfile p hr).bind fun found _ => ends_pure _ _
  | bundle p =>
    have hresult : outcome ((bundle p).runWithin c (n + 1)) flight =
        c.inclusionOutcome (n + 1) flight p.normalize >>= fun found =>
          .ok (bundled found.1 found.2) := by
      rw [runWithin, outcome_bind (hframed p.normalize) fun _ => framed_pure _, inclusionOutcome,
        fileOutcome]
      cases outcome (c.expandRead (c.expandWithin (n + 1)) p.normalize) flight <;> rfl
    rw [hresult]
    refine (hfile p.normalize ?_).bind fun found _ => ends_pure _ _
    rw [Path.normalize_normalize]
    exact hr
  | tree t directory =>
    have hresult : outcome ((tree t directory).runWithin c (n + 1)) flight =
        (treeMembers c.source (treeDirectory t directory)).mapM
          (c.inclusionOutcome (n + 1) flight) >>= fun members => .ok (joinMembers members) :=
      outcome_expandTreeWith hframed t directory
    rw [hresult]
    refine (ends_mapM fun p hp => ends_includeFreely_of_text fun text hread => ?_).bind
      fun members _ => ends_pure _ _
    rw [treeMembers_eq, mem_membersByName] at hp
    -- A member of the tree is what a directive with this tree leads to.
    have hlead : c.LeadsTo directory ⟨.requireTree, t, [], 0⟩ p := (leadsTo_requireTree rfl).2 hp
    exact ends_expandFreely hkeep hroom (hkeep p text (hr _ p hlead) hread)

/-- The recursion without a limit ends with the outcome of the request. -/
theorem ends_run (hsource : c.source.Lawful) {n : Nat} (hn : c.source.chainLimit ≤ n)
    (r : Request) : Ends (r.runFreely c .empty) (outcome (r.run c) .empty) (n + 1) := by
  have hroom := (room_empty hsource).only fun _ => true
  have hends := ends_runFreely (encloses_all c) hroom (r := r) fun _ _ _ => rfl
  rw [← depth, ← run_eq_runWithin] at hends
  exact hends.mono (by rw [InFlight.size_empty]; omega)

/-- The outcome of a request is the same for every depth that leaves room for the files. -/
theorem outcome_run (hsource : c.source.Lawful) {n : Nat} (hn : c.source.chainLimit ≤ n)
    (r : Request) : outcome (r.run c) .empty = outcome (r.runWithin c (n + 1)) .empty := by
  have hroom := ((room_empty hsource).only fun _ => true).mono hn
  have hends := ends_runFreely (encloses_all c) hroom (r := r) fun _ _ _ => rfl
  exact (ends_run hsource hn r).result_unique hends

end Request

end StyleBundle
