import StyleBundle.Proofs.Expansion.Reads

/-!
# A session has no memory

Requests come one after the other to one session over one store (`Store.converse`).  A reply tells
the result and the paths in flight after it.

* A request leaves the paths in flight as it found them, whether it succeeds or fails.
* Each request is answered as in a new session.
* What was read before does not matter either: each request is answered as if it were the first.
  A disk remembers the texts that it read, and compares paths by their components.  So the path
  that a request names must itself be a path of the file (`Store.Steady`).
-/

namespace StyleBundle

/-! ## Stores -/

/-- What sessions read from. -/
inductive Store where
  | memory (m : Memory)
  | disk (d : Disk)

namespace Store

/-- What the store answers. -/
def source : Store → Source
  | memory m => m.source
  | disk d => d.source

/-- The store after some successful reads, the latest first. -/
def absorb (reads : List (Path × Text)) : Store → Store
  | memory m => memory (m.countReads reads)
  | disk d => disk (d.rememberAll reads)

/-- What a disk remembers is what its files hold. -/
def Unchanging : Store → Prop
  | memory _ => True
  | disk d => d.Faithful

/-- The file that the request names itself, if there is one, is found by the path in the
request. -/
def Steady : Store → Request → Prop
  | memory _, _ => True
  | disk d, r => ∀ p ∈ r.entry?, d.tree.isFile p.normalize = true → d.tree.isFile p = true

theorem steady_of_normalize_eq {store : Store} {r : Request}
    (h : ∀ p ∈ r.entry?, p.normalize = p) : store.Steady r := by
  cases store with
  | memory m => trivial
  | disk d =>
    intro p hp hfile
    rwa [h p hp] at hfile

end Store

/-! ## Conversations -/

/-- The answer to a request. -/
structure Reply where
  /-- The result. -/
  result : Except ResolveError Expanded
  /-- The paths in flight after the request. -/
  inFlight : InFlight

namespace Store

open Expansion

/-- Answers a request in a session with the given paths in flight.  The store absorbs the
reads. -/
def serve (settings : Settings) (store : Store) (flight : InFlight) (r : Request) :
    Reply × Store :=
  match r.run ⟨settings, store.source⟩ ⟨flight, []⟩ with
  | .ok e s => (⟨.ok e, s.inFlight⟩, store.absorb s.reads)
  | .error cause s => (⟨.error cause, s.inFlight⟩, store.absorb s.reads)

/-- Answers requests one after the other.  Between two requests, `between` turns the paths that
one left in flight into those that the next one starts with. -/
def converse (settings : Settings) (between : InFlight → InFlight) (store : Store)
    (flight : InFlight) : List Request → List Reply
  | [] => []
  | r :: requests =>
    let (reply, store) := store.serve settings flight r
    reply :: converse settings between store (between reply.inFlight) requests

/-- All requests in one session. -/
def inOneSession (settings : Settings) (store : Store) (flight : InFlight)
    (requests : List Request) : List Reply :=
  store.converse settings id flight requests

/-- Each request in a session of its own. -/
def inNewSessions (settings : Settings) (store : Store) (requests : List Request) : List Reply :=
  store.converse settings (fun _ => .empty) .empty requests

variable {settings : Settings} {store : Store} {flight : InFlight}

/-! ### One request -/

/-- A request is answered by its outcome, and the paths in flight stay.  The store absorbs what
was read from it. -/
theorem serve_eq (settings : Settings) (store : Store) (flight : InFlight) (r : Request) :
    ∃ reads, store.serve settings flight r =
        (⟨outcome (r.run ⟨settings, store.source⟩) flight, flight⟩, store.absorb reads) ∧
      ∀ entry ∈ reads, store.source.read entry.1 = .ok entry.2 := by
  obtain ⟨reads, hrun⟩ := Request.framed_run ⟨settings, store.source⟩ r ⟨flight, []⟩
  have hreads := r.read_of_mem_reads ⟨settings, store.source⟩ flight
  rw [stateAfter_of_answer hrun] at hreads
  refine ⟨reads ++ [], ?_, hreads⟩
  rw [serve, hrun]
  cases outcome (r.run ⟨settings, store.source⟩) flight <;> rfl

/-! ### Many requests -/

/-- In one session the paths in flight stay as they are. -/
theorem inFlight_of_mem_inOneSession {requests : List Request} {reply : Reply}
    (h : reply ∈ store.inOneSession settings flight requests) : reply.inFlight = flight := by
  induction requests generalizing store with
  | nil => cases h
  | cons r requests ih =>
    obtain ⟨reads, hserve, _⟩ := serve_eq settings store flight r
    rw [inOneSession, converse, hserve, List.mem_cons] at h
    rcases h with rfl | h
    · rfl
    · exact ih h

theorem inOneSession_eq_inNewSessions (requests : List Request) :
    store.inOneSession settings .empty requests = store.inNewSessions settings requests := by
  induction requests generalizing store with
  | nil => rfl
  | cons r requests ih =>
    obtain ⟨reads, hserve, _⟩ := serve_eq settings store .empty r
    rw [inOneSession, inNewSessions, converse, converse, hserve]
    exact congrArg (_ :: ·) ih

/-! ### Earlier reads -/

section Earlier

variable {reads : List (Path × Text)}
  (hreads : ∀ entry ∈ reads, store.source.read entry.1 = .ok entry.2)

include hreads in
theorem Unchanging.absorb (h : store.Unchanging) : (store.absorb reads).Unchanging := by
  cases store with
  | memory m => trivial
  | disk d => exact Disk.Faithful.rememberAll h hreads

theorem Steady.absorb {r : Request} (h : store.Steady r) (reads : List (Path × Text)) :
    (store.absorb reads).Steady r := by
  cases store with
  | memory m => trivial
  | disk d =>
    rw [Store.absorb, Steady, Disk.tree_rememberAll]
    exact h

include hreads in
/-- A request is answered alike before and after some reads. -/
theorem outcome_run_absorb (h : store.Unchanging) {r : Request} (hr : store.Steady r) :
    outcome (r.run ⟨settings, (store.absorb reads).source⟩) .empty =
      outcome (r.run ⟨settings, store.source⟩) .empty := by
  cases store with
  | memory m => rfl
  | disk d =>
    have htree := d.tree_rememberAll reads
    have hlater : (d.rememberAll reads).Faithful := Disk.Faithful.rememberAll h hreads
    refine Request.outcome_run_congr (hlater.sameFiles h htree) (Disk.lawful_source _)
      (Disk.lawful_source _) fun p hp => ?_
    have hlater_read : (d.rememberAll reads).read p = (d.rememberAll reads).tree.read p :=
      hlater.read_eq_of_normalize (htree ▸ hr p hp)
    have hread : d.read p = d.tree.read p := Disk.Faithful.read_eq_of_normalize h (hr p hp)
    change (d.rememberAll reads).read p = d.read p
    rw [hlater_read, hread, htree]

end Earlier

/-- Each request is answered as if it were the first one. -/
theorem inNewSessions_eq_map (h : store.Unchanging) {requests : List Request}
    (hsteady : ∀ r ∈ requests, store.Steady r) :
    store.inNewSessions settings requests =
      requests.map fun r => (store.serve settings .empty r).1 := by
  induction requests generalizing store with
  | nil => rfl
  | cons r requests ih =>
    obtain ⟨reads, hserve, hreads⟩ := serve_eq settings store .empty r
    have hrest : ∀ r' ∈ requests, store.Steady r' := fun r' hr' =>
      hsteady r' (List.mem_cons_of_mem r hr')
    have hlater := ih (h.absorb hreads) fun r' hr' => (hrest r' hr').absorb reads
    rw [inNewSessions] at hlater
    rw [inNewSessions, converse, List.map_cons, hserve]
    refine congrArg (_ :: ·) (hlater.trans (List.map_congr_left fun r' hr' => ?_))
    obtain ⟨_, hserve', _⟩ := serve_eq settings store .empty r'
    obtain ⟨_, hserve'', _⟩ := serve_eq settings (store.absorb reads) .empty r'
    rw [hserve', hserve'', outcome_run_absorb hreads h (hrest r' hr')]

/-- A session leaves the paths in flight as they are at every request.  It answers each request as
a new session does.  While the files stay as they are, this is also the answer of a session that
nothing was asked of before. -/
theorem session_has_no_memory (settings : Settings) (store : Store) (requests : List Request) :
    (∀ flight, ∀ reply ∈ store.inOneSession settings flight requests, reply.inFlight = flight) ∧
      store.inOneSession settings .empty requests = store.inNewSessions settings requests ∧
      (store.Unchanging → (∀ r ∈ requests, store.Steady r) →
        store.inOneSession settings .empty requests =
          requests.map fun r => (store.serve settings .empty r).1) := by
  refine ⟨fun flight reply h => inFlight_of_mem_inOneSession h,
    inOneSession_eq_inNewSessions requests, fun hstore hsteady => ?_⟩
  rw [inOneSession_eq_inNewSessions, inNewSessions_eq_map hstore hsteady]

/-! ### Two files that ask for each other -/

/-- Two files that ask for each other. -/
def mutualDisk : Disk where
  tree :=
    { entries := [(["a.scss".toList], .file (.text "//= require 'b'".toList)),
        (["b.scss".toList], .file (.text "//= require 'a'".toList))]
      workingDirectory := [] }
  cache := []

/-- Settings with a root and nothing else. -/
def mutualSettings : Settings :=
  { root := ⟨"/".toList⟩, includePaths := [], fallbackDirs := [], aliases := [], mappings := [],
    ignorePartials := false }

/-- A cycle, a file that is not there, a cycle again, and a directory. -/
def mutualRequests : List Request :=
  [.file ⟨"/a.scss".toList⟩, .text "//= require 'c'".toList ⟨"/a.scss".toList⟩,
    .bundle ⟨"/b.scss".toList⟩, .tree ".".toList ⟨"/".toList⟩]

theorem mutual_session :
    (disk mutualDisk).Unchanging ∧ (∀ r ∈ mutualRequests, (disk mutualDisk).Steady r) ∧
      (disk mutualDisk).inOneSession mutualSettings .empty mutualRequests =
        mutualRequests.map fun r => ((disk mutualDisk).serve mutualSettings .empty r).1 := by
  have hstore : (disk mutualDisk).Unchanging := fun _ h => absurd h List.not_mem_nil
  have hnormal : ∀ r ∈ mutualRequests, ∀ p ∈ r.entry?, p.normalize = p := by decide
  have hsteady : ∀ r ∈ mutualRequests, (disk mutualDisk).Steady r := fun r hr =>
    steady_of_normalize_eq (hnormal r hr)
  exact ⟨hstore, hsteady, (session_has_no_memory mutualSettings _ _).2.2 hstore hsteady⟩

end Store

end StyleBundle
