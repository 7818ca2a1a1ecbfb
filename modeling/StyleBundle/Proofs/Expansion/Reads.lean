import StyleBundle.Proofs.Expansion.Request
import StyleBundle.Proofs.Expansion.Sufficiency
import StyleBundle.Proofs.Source.Disk
import StyleBundle.Proofs.Steps

/-!
# Reads of an expansion

A session records what was read.  Everything that it records was read from the source
(`Request.keeps_run`), so a disk that remembers these reads still agrees with its tree
(`Disk.Faithful.rememberAll`).

On the other hand a request reads only files that directives lead to, apart from the file that it
names itself.  Two sources with the same lookups and the same texts of files answer it in the same
way (`Request.outcome_run_congr`), even where one of them allows longer chains.
-/

namespace StyleBundle

/-! ## What is recorded -/

namespace Expansion

variable {α : Type} {P : List (Path × Text) → Prop}

theorem stateAfter_of_answer {step : Expansion α} {result : Except ResolveError α}
    {s s' : Session} (h : step s = answer result s') : stateAfter step s = s' := by
  rw [stateAfter, h]
  cases result <;> rfl

/-- What holds of the reads before the step holds of the reads after it. -/
abbrev KeepsReads (P : List (Path × Text) → Prop) (step : Expansion α) : Prop :=
  Keeps (fun s : Session => P s.reads) step

theorem keepsReads_ofExcept (result : Except ResolveError α) :
    KeepsReads P (ofExcept result) := by
  cases result <;> exact fun _ h => h

theorem KeepsReads.guarded {p : Path} {step : Expansion α} (hstep : KeepsReads P step) :
    KeepsReads P (guarded p step) := by
  intro s hs
  rw [stateAfter, Expansion.guarded]
  cases s.inFlight.enter? p with
  | none => exact hs
  | some flight =>
    simp only
    cases hrun : step ⟨flight, s.reads⟩ with
    | ok a s' =>
      have hinner := hstep.of_ok (s := ⟨flight, s.reads⟩) hs hrun
      exact hinner
    | error cause s' =>
      have hinner := hstep.of_error (s := ⟨flight, s.reads⟩) hs hrun
      exact hinner

end Expansion

namespace Catalog

open Expansion

variable {c : Catalog} {P : List (Path × Text) → Prop}

/-- A property of reads that one more read from the source keeps. -/
def ReadInvariant (c : Catalog) (P : List (Path × Text) → Prop) : Prop :=
  ∀ p text reads, c.source.read p = .ok text → P reads → P ((p, text) :: reads)

theorem ReadInvariant.keeps_expandRead (h : c.ReadInvariant P)
    {expand : Text → Path → Expansion Expanded} (hexpand : ∀ text p, KeepsReads P (expand text p))
    (p : Path) : KeepsReads P (c.expandRead expand p) := by
  have hread : KeepsReads P (c.readText p) := by
    intro s hs
    rw [stateAfter, readText]
    cases hread : c.source.read p with
    | ok text => exact h p text s.reads hread hs
    | error cause => exact hs
  exact hread.bind fun text => hexpand text p

theorem keeps_expandTreeWith {expand : Path → Expansion Expanded}
    (hexpand : ∀ p, KeepsReads P (expand p)) (tree : Text) (directory : Path) :
    KeepsReads P (c.expandTreeWith expand tree directory) :=
  (Keeps.mapM fun p _ => (hexpand p).bind fun e => keeps_pure (p, e)).bind fun members =>
    keeps_pure (joinMembers members)

theorem ReadInvariant.keeps_expandWithin (h : c.ReadInvariant P) (depth : Nat) (text : Text)
    (p : Path) : KeepsReads P (c.expandWithin depth text p) := by
  induction depth generalizing text p with
  | zero => exact fun _ hs => hs
  | succ depth ih =>
    have hfile := h.keeps_expandRead ih
    refine KeepsReads.guarded (Keeps.bind (Keeps.mapM fun d _ => ?_) fun files =>
      Keeps.bind (Keeps.mapM fun d _ => ?_) fun trees => keeps_pure _)
    · exact (keepsReads_ofExcept _).bind fun found => (hfile found).bind fun e => keeps_pure _
    · exact (keeps_expandTreeWith hfile _ _).bind fun e => keeps_pure _

end Catalog

/-- Answering a request keeps what every read keeps. -/
theorem Request.keeps_run {c : Catalog} {P : List (Path × Text) → Prop} (h : c.ReadInvariant P)
    (r : Request) : Expansion.KeepsReads P (r.run c) := by
  have htext := h.keeps_expandWithin c.depth
  have hfile := h.keeps_expandRead htext
  cases r with
  | text t p => exact htext t p
  | file p => exact hfile p
  | bundle p => exact (hfile p.normalize).bind fun e => keeps_pure _
  | tree t directory => exact Catalog.keeps_expandTreeWith hfile t directory

/-- All that is recorded on the way was read from the source. -/
theorem Request.read_of_mem_reads (c : Catalog) (flight : InFlight) (r : Request) :
    ∀ entry ∈ (stateAfter (r.run c) ⟨flight, []⟩).reads, c.source.read entry.1 = .ok entry.2 := by
  have hinvariant : c.ReadInvariant fun reads => ∀ entry ∈ reads, c.source.read entry.1 =
      .ok entry.2 :=
    fun p text reads hread hreads => List.forall_mem_cons.2 ⟨hread, hreads⟩
  exact r.keeps_run hinvariant ⟨flight, []⟩ (by simp)

/-! ## Remembered reads -/

namespace Disk

variable {d : Disk}

theorem tree_remember (d : Disk) (p : Path) (text : Text) :
    (d.remember p text).tree = d.tree := by
  rw [remember]
  split_ifs <;> rfl

theorem tree_rememberAll (d : Disk) (reads : List (Path × Text)) :
    (d.rememberAll reads).tree = d.tree := by
  induction reads with
  | nil => rfl
  | cons entry reads ih => exact (tree_remember _ _ _).trans ih

/-- A cache with everything that was in it, and more, has no text for a path only if there was
none. -/
theorem cached?_of_rememberAll {p : Path} (reads : List (Path × Text))
    (h : (d.rememberAll reads).cached? p = none) : d.cached? p = none := by
  induction reads with
  | nil => exact h
  | cons entry reads ih =>
    apply ih
    change ((d.rememberAll reads).remember entry.1 entry.2).cached? p = none at h
    rw [remember] at h
    split_ifs at h
    · exact h
    · rw [cached?, List.find?_append, Option.map_eq_none_iff, Option.or_eq_none_iff] at h
      rw [cached?, h.1, Option.map_none]

/-- What holds of all that is remembered, and of every text in the tree, holds after more
reads. -/
theorem forall_mem_rememberAll {P : Path × Text → Prop} {reads : List (Path × Text)}
    (hreads : ∀ entry ∈ reads, d.read entry.1 = .ok entry.2) (hcache : ∀ entry ∈ d.cache, P entry)
    (htree : ∀ entry, d.tree.read entry.1 = .ok entry.2 → P entry) :
    ∀ entry ∈ (d.rememberAll reads).cache, P entry := by
  induction reads with
  | nil => exact hcache
  | cons entry reads ih =>
    have hearlier := ih fun other hother => hreads other (List.mem_cons_of_mem _ hother)
    change ∀ other ∈ ((d.rememberAll reads).remember entry.1 entry.2).cache, P other
    rw [remember]
    cases hcached : (d.rememberAll reads).cached? entry.1 with
    | some text => exact hearlier
    | none =>
      have hread := hreads entry List.mem_cons_self
      rw [read, cached?_of_rememberAll reads hcached] at hread
      intro other hother
      rcases List.mem_append.1 hother with hold | hnew
      · exact hearlier other hold
      · cases List.mem_singleton.1 hnew
        exact htree entry hread

/-- Texts that were read from the disk can be remembered. -/
theorem Faithful.rememberAll (h : d.Faithful) {reads : List (Path × Text)}
    (hreads : ∀ entry ∈ reads, d.read entry.1 = .ok entry.2) :
    (d.rememberAll reads).Faithful := by
  rw [Faithful, tree_rememberAll]
  exact forall_mem_rememberAll hreads h fun _ hread => hread

end Disk

/-! ## Sources with the same files -/

namespace Catalog

open Expansion

variable {settings : Settings} {s₁ s₂ : Source}

/-- Lookups find the same files in both sources, and the files have the same texts. -/
structure SameFiles (s₁ s₂ : Source) : Prop extends SameLookups s₁ s₂ where
  read_eq : ∀ p, s₁.isFile p = true → s₁.read p = s₂.read p

theorem expandRead_congr {expand : Text → Path → Expansion Expanded} {p : Path}
    (h : s₁.read p = s₂.read p) :
    (Catalog.mk settings s₁).expandRead expand p =
      (Catalog.mk settings s₂).expandRead expand p := by
  have hread : (Catalog.mk settings s₁).readText p = (Catalog.mk settings s₂).readText p := by
    funext s
    rw [readText, readText, h]
  rw [expandRead, expandRead, hread]

namespace SameFiles

variable (h : SameFiles s₁ s₂)

include h

theorem expandTreeWith_eq {expand : Text → Path → Expansion Expanded} (tree : Text)
    (directory : Path) :
    (Catalog.mk settings s₁).expandTreeWith ((Catalog.mk settings s₁).expandRead expand) tree
        directory =
      (Catalog.mk settings s₂).expandTreeWith ((Catalog.mk settings s₂).expandRead expand) tree
        directory := by
  have hmembers : treeMembers s₁ = treeMembers s₂ := by
    funext directory
    rw [treeMembers_eq, treeMembers_eq, h.members_eq]
  rw [expandTreeWith, expandTreeWith]
  refine congrArg (· >>= _) ?_
  rw [hmembers]
  refine mapM_congr_of_mem fun p hp => ?_
  rw [← hmembers, treeMembers_eq, mem_membersByName, mem_stylesheetsIn] at hp
  obtain ⟨_, _, _, _, _, hfile⟩ := hp
  rw [expandRead_congr (h.read_eq p hfile)]

theorem contributeTree_eq {expand : Text → Path → Expansion Expanded} (directory : Path) :
    (Catalog.mk settings s₁).contributeTree
      ((Catalog.mk settings s₁).expandRead expand) directory =
      (Catalog.mk settings s₂).contributeTree ((Catalog.mk settings s₂).expandRead expand)
        directory := by
  funext d
  rw [contributeTree, contributeTree, h.expandTreeWith_eq]

theorem contributeFile_eq {expand : Text → Path → Expansion Expanded} (directory : Path) :
    (Catalog.mk settings s₁).contributeFile
      ((Catalog.mk settings s₁).expandRead expand) directory =
      (Catalog.mk settings s₂).contributeFile ((Catalog.mk settings s₂).expandRead expand)
        directory := by
  funext d
  rw [contributeFile, contributeFile, ← h.locate_eq]
  cases hlocate : (Catalog.mk settings s₁).locate d.target directory with
  | error cause => rfl
  | ok found =>
    have hfile := (of_locate_eq_ok hlocate).2
    exact congrArg (fun step => step >>= fun expanded =>
      pure (contribute d expanded.content (found :: expanded.dependencies)))
      (expandRead_congr (h.read_eq found hfile))

theorem expandWithin_eq (depth : Nat) :
    (Catalog.mk settings s₁).expandWithin depth =
      (Catalog.mk settings s₂).expandWithin depth := by
  induction depth with
  | zero => rfl
  | succ depth ih =>
    funext text p
    rw [expandWithin, expandWithin, expandDirectives, expandDirectives, ← ih, h.contributeFile_eq,
      h.contributeTree_eq]

end SameFiles

end Catalog

/-- Two disks with one tree, which both agree with it, have the same files. -/
theorem Disk.Faithful.sameFiles {d d' : Disk} (h : d.Faithful) (h' : d'.Faithful)
    (htree : d.tree = d'.tree) : Catalog.SameFiles d.source d'.source where
  toSameLookups :=
    Catalog.SameEntries.sameLookups ⟨congrArg FileTree.isFile htree,
      congrArg FileTree.isDirectory htree, congrArg FileTree.list htree⟩
  read_eq p hp := by
    have hp' : d'.tree.isFile p = true := htree ▸ hp
    change d.read p = d'.read p
    rw [h.read_eq hp, h'.read_eq hp', htree]

namespace Request

open Catalog Expansion

variable {settings : Settings} {s₁ s₂ : Source}

/-- The file that a request names itself. -/
def entry? : Request → Option Path
  | text _ _ => none
  | file p => some p
  | bundle p => some p.normalize
  | tree _ _ => none

theorem runWithin_congr (h : SameFiles s₁ s₂) (depth : Nat) {r : Request}
    (hentry : ∀ p ∈ r.entry?, s₁.read p = s₂.read p) :
    r.runWithin ⟨settings, s₁⟩ depth = r.runWithin ⟨settings, s₂⟩ depth := by
  have htext : (Catalog.mk settings s₁).expandWithin depth =
      (Catalog.mk settings s₂).expandWithin depth := h.expandWithin_eq depth
  cases r with
  | text t p => rw [runWithin, runWithin, htext]
  | file p => rw [runWithin, runWithin, ← htext, expandRead_congr (hentry p rfl)]
  | bundle p => rw [runWithin, runWithin, ← htext, expandRead_congr (hentry p.normalize rfl)]
  | tree t directory => rw [runWithin, runWithin, ← htext, h.expandTreeWith_eq]

theorem outcome_run_congr (h : SameFiles s₁ s₂) (h₁ : s₁.Lawful) (h₂ : s₂.Lawful) {r : Request}
    (hentry : ∀ p ∈ r.entry?, s₁.read p = s₂.read p) :
    outcome (r.run ⟨settings, s₁⟩) .empty = outcome (r.run ⟨settings, s₂⟩) .empty := by
  let limit := max s₁.chainLimit s₂.chainLimit
  calc outcome (r.run ⟨settings, s₁⟩) .empty
      = outcome (r.runWithin ⟨settings, s₁⟩ (limit + 1)) .empty :=
        outcome_run h₁ (Nat.le_max_left _ _) r
    _ = outcome (r.runWithin ⟨settings, s₂⟩ (limit + 1)) .empty := by
        rw [runWithin_congr h (limit + 1) hentry]
    _ = outcome (r.run ⟨settings, s₂⟩) .empty :=
        (outcome_run (c := ⟨settings, s₂⟩) h₂ (Nat.le_max_right _ _) r).symm

end Request

end StyleBundle
