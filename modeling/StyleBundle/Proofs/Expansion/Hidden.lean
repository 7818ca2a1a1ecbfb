import StyleBundle.Proofs.Expansion.Agreement
import StyleBundle.Proofs.Expansion.Canonical
import StyleBundle.Proofs.Expansion.Reads

/-!
# Expansions that read no hidden file

A source may have outgrown another one: it has all of its files, and what it has besides, or holds
in another way, is hidden (`Catalog.Outgrows`).  A request that reads nothing hidden from the
first source is answered alike by the second one, be it with a text or with an error
(`Request.outcome_run_of_avoids`).

The two runs are followed side by side.  As long as the first one avoids what is hidden, both have
the same outcome (`Expansion.Mirrors`).  Where the first one comes to a file that the second one
does not have, it reads the file and so does not avoid it (`Expansion.Reveals`).
-/

namespace StyleBundle

/-! ## Steps side by side -/

namespace Expansion

variable {α β : Type} {hidden : Path → Prop} {s s' : Session}

/-- When the step has ended, no read of a hidden path is recorded. -/
def Avoids (hidden : Path → Prop) (step : Expansion α) (s : Session) : Prop :=
  ∀ entry ∈ (stateAfter step s).reads, ¬ hidden entry.1

/-- The step always reads something hidden. -/
def Reveals (hidden : Path → Prop) (step : Expansion α) : Prop :=
  ∀ s, ¬ Avoids hidden step s

/-- The steps have the same outcome, if the first one avoids what is hidden. -/
structure Mirrors (hidden : Path → Prop) (step₁ step₂ : Expansion α) : Prop where
  framed₁ : Framed step₁
  framed₂ : Framed step₂
  outcome_eq : ∀ s, Avoids hidden step₁ s → outcome step₁ s.inFlight = outcome step₂ s.inFlight

theorem Framed.reads_subset {step : Expansion α} (h : Framed step) (s : Session) :
    s.reads ⊆ (stateAfter step s).reads := by
  obtain ⟨reads, hanswer⟩ := h s
  rw [stateAfter_of_answer hanswer]
  exact List.subset_append_right reads s.reads

theorem Framed.inFlight_of_ok {step : Expansion α} (h : Framed step) {a : α}
    (hrun : step s = .ok a s') :
    s'.inFlight = s.inFlight := by
  obtain ⟨reads, hanswer⟩ := h s
  rw [← stateAfter_of_ok hrun, stateAfter_of_answer hanswer]
  rfl

theorem mirrors_refl {step : Expansion α} (h : Framed step) : Mirrors hidden step step :=
  ⟨h, h, fun _ _ => rfl⟩

theorem Reveals.mirrors {step₁ step₂ : Expansion α} (h : Reveals hidden step₁) (h₁ : Framed step₁)
    (h₂ : Framed step₂) : Mirrors hidden step₁ step₂ :=
  ⟨h₁, h₂, fun s hs => absurd hs (h s)⟩

section Bind

variable {step step₁ step₂ : Expansion α} {next next₁ next₂ : α → Expansion β}

/-- What the first step has read is still recorded at the end. -/
theorem Avoids.of_bind (h : Avoids hidden (step >>= next) s) (hnext : ∀ a, Framed (next a)) :
    Avoids hidden step s := by
  intro entry hentry
  apply h entry
  cases hrun : step s with
  | ok a s' =>
    rw [stateAfter_of_ok hrun] at hentry
    rw [stateAfter, bind_of_ok hrun]
    exact (hnext a).reads_subset s' hentry
  | error cause s' =>
    rw [stateAfter, bind_of_error hrun]
    rwa [stateAfter_of_error hrun] at hentry

theorem Avoids.rest {a : α} (h : Avoids hidden (step >>= next) s) (hrun : step s = .ok a s') :
    Avoids hidden (next a) s' := by
  rw [Avoids, stateAfter, bind_of_ok hrun] at h
  exact h

theorem Reveals.bind (h : Reveals hidden step) (hnext : ∀ a, Framed (next a)) :
    Reveals hidden (step >>= next) :=
  fun s hs => h s (hs.of_bind hnext)

theorem Mirrors.bind (hstep : Mirrors hidden step₁ step₂)
    (hnext : ∀ a, Mirrors hidden (next₁ a) (next₂ a)) :
    Mirrors hidden (step₁ >>= next₁) (step₂ >>= next₂) := by
  have hnext₁ := fun a => (hnext a).framed₁
  have hnext₂ := fun a => (hnext a).framed₂
  refine ⟨hstep.framed₁.bind hnext₁, hstep.framed₂.bind hnext₂, fun s hs => ?_⟩
  have hsame := hstep.outcome_eq s (hs.of_bind hnext₁)
  rw [outcome_bind hstep.framed₁ hnext₁, outcome_bind hstep.framed₂ hnext₂, ← hsame]
  cases hrun : step₁ s with
  | error cause s' =>
    rw [hstep.framed₁.outcome_of_error hrun]
    rfl
  | ok a s' =>
    have hrest := (hnext a).outcome_eq s' (hs.rest hrun)
    rw [hstep.framed₁.inFlight_of_ok hrun] at hrest
    rw [hstep.framed₁.outcome_of_ok hrun]
    exact hrest

end Bind

/-- Items for which the first run would read something hidden may be missing in the second one. -/
theorem Mirrors.mapM_filter {step₁ step₂ : α → Expansion β} (keep : α → Bool) {items : List α}
    (h₁ : ∀ a, Framed (step₁ a)) (h₂ : ∀ a, Framed (step₂ a))
    (hkept : ∀ a ∈ items, keep a = true → Mirrors hidden (step₁ a) (step₂ a))
    (hdropped : ∀ a ∈ items, keep a = false → Reveals hidden (step₁ a)) :
    Mirrors hidden (items.mapM step₁) ((items.filter keep).mapM step₂) := by
  induction items with
  | nil => exact mirrors_refl (framed_pure [])
  | cons a items ih =>
    have hrest := ih (fun b hb => hkept b (List.mem_cons_of_mem a hb)) fun b hb =>
      hdropped b (List.mem_cons_of_mem a hb)
    rw [List.mapM_cons]
    by_cases hkeep : keep a = true
    · rw [List.filter_cons_of_pos hkeep, List.mapM_cons]
      exact (hkept a List.mem_cons_self hkeep).bind fun b =>
        hrest.bind fun bs => mirrors_refl (framed_pure (b :: bs))
    · rw [Bool.not_eq_true] at hkeep
      have hnext : ∀ b, Framed (do let bs ← items.mapM step₁; pure (b :: bs)) := fun b =>
        (Framed.mapM h₁ items).bind fun bs => framed_pure (b :: bs)
      exact ((hdropped a List.mem_cons_self hkeep).bind hnext).mirrors ((h₁ a).bind hnext)
        (Framed.mapM h₂ _)

theorem Mirrors.mapM {step₁ step₂ : α → Expansion β} {items : List α} (h₁ : ∀ a, Framed (step₁ a))
    (h₂ : ∀ a, Framed (step₂ a)) (h : ∀ a ∈ items, Mirrors hidden (step₁ a) (step₂ a)) :
    Mirrors hidden (items.mapM step₁) (items.mapM step₂) := by
  have hall := Mirrors.mapM_filter (fun _ => true) h₁ h₂ (fun a ha _ => h a ha)
    fun a _ hfalse => by
    cases hfalse
  rwa [List.filter_true] at hall

theorem Mirrors.guarded {p : Path} {step₁ step₂ : Expansion α} (h : Mirrors hidden step₁ step₂) :
    Mirrors hidden (guarded p step₁) (guarded p step₂) := by
  refine ⟨h.framed₁.guarded, h.framed₂.guarded, fun s hs => ?_⟩
  rw [outcome_guarded h.framed₁, outcome_guarded h.framed₂]
  cases henter : s.inFlight.enter? p with
  | none => rfl
  | some flight =>
    refine h.outcome_eq ⟨flight, s.reads⟩ ?_
    -- The path is released at the end, which leaves the reads as they are.
    rw [Avoids, stateAfter, Expansion.guarded, henter] at hs
    rw [Avoids, stateAfter]
    cases hrun : step₁ ⟨flight, s.reads⟩ with
    | ok a s' =>
      simp only [hrun] at hs
      exact hs
    | error cause s' =>
      simp only [hrun] at hs
      exact hs

end Expansion

/-! ## Sources that have outgrown others -/

namespace Catalog

open Expansion

variable {settings : Settings} {s₁ s₂ : Source} {hidden : Path → Prop} {directory p : Path}

/-- The sources read the path alike, or it is hidden and the first source can read it. -/
def ReadsAlike (hidden : Path → Prop) (s₁ s₂ : Source) (p : Path) : Prop :=
  s₁.read p = s₂.read p ∨ hidden p ∧ ∃ text, s₁.read p = .ok text

/-- The first source has the files of the second one.  What is no file of the second one, or is
read in another way, is hidden and can be read. -/
structure Outgrows (hidden : Path → Prop) (s₁ s₂ : Source) : Prop where
  isFile : ∀ p, s₂.isFile p = true → s₁.isFile p = true
  read_cases : ∀ p, p.Canonical → s₁.isFile p = true →
    s₂.isFile p = true ∧ s₁.read p = s₂.read p ∨ hidden p ∧ ∃ text, s₁.read p = .ok text
  members_eq : ∀ directory, directory.Canonical →
    membersByName s₂ directory = (membersByName s₁ directory).filter s₂.isFile

theorem reveals_expandRead {expand : Text → Path → Expansion Expanded} {text : Text}
    (hframed : ∀ text p, Framed (expand text p)) (hhidden : hidden p)
    (hread : s₁.read p = .ok text) :
    Reveals hidden ((Catalog.mk settings s₁).expandRead expand p) := by
  intro s hs
  have havoids := hs.of_bind fun text => hframed text p
  rw [Avoids, stateAfter, readText, hread] at havoids
  exact havoids (p, text) List.mem_cons_self hhidden

theorem ReadsAlike.mirrors_expandRead (h : ReadsAlike hidden s₁ s₂ p)
    {expand₁ expand₂ : Text → Path → Expansion Expanded} (h₁ : ∀ text p, Framed (expand₁ text p))
    (h₂ : ∀ text p, Framed (expand₂ text p))
    (hp : ∀ text, Mirrors hidden (expand₁ text p) (expand₂ text p)) :
    Mirrors hidden ((Catalog.mk settings s₁).expandRead expand₁ p)
      ((Catalog.mk settings s₂).expandRead expand₂ p) := by
  rcases h with hsame | ⟨hhidden, text, hread⟩
  · rw [← expandRead_congr hsame]
    exact (mirrors_refl (framed_readText _ p)).bind hp
  · exact (reveals_expandRead h₁ hhidden hread).mirrors (framed_expandRead h₁ p)
      (framed_expandRead h₂ p)

namespace Outgrows

variable (h : Outgrows hidden s₁ s₂)
include h

/-- A lookup that finds a file of the second source finds it there, and one that finds nothing
finds nothing there. -/
theorem locate_eq {target : Text}
    (hfile : ∀ q, (Catalog.mk settings s₁).locate target directory = .ok q → s₂.isFile q = true) :
    (Catalog.mk settings s₂).locate target directory =
      (Catalog.mk settings s₁).locate target directory := by
  have hfind : (Catalog.mk settings s₂).findFile? (applyAlias settings.aliases target) directory =
      (Catalog.mk settings s₁).findFile? (applyAlias settings.aliases target) directory := by
    rw [findFile?_eq_find?, findFile?_eq_find?]
    refine find?_eq_of_imp h.isFile fun q hq => hfile q ?_
    rw [locate, findFile?_eq_find?, hq]
  rw [locate, locate, hfind]

section Contributions

variable {expand₁ expand₂ : Path → Expansion Expanded} (h₁ : ∀ p, Framed (expand₁ p))
  (h₂ : ∀ p, Framed (expand₂ p)) {d : Directive}
  (hkept : ∀ q, (Catalog.mk settings s₁).LeadsTo directory d q → s₂.isFile q = true →
    Mirrors hidden (expand₁ q) (expand₂ q))
  (hdropped : ∀ q, (Catalog.mk settings s₁).LeadsTo directory d q → s₂.isFile q = false →
    Reveals hidden (expand₁ q))
include h₁ h₂ hkept hdropped

theorem mirrors_contributeFile (hkind : d.kind = .require) :
    Mirrors hidden ((Catalog.mk settings s₁).contributeFile expand₁ directory d)
      ((Catalog.mk settings s₂).contributeFile expand₂ directory d) := by
  have hframed₁ := framed_contributeFile (c := ⟨settings, s₁⟩) h₁ directory d
  have hframed₂ := framed_contributeFile (c := ⟨settings, s₂⟩) h₂ directory d
  cases hlocate : (Catalog.mk settings s₁).locate d.target directory with
  | error cause =>
    refine ⟨hframed₁, hframed₂, fun s _ => ?_⟩
    have hnone : ∀ q, (Catalog.mk settings s₁).locate d.target directory = .ok q →
        s₂.isFile q = true := by
      intro q hq
      rw [hlocate] at hq
      cases hq
    rw [outcome_contributeFile h₁, outcome_contributeFile h₂, h.locate_eq hnone, hlocate]
    rfl
  | ok q =>
    have hlead := (leadsTo_require hkind).2 hlocate
    have hnext : ∀ e : Expanded, Framed (pure (contribute d e.content (q :: e.dependencies))) :=
      fun e => framed_pure _
    by_cases hfile : s₂.isFile q = true
    · have hsame : (Catalog.mk settings s₂).locate d.target directory = .ok q := by
        rw [h.locate_eq, hlocate]
        intro q' hq'
        obtain rfl : q = q' := Except.ok.inj (hlocate.symm.trans hq')
        exact hfile
      rw [contributeFile, contributeFile, hlocate, hsame]
      exact (hkept q hlead hfile).bind fun e => mirrors_refl (hnext e)
    · rw [Bool.not_eq_true] at hfile
      refine Reveals.mirrors ?_ hframed₁ hframed₂
      rw [contributeFile, hlocate]
      exact (hdropped q hlead hfile).bind hnext

theorem mirrors_expandTreeWith (hdirectory : directory.isAbsolute = true)
    (hkind : d.kind = .requireTree) :
    Mirrors hidden ((Catalog.mk settings s₁).expandTreeWith expand₁ d.target directory)
      ((Catalog.mk settings s₂).expandTreeWith expand₂ d.target directory) := by
  have hmember₁ : ∀ p, Framed (do let e ← expand₁ p; return (p, e)) := fun p =>
    (h₁ p).bind fun e => framed_pure (p, e)
  have hmember₂ : ∀ p, Framed (do let e ← expand₂ p; return (p, e)) := fun p =>
    (h₂ p).bind fun e => framed_pure (p, e)
  have htree := h.members_eq (treeDirectory d.target directory)
    (Path.canonical_normalize (Path.isAbsolute_push hdirectory _))
  have hlead : ∀ q ∈ membersByName s₁ (treeDirectory d.target directory),
      (Catalog.mk settings s₁).LeadsTo directory d q := fun q hq =>
    (leadsTo_requireTree hkind).2 (mem_membersByName.1 hq)
  rw [expandTreeWith, expandTreeWith]
  simp only [treeMembers_eq, htree]
  refine (Mirrors.mapM_filter s₂.isFile hmember₁ hmember₂ ?_ ?_).bind fun members =>
    mirrors_refl (framed_pure (joinMembers members))
  · exact fun q hq hfile => (hkept q (hlead q hq) hfile).bind fun e =>
      mirrors_refl (framed_pure (q, e))
  · exact fun q hq hfile => (hdropped q (hlead q hq) hfile).bind fun e => framed_pure (q, e)

end Contributions

section Directives

variable (hsource : s₁.Grounded) (hbuilt : settings.Built)
  (hdirectory : directory.isAbsolute = true)
  {expand₁ expand₂ : Text → Path → Expansion Expanded} (h₁ : ∀ text p, Framed (expand₁ text p))
  (h₂ : ∀ text p, Framed (expand₂ text p))
include hsource hbuilt hdirectory h₁

theorem reveals_of_leadsTo {d : Directive} {q : Path}
    (hlead : (Catalog.mk settings s₁).LeadsTo directory d q) (hfile : s₂.isFile q = false) :
    Reveals hidden ((Catalog.mk settings s₁).expandRead expand₁ q) := by
  obtain ⟨hcanonical, _⟩ := canonical_of_leadsTo hsource hbuilt hdirectory hlead
  rcases h.read_cases q hcanonical hlead.isFile with ⟨hthere, _⟩ | ⟨hhidden, text, hread⟩
  · rw [hfile] at hthere
    cases hthere
  · exact reveals_expandRead h₁ hhidden hread

variable (hexpand : ∀ text q, q.normalize.directory.isAbsolute = true →
  Mirrors hidden (expand₁ text q) (expand₂ text q))
include h₂ hexpand

theorem mirrors_of_leadsTo {d : Directive} {q : Path}
    (hlead : (Catalog.mk settings s₁).LeadsTo directory d q) :
    Mirrors hidden ((Catalog.mk settings s₁).expandRead expand₁ q)
      ((Catalog.mk settings s₂).expandRead expand₂ q) := by
  obtain ⟨hcanonical, hbelow⟩ := canonical_of_leadsTo hsource hbuilt hdirectory hlead
  have halike : ReadsAlike hidden s₁ s₂ q :=
    (h.read_cases q hcanonical hlead.isFile).imp_left And.right
  exact halike.mirrors_expandRead h₁ h₂ fun text => hexpand text q hbelow

theorem mirrors_expandTree {d : Directive} (hkind : d.kind = .requireTree) :
    Mirrors hidden
      ((Catalog.mk settings s₁).expandTreeWith
        ((Catalog.mk settings s₁).expandRead expand₁) d.target directory)
      ((Catalog.mk settings s₂).expandTreeWith
        ((Catalog.mk settings s₂).expandRead expand₂) d.target directory) :=
  h.mirrors_expandTreeWith (framed_expandRead h₁) (framed_expandRead h₂)
    (fun _ hlead _ => h.mirrors_of_leadsTo hsource hbuilt hdirectory h₁ h₂ hexpand hlead)
    (fun _ hlead hfile => h.reveals_of_leadsTo hsource hbuilt hdirectory h₁ hlead hfile)
      hdirectory hkind

theorem mirrors_expandDirectives (text : Text) :
    Mirrors hidden
      ((Catalog.mk settings s₁).expandDirectives ((Catalog.mk settings s₁).expandRead expand₁)
        text directory)
      ((Catalog.mk settings s₂).expandDirectives
        ((Catalog.mk settings s₂).expandRead expand₂) text directory) := by
  have hfile₁ := framed_expandRead (c := ⟨settings, s₁⟩) h₁
  have hfile₂ := framed_expandRead (c := ⟨settings, s₂⟩) h₂
  refine (Mirrors.mapM (framed_contributeFile hfile₁ directory)
    (framed_contributeFile hfile₂ directory)
    fun d hd => ?_).bind fun files => (Mirrors.mapM (framed_contributeTree hfile₁ directory)
      (framed_contributeTree hfile₂ directory) fun d hd => ?_).bind fun trees =>
        mirrors_refl (framed_pure _)
  · exact h.mirrors_contributeFile hfile₁ hfile₂
      (fun _ hlead _ => h.mirrors_of_leadsTo hsource hbuilt hdirectory h₁ h₂ hexpand hlead)
      (fun _ hlead hfile => h.reveals_of_leadsTo hsource hbuilt hdirectory h₁ hlead hfile)
      (mem_ofKind.1 hd).2
  · have htree := h.mirrors_expandTree hsource hbuilt hdirectory h₁ h₂ hexpand (mem_ofKind.1 hd).2
    exact htree.bind fun e => mirrors_refl (framed_pure _)

end Directives

/-- Expansion from an absolute directory is mirrored, however deep it goes. -/
theorem mirrors_expandWithin (hsource : s₁.Grounded) (hbuilt : settings.Built) (depth : Nat)
    (text : Text) (hp : p.normalize.directory.isAbsolute = true) :
    Mirrors hidden ((Catalog.mk settings s₁).expandWithin depth text p)
      ((Catalog.mk settings s₂).expandWithin depth text p) := by
  induction depth generalizing text p with
  | zero => exact mirrors_refl (framed_throw _)
  | succ depth ih =>
    have hframed₁ := framed_expandWithin ⟨settings, s₁⟩ depth
    have hframed₂ := framed_expandWithin ⟨settings, s₂⟩ depth
    exact (h.mirrors_expandDirectives hsource hbuilt hp hframed₁ hframed₂
      (fun text q hq => ih text hq) text).guarded

end Outgrows

end Catalog

/-! ## Requests -/

namespace Request

open Catalog Expansion

variable {settings : Settings} {s₁ s₂ : Source} {hidden : Path → Prop} {r : Request}

theorem mirrors_runWithin (h : Outgrows hidden s₁ s₂) (hsource : s₁.Grounded)
    (hbuilt : settings.Built) (depth : Nat) (hdirectory : r.directory.isAbsolute = true)
    (hentry : ∀ p ∈ r.entry?, ReadsAlike hidden s₁ s₂ p) :
    Mirrors hidden (r.runWithin ⟨settings, s₁⟩ depth) (r.runWithin ⟨settings, s₂⟩ depth) := by
  have htext : ∀ (text : Text) (p : Path), p.normalize.directory.isAbsolute = true →
      Mirrors hidden ((Catalog.mk settings s₁).expandWithin depth text p)
        ((Catalog.mk settings s₂).expandWithin depth text p) := fun text p =>
    h.mirrors_expandWithin hsource hbuilt depth text
  have h₁ := framed_expandWithin ⟨settings, s₁⟩ depth
  have h₂ := framed_expandWithin ⟨settings, s₂⟩ depth
  cases r with
  | text t p => exact htext t p hdirectory
  | file p => exact (hentry p rfl).mirrors_expandRead h₁ h₂ fun text => htext text p hdirectory
  | bundle p =>
    have hnormal : p.normalize.normalize.directory.isAbsolute = true := by
      rw [Path.normalize_normalize]
      exact hdirectory
    refine Mirrors.bind ?_ fun e => mirrors_refl (framed_pure _)
    exact (hentry p.normalize rfl).mirrors_expandRead h₁ h₂ fun text => htext text _ hnormal
  | tree t directory =>
    exact h.mirrors_expandTree hsource hbuilt hdirectory h₁ h₂ htext
      (d := ⟨.requireTree, t, [], 0⟩) rfl

/-- A request that reads nothing hidden is answered alike by a source that was outgrown. -/
theorem outcome_run_of_avoids (h : Outgrows hidden s₁ s₂) (hsource : s₁.Grounded)
    (hbuilt : settings.Built) (hlawful : s₂.Lawful) (hlimit : s₂.chainLimit ≤ s₁.chainLimit)
    (hdirectory : r.directory.isAbsolute = true)
    (hentry : ∀ p ∈ r.entry?, ReadsAlike hidden s₁ s₂ p)
    (havoids : Avoids hidden (r.run ⟨settings, s₁⟩) .start) :
    outcome (r.run ⟨settings, s₁⟩) .empty = outcome (r.run ⟨settings, s₂⟩) .empty := by
  rw [outcome_run (c := ⟨settings, s₂⟩) hlawful hlimit]
  rw [run_eq_runWithin] at havoids ⊢
  exact (mirrors_runWithin h hsource hbuilt _ hdirectory hentry).outcome_eq .start havoids

end Request

end StyleBundle
