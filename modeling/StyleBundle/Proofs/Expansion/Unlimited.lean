import StyleBundle.Proofs.Expansion.Depth

/-!
# Expansion without a limit

`Catalog.expandText` follows chains of inclusion up to a depth.  `Catalog.expandFreely` is the
same recursion without any depth.  A run of it that does not end has no result.  While it runs it
notes how many paths are in flight.

`Unlimited.Ends` says that a run ends, with which result, and how many paths were in flight at
most.  Every way of putting steps together keeps this.

A file that comes into flight takes one of the places that are left (`Catalog.Room`), and a file
that is in flight already is refused.  So the recursion ends (`Catalog.ends_expandFreely`), and
with the result that the recursion up to a depth has.  In particular this result is the same for
every depth that is large enough.
-/

namespace StyleBundle

/-- A step of expansion that may run forever and then has no result.  The number is the most paths
that were in flight at one moment so far. -/
abbrev Unlimited := ExceptT ResolveError (StateT Nat Option)

namespace Unlimited

variable {α β : Type}

/-- A result that is known. -/
def ofExcept (result : Except ResolveError α) : Unlimited α := fun peak =>
  some (result, peak)

/-- Notes how many paths are in flight. -/
def note (count : Nat) : Unlimited Unit := fun peak =>
  some (.ok (), max peak count)

end Unlimited

/-! ## The recursion -/

namespace Catalog

mutual

/-- Expands a text that stands in the file `p`, while the paths of `s` are in flight. -/
def expandFreely (c : Catalog) (text : Text) (p : Path) (s : InFlight) : Unlimited Expanded :=
  match s.enter? p.normalize with
  | none => Unlimited.ofExcept (.error (.circular p.normalize))
  | some s => do
    Unlimited.note s.size
    let directives := Directive.parse text
    let files ← (ofKind .require directives).mapM
      (c.contributeFreely (d := p.normalize.directory) (s := s))
    let trees ← (ofKind .requireTree directives).mapM
      (c.contributeFreely (d := p.normalize.directory) (s := s))
    return assemble text (files ++ trees)
partial_fixpoint

/-- The contribution of the directive `x` in a file of the directory `d`. -/
def contributeFreely (c : Catalog) (x : Directive) (d : Path) (s : InFlight) :
    Unlimited Contribution :=
  match x.kind with
  | .require => do
    let (found, expanded) ←
      Unlimited.ofExcept (c.locate x.target d) >>= includeFreely (c := c) (s := s)
    return contribute x expanded.content (found :: expanded.dependencies)
  | .requireTree => do
    let members ← (treeMembers c.source (treeDirectory x.target d)).mapM
      (includeFreely (c := c) (s := s))
    return contribute x (joinMembers members).content (joinMembers members).dependencies
partial_fixpoint

/-- Reads a file and expands it. -/
def includeFreely (p : Path) (c : Catalog) (s : InFlight) : Unlimited (Path × Expanded) := do
  let expanded ← Unlimited.ofExcept ((c.source.read p).mapError (.unreadable p)) >>=
    c.expandFreely (p := p) (s := s)
  return (p, expanded)
partial_fixpoint

end

end Catalog

/-! ## Runs that end -/

namespace Unlimited

variable {α β : Type} {bound : Nat}

/-- The step ends with the result.  The paths in flight are never more than `bound`, or than they
were before. -/
def Ends (step : Unlimited α) (result : Except ResolveError α) (bound : Nat) : Prop :=
  ∀ peak, ∃ peak', step peak = some (result, peak') ∧ peak ≤ peak' ∧ peak' ≤ max peak bound

theorem Ends.peak_le {step : Unlimited α} {result result' : Except ResolveError α} {peak : Nat}
    (h : Ends step result bound) (hrun : step 0 = some (result', peak)) : peak ≤ bound := by
  obtain ⟨peak', hrun', _, hle⟩ := h 0
  rw [hrun'] at hrun
  cases hrun
  simpa using hle

theorem Ends.result_unique {step : Unlimited α} {result result' : Except ResolveError α}
    {bound' : Nat} (h : Ends step result bound) (h' : Ends step result' bound') :
    result = result' := by
  obtain ⟨_, hrun, _⟩ := h 0
  obtain ⟨_, hrun', _⟩ := h' 0
  rw [hrun] at hrun'
  cases hrun'
  rfl

theorem Ends.mono {step : Unlimited α} {result : Except ResolveError α} {bound' : Nat}
    (h : Ends step result bound) (hle : bound ≤ bound') : Ends step result bound' := by
  intro peak
  obtain ⟨peak', hrun, hfrom, hto⟩ := h peak
  exact ⟨peak', hrun, hfrom, by omega⟩

theorem ends_ofExcept (result : Except ResolveError α) (bound : Nat) :
    Ends (ofExcept result) result bound :=
  fun peak => ⟨peak, rfl, Nat.le_refl peak, Nat.le_max_left peak bound⟩

theorem ends_pure (a : α) (bound : Nat) : Ends (pure a) (.ok a) bound :=
  ends_ofExcept (.ok a) bound

theorem Ends.bind {step : Unlimited α} {next : α → Unlimited β} {result : Except ResolveError α}
    {results : α → Except ResolveError β} (hstep : Ends step result bound)
    (hnext : ∀ a, result = .ok a → Ends (next a) (results a) bound) :
    Ends (step >>= next) (result >>= results) bound := by
  intro peak
  obtain ⟨between, hrun, hle, hbound⟩ := hstep peak
  cases result with
  | error cause =>
    refine ⟨between, ?_, hle, hbound⟩
    change (step peak >>= _) = _
    rw [hrun]
    rfl
  | ok a =>
    obtain ⟨last, hlast, hle', hbound'⟩ := hnext a rfl between
    refine ⟨last, ?_, by omega, by omega⟩
    change (step peak >>= _) = _
    rw [hrun]
    exact hlast

theorem Ends.after_note {next : Unlimited α} {result : Except ResolveError α} {count : Nat}
    (h : count ≤ bound) (hnext : Ends next result bound) :
    Ends (note count >>= fun _ => next) result bound := by
  have hnote : Ends (note count) (.ok ()) bound := fun peak =>
    ⟨max peak count, rfl, Nat.le_max_left peak count, by omega⟩
  exact hnote.bind fun _ _ => hnext

theorem ends_mapM {step : α → Unlimited β} {results : α → Except ResolveError β} {items : List α}
    (h : ∀ a ∈ items, Ends (step a) (results a) bound) :
    Ends (items.mapM step) (items.mapM results) bound := by
  induction items with
  | nil => exact ends_pure [] bound
  | cons a items ih =>
    rw [List.mapM_cons, List.mapM_cons]
    refine (h a List.mem_cons_self).bind fun b _ => ?_
    exact (ih fun a' ha' => h a' (List.mem_cons_of_mem a ha')).bind fun bs _ =>
      ends_pure (b :: bs) bound

end Unlimited

/-! ## One step of the recursion -/

namespace Catalog

open Expansion Unlimited

variable {c : Catalog} {flight : InFlight} {bound : Nat}

/-- What including a file gives, when the recursion has `depth` more files to go. -/
def inclusionOutcome (c : Catalog) (depth : Nat) (flight : InFlight) (p : Path) :
    Except ResolveError (Path × Expanded) := do
  let expanded ← c.fileOutcome depth flight p
  return (p, expanded)

/-- A path in flight is refused at once. -/
theorem ends_expandFreely_of_contains (depth : Nat) (text : Text) {p : Path}
    (h : flight.contains p.normalize = true) :
    Ends (c.expandFreely text p flight) (outcome (c.expandWithin depth text p) flight) bound := by
  rw [expandFreely.eq_def, InFlight.enter?_of_contains h, outcome_expandWithin_of_contains _ _ h]
  exact ends_ofExcept _ bound

private theorem ends_contributeFreely_require {depth : Nat} {directory : Path} {d : Directive}
    (hkind : d.kind = .require)
    (hchild : ∀ r, c.LeadsTo directory d r →
      Ends (c.includeFreely r flight) (c.inclusionOutcome depth flight r) bound) :
    Ends (c.contributeFreely d directory flight)
      (outcome (c.contributeFile (c.expandRead (c.expandWithin depth)) directory d) flight)
      bound := by
  have hresult : outcome
      (c.contributeFile (c.expandRead (c.expandWithin depth)) directory d) flight =
      (c.locate d.target directory >>= c.inclusionOutcome depth flight) >>= fun m =>
        .ok (contribute d m.2.content (m.1 :: m.2.dependencies)) := by
    rw [outcome_contributeFile (framed_expandRead (framed_expandWithin c depth))]
    simp only [inclusionOutcome, fileOutcome, bind_assoc, pure_bind]
    rfl
  rw [contributeFreely.eq_def, hkind, hresult]
  have hfound : Ends (Unlimited.ofExcept (c.locate d.target directory) >>= fun found =>
      c.includeFreely found flight)
      (c.locate d.target directory >>= c.inclusionOutcome depth flight) bound :=
    (ends_ofExcept _ bound).bind fun found h => hchild found ((leadsTo_require hkind).2 h)
  exact hfound.bind fun m _ => ends_pure _ bound

private theorem ends_contributeFreely_requireTree {depth : Nat} {directory : Path} {d : Directive}
    (hkind : d.kind = .requireTree)
    (hchild : ∀ r, c.LeadsTo directory d r →
      Ends (c.includeFreely r flight) (c.inclusionOutcome depth flight r) bound) :
    Ends (c.contributeFreely d directory flight)
      (outcome (c.contributeTree (c.expandRead (c.expandWithin depth)) directory d) flight)
      bound := by
  have hframed := framed_expandRead (c := c) (framed_expandWithin c depth)
  have hresult : outcome
      (c.contributeTree (c.expandRead (c.expandWithin depth)) directory d) flight =
      (treeMembers c.source (treeDirectory d.target directory)).mapM
        (c.inclusionOutcome depth flight) >>= fun members =>
          .ok (contribute d (joinMembers members).content
            (joinMembers members).dependencies) := by
    rw [outcome_contributeTree hframed, outcome_expandTreeWith hframed]
    simp only [bind_assoc, pure_bind]
    rfl
  rw [contributeFreely.eq_def, hkind, hresult]
  refine (ends_mapM fun r hr => hchild r ?_).bind fun members _ => ends_pure _ bound
  rw [treeMembers_eq, mem_membersByName] at hr
  exact (leadsTo_requireTree hkind).2 hr

/-- A text is expanded like up to a depth, if this is so for the files that its directives lead
to. -/
theorem ends_expandFreely_of_children {depth : Nat} {text : Text} {p : Path}
    (hcontains : flight.contains p.normalize = false) (hsize : flight.size + 1 ≤ bound)
    (hchild : ∀ d ∈ Directive.parse text, ∀ r, c.LeadsTo p.normalize.directory d r →
      Ends (c.includeFreely r (entered flight p)) (c.inclusionOutcome depth (entered flight p) r)
        bound) :
    Ends (c.expandFreely text p flight) (outcome (c.expandWithin (depth + 1) text p) flight)
      bound := by
  rw [expandFreely.eq_def, InFlight.enter?_of_not_contains hcontains,
    outcome_expandWithin_of_not_contains depth text hcontains,
    outcome_expandDirectives (framed_expandRead (framed_expandWithin c depth))]
  refine Ends.after_note hsize ?_
  refine (ends_mapM fun d hd => ?_).bind fun files _ =>
    (ends_mapM fun d hd => ?_).bind fun trees _ => ends_pure _ bound
  · obtain ⟨hmem, hkind⟩ := mem_ofKind.1 hd
    exact ends_contributeFreely_require hkind (hchild d hmem)
  · obtain ⟨hmem, hkind⟩ := mem_ofKind.1 hd
    exact ends_contributeFreely_requireTree hkind (hchild d hmem)

/-- A file is included like up to a depth, if this is so for its text. -/
theorem ends_includeFreely_of_text {depth : Nat} {p : Path}
    (htext : ∀ text, c.source.read p = .ok text →
      Ends (c.expandFreely text p flight) (outcome (c.expandWithin depth text p) flight) bound) :
    Ends (c.includeFreely p flight) (c.inclusionOutcome depth flight p) bound := by
  have hresult : c.fileOutcome depth flight p =
      (c.source.read p).mapError (.unreadable p) >>= fun text =>
        outcome (c.expandWithin depth text p) flight := by
    rw [fileOutcome, outcome_expandRead (framed_expandWithin c depth)]
    cases c.source.read p <;> rfl
  rw [includeFreely.eq_def, inclusionOutcome, hresult]
  refine Ends.bind ((ends_ofExcept _ bound).bind fun text h => ?_) fun e _ => ends_pure _ bound
  cases hread : c.source.read p with
  | ok read =>
    rw [hread] at h
    cases h
    exact htext text hread
  | error cause =>
    rw [hread] at h
    cases h

/-! ## The whole recursion -/

theorem Room.mono {s : Source} {n m : Nat} (h : Room s flight n) (hle : n ≤ m) :
    Room s flight m :=
  fun chain hchain hne => Nat.le_trans (h chain hchain hne) hle

/-- With one more path in flight there is not more room. -/
theorem Room.entered {s : Source} {n : Nat} (h : Room s flight n) (p : Path) :
    Room s (entered flight p) n := by
  intro chain hchain hne
  refine h chain (fun q hq => ⟨(hchain q hq).1, ?_⟩) hne
  rw [← Bool.not_eq_true]
  intro hin
  have hout := (hchain q hq).2
  rw [contains_entered.2 (.inr hin)] at hout
  cases hout

end Catalog

/-- The source with those files only whose paths are kept. -/
def Source.only (s : Source) (keep : Path → Bool) : Source :=
  { s with read := fun p => if keep p then s.read p else .error (.os .noEntry) }

theorem Source.only_read {s : Source} {keep : Path → Bool} {p : Path} (h : keep p = true) :
    (s.only keep).read p = s.read p :=
  if_pos h

theorem Source.only_read_eq_ok {s : Source} {keep : Path → Bool} {p : Path} {text : Text}
    (h : (s.only keep).read p = .ok text) : keep p = true ∧ s.read p = .ok text := by
  change (if keep p then s.read p else _) = _ at h
  split_ifs at h with hkeep
  exact ⟨hkeep, h⟩

namespace Catalog

variable {c : Catalog} {flight : InFlight}

theorem Room.only {s : Source} {flight : InFlight} {n : Nat} (h : Room s flight n)
    (keep : Path → Bool) : Room (s.only keep) flight n := by
  intro chain hchain hne
  refine h chain (fun p hp => ?_) hne
  obtain ⟨⟨text, hread⟩, hout⟩ := hchain p hp
  exact ⟨⟨text, (Source.only_read_eq_ok hread).2⟩, hout⟩

/-- Files that are kept lead to files that are kept. -/
def Encloses (c : Catalog) (keep : Path → Bool) : Prop :=
  ∀ p text, keep p = true → c.source.read p = .ok text →
    ∀ d r, c.LeadsTo p.normalize.directory d r → keep r = true

theorem encloses_all (c : Catalog) : c.Encloses fun _ => true :=
  fun _ _ _ _ _ _ _ => rfl

/-- Including a file ends.  At a place for each file that may still come, no more paths than the
places are in flight. -/
theorem ends_includeFreely {keep : Path → Bool} (hkeep : c.Encloses keep) {n : Nat} {p : Path}
    (hroom : Room (c.source.only keep) flight n) (hp : keep p = true) :
    Unlimited.Ends (c.includeFreely p flight) (c.inclusionOutcome n flight p)
      (flight.size + n) := by
  induction n generalizing flight p with
  | zero =>
    refine ends_includeFreely_of_text fun text hread => ?_
    cases hcontains : flight.contains p.normalize with
    | true => exact ends_expandFreely_of_contains 0 text hcontains
    | false =>
      obtain ⟨below, hbelow, _⟩ := hroom.enter ((Source.only_read hp).trans hread) hcontains
      omega
  | succ n ih =>
    refine ends_includeFreely_of_text fun text hread => ?_
    cases hcontains : flight.contains p.normalize with
    | true => exact ends_expandFreely_of_contains (n + 1) text hcontains
    | false =>
      obtain ⟨below, hbelow, hroom'⟩ := hroom.enter ((Source.only_read hp).trans hread) hcontains
      obtain rfl : n = below := by omega
      refine ends_expandFreely_of_children hcontains (by omega) fun d _ r hr => ?_
      have hend := ih hroom' (hkeep p text hp hread d r hr)
      have hsize : (entered flight p).size + n = flight.size + (n + 1) := by
        change flight.paths.length + 1 + n = flight.paths.length + (n + 1)
        omega
      rwa [hsize] at hend

/-- Expanding a text ends.  The text need not be that of a file, so its path takes no place. -/
theorem ends_expandFreely {keep : Path → Bool} (hkeep : c.Encloses keep) {n : Nat} {text : Text}
    {p : Path} (hroom : Room (c.source.only keep) flight n)
    (hp : ∀ d r, c.LeadsTo p.normalize.directory d r → keep r = true) :
    Unlimited.Ends (c.expandFreely text p flight)
      (Expansion.outcome (c.expandWithin (n + 1) text p) flight) (flight.size + n + 1) := by
  cases hcontains : flight.contains p.normalize with
  | true => exact ends_expandFreely_of_contains (n + 1) text hcontains
  | false =>
    refine ends_expandFreely_of_children hcontains (by omega) fun d _ r hr => ?_
    have hend := ends_includeFreely hkeep (hroom.entered p) (hp d r hr)
    have hsize : (entered flight p).size + n = flight.size + n + 1 := by
      change flight.paths.length + 1 + n = flight.paths.length + n + 1
      omega
    rwa [hsize] at hend

end Catalog

end StyleBundle
