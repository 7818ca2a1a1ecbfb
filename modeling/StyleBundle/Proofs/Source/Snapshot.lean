import Mathlib.Data.Set.Card
import StyleBundle.Proofs.Expansion.Reads

/-!
# A cache is a snapshot

Anyone may change the files of a disk between two reads.  A run is a list of events
(`Disk.Event`): reads, changes of the files, clears of the cache and questions.

`Disk.ReadSince` tells from the events and their answers, without looking at the cache, what was
read since the last clear.  One event changes it as it changes the cache (`readSince_append`,
`cached?_step`), so the cache holds exactly that after every run (`cached?_after`).  Therefore a
text that was read stays the same until the next clear (`reads_are_snapshots`).
-/

namespace StyleBundle

namespace Disk

/-! ## Runs -/

/-- What may happen to a disk. -/
inductive Event where
  /-- A path is read. -/
  | read (p : Path)
  /-- The files change. -/
  | edit (files : FileTree)
  /-- The cache is cleared. -/
  | clear
  /-- Does the path name a file? -/
  | isFile (p : Path)
  /-- Does the path name a directory? -/
  | isDirectory (p : Path)
  /-- What does the directory hold? -/
  | list (p : Path)
  /-- How many texts are in the cache? -/
  | size
deriving DecidableEq

/-- What an event is answered with. -/
inductive Answer where
  | text (result : Except IoFailure Text)
  | truth (holds : Bool)
  | entries (result : Except IoFailure (List Path))
  | number (n : Nat)
  | nothing

/-- The answer to an event and the disk after it. -/
def step (d : Disk) : Event → Answer × Disk
  | .read p => (.text (d.readThrough p).1, (d.readThrough p).2)
  | .edit files => (.nothing, { d with tree := files })
  | .clear => (.nothing, d.clearCache)
  | .isFile p => (.truth (d.source.isFile p), d)
  | .isDirectory p => (.truth (d.source.isDirectory p), d)
  | .list p => (.entries (d.source.list p), d)
  | .size => (.number d.cache.length, d)

/-- A disk on which nothing was read. -/
def fresh (files : FileTree) : Disk :=
  ⟨files, []⟩

/-- The disk after a run. -/
def after (d : Disk) (events : List Event) : Disk :=
  events.foldl (fun d e => (d.step e).2) d

/-- The answer to an event that follows a run on a fresh disk. -/
def answer (files : FileTree) (events : List Event) (e : Event) : Answer :=
  (((fresh files).after events).step e).1

/-- The files after a run, those of the last change. -/
def filesAfter (files : FileTree) : List Event → FileTree
  | [] => files
  | .edit changed :: events => filesAfter changed events
  | _ :: events => filesAfter files events

/-- Since the last clear a path with the components of `p` was read, and this was the text. -/
def ReadSince (files : FileTree) (events : List Event) (p : Path) (text : Text) : Prop :=
  ∃ before q since, events = before ++ .read q :: since ∧ .clear ∉ since ∧ p.same q = true ∧
    answer files before (.read q) = .text (.ok text)

variable {d : Disk} {files : FileTree} {events : List Event} {e : Event} {p q : Path}
  {text : Text}

theorem after_append (d : Disk) (events : List Event) (e : Event) :
    d.after (events ++ [e]) = ((d.after events).step e).2 := by
  rw [after, List.foldl_append]
  rfl

theorem filesAfter_append (files : FileTree) (events : List Event) (e : Event) :
    filesAfter files (events ++ [e]) = filesAfter (filesAfter files events) [e] := by
  induction events generalizing files with
  | nil => rfl
  | cons first events ih =>
    cases first with
    | edit changed => exact ih changed
    | read _ | clear | isFile _ | isDirectory _ | list _ | size => exact ih files

/-! ## One event -/

/-- A read is served from the cache, or from the files into the cache, or it fails. -/
theorem readThrough_cases (d : Disk) (p : Path) :
    (∃ text, d.cached? p = some text ∧ d.readThrough p = (.ok text, d)) ∨
      (∃ text, d.cached? p = none ∧ d.tree.read p = .ok text ∧
        d.readThrough p = (.ok text, ⟨d.tree, d.cache ++ [(p, text)]⟩)) ∨
      (∃ cause, d.cached? p = none ∧ d.tree.read p = .error cause ∧
        d.readThrough p = (.error cause, d)) := by
  cases hcached : d.cached? p with
  | some text =>
    have hread : d.read p = .ok text := by rw [read, hcached]
    have hkept : d.remember p text = d := by
      rw [remember, hcached, Option.isSome_some, if_pos rfl]
    refine .inl ⟨text, rfl, ?_⟩
    rw [readThrough, hread]
    exact congrArg (Prod.mk _) hkept
  | none =>
    have hread : d.read p = d.tree.read p := by rw [read, hcached]
    rw [readThrough, hread]
    cases htext : d.tree.read p with
    | ok text =>
      have hadded : d.remember p text = ⟨d.tree, d.cache ++ [(p, text)]⟩ := by
        rw [remember, hcached, Option.isSome_none, if_neg Bool.false_ne_true]
      exact .inr (.inl ⟨text, rfl, rfl, congrArg (Prod.mk _) hadded⟩)
    | error cause => exact .inr (.inr ⟨cause, rfl, rfl, rfl⟩)

theorem cached?_append (tree : FileTree) (cache : List (Path × Text)) (p q : Path) (text : Text) :
    (Disk.mk tree (cache ++ [(q, text)])).cached? p =
      ((Disk.mk tree cache).cached? p).or (if p.same q then some text else none) := by
  rw [cached?, cached?, List.find?_append, Option.map_or, List.find?_singleton]
  split_ifs with hsame
  · rfl
  · rfl

theorem tree_step (d : Disk) (e : Event) : (d.step e).2.tree = filesAfter d.tree [e] := by
  cases e with
  | read p =>
    obtain ⟨_, _, h⟩ | ⟨_, _, _, h⟩ | ⟨_, _, _, h⟩ := d.readThrough_cases p
    all_goals
      rw [step, h]
      rfl
  | edit _ | clear | isFile _ | isDirectory _ | list _ | size => rfl

/-- What is in the cache after a read was there before, or it is what was read. -/
theorem cached?_readThrough : (d.readThrough q).2.cached? p = some text ↔
    d.cached? p = some text ∨ p.same q = true ∧ (d.readThrough q).1 = .ok text := by
  have hsame : p.same q = true → d.cached? p = d.cached? q := fun h =>
    cached?_congr (Path.same_iff.1 h)
  obtain ⟨found, hcached, h⟩ | ⟨found, hcached, _, h⟩ | ⟨cause, _, _, h⟩ := d.readThrough_cases q
  · rw [h]
    refine ⟨.inl, ?_⟩
    rintro (hp | ⟨hpq, htext⟩)
    · exact hp
    · cases htext
      rw [hsame hpq, hcached]
  · rw [h]
    simp only [cached?_append]
    cases hpq : p.same q with
    | false => simp
    | true =>
      rw [hcached] at hsame
      simp [hsame hpq]
  · simp [h]

/-- What is in the cache after an event was there before, unless the cache was cleared, or it is
what the event read. -/
theorem cached?_step : (d.step e).2.cached? p = some text ↔
    (e ≠ .clear ∧ d.cached? p = some text) ∨
      ∃ q, e = .read q ∧ p.same q = true ∧ (d.step e).1 = .text (.ok text) := by
  cases e with
  | read q => simp [step, cached?_readThrough]
  | clear => simp [step, clearCache, cached?]
  | edit _ | isFile _ | isDirectory _ | list _ | size => simp [step, cached?]

/-- The components of the paths in the cache. -/
def cachedSteps (d : Disk) : List (List Component) :=
  d.cache.map fun entry => entry.1.components

theorem exists_cached?_iff :
    (∃ text, d.cached? p = some text) ↔ p.components ∈ d.cachedSteps := by
  constructor
  · rintro ⟨text, h⟩
    obtain ⟨q, hq, hcomponents⟩ := exists_mem_cache h
    exact List.mem_map.2 ⟨(q, text), hq, hcomponents.symm⟩
  · intro h
    obtain ⟨entry, hentry, hcomponents⟩ := List.mem_map.1 h
    rw [← Option.isSome_iff_exists, cached?, Option.isSome_map, List.find?_isSome]
    exact ⟨entry, hentry, Path.same_iff.2 hcomponents.symm⟩

/-- No event puts a path into the cache twice. -/
theorem nodup_cachedSteps_step (h : d.cachedSteps.Nodup) (e : Event) :
    (d.step e).2.cachedSteps.Nodup := by
  cases e with
  | read p =>
    rw [step]
    obtain ⟨_, _, hread⟩ | ⟨text, hcached, _, hread⟩ | ⟨_, _, _, hread⟩ := d.readThrough_cases p
    · rwa [hread]
    · have hnew : p.components ∉ d.cachedSteps := by
        rw [← exists_cached?_iff, hcached]
        simp
      rw [hread, cachedSteps, List.map_append, List.map_singleton, ← List.concat_eq_append]
      exact h.concat hnew
    · rwa [hread]
  | clear => exact List.nodup_nil
  | edit _ | isFile _ | isDirectory _ | list _ | size => exact h

/-- What was read since the last clear, after one more event. -/
theorem readSince_append : ReadSince files (events ++ [e]) p text ↔
    (e ≠ .clear ∧ ReadSince files events p text) ∨
      ∃ q, e = .read q ∧ p.same q = true ∧ answer files events e = .text (.ok text) := by
  constructor
  · rintro ⟨before, q, since, hevents, hclear, hsame, hanswer⟩
    rcases append_singleton_eq_append_cons_iff.1 hevents with ⟨_, rfl, rfl⟩ | ⟨since, rfl, rfl⟩
    · exact .inr ⟨q, rfl, hsame, hanswer⟩
    · obtain ⟨hsince, hne⟩ := notMem_append_singleton_iff.1 hclear
      exact .inl ⟨hne, before, q, since, rfl, hsince, hsame, hanswer⟩
  · rintro (⟨hclear, before, q, since, rfl, hsince, hsame, hanswer⟩ | ⟨q, rfl, hsame, hanswer⟩)
    · have hmore := notMem_append_singleton_iff.2 ⟨hsince, hclear⟩
      exact ⟨before, q, since ++ [e], by simp, hmore, hsame, hanswer⟩
    · exact ⟨events, q, [], rfl, List.not_mem_nil, hsame, hanswer⟩

/-! ## A run -/

theorem tree_after (files : FileTree) (events : List Event) :
    ((fresh files).after events).tree = filesAfter files events := by
  induction events using List.reverseRecOn with
  | nil => rfl
  | append_singleton events e ih => rw [after_append, tree_step, ih, filesAfter_append]

/-- The cache holds what was read since the last clear. -/
theorem cached?_after :
    ((fresh files).after events).cached? p = some text ↔ ReadSince files events p text := by
  induction events using List.reverseRecOn generalizing p text with
  | nil => simp [ReadSince, after, fresh, cached?]
  | append_singleton events e ih => rw [after_append, cached?_step, readSince_append, ih, answer]

theorem nodup_cachedSteps_after (files : FileTree) (events : List Event) :
    ((fresh files).after events).cachedSteps.Nodup := by
  induction events using List.reverseRecOn with
  | nil => exact List.nodup_nil
  | append_singleton events e ih =>
    rw [after_append]
    exact nodup_cachedSteps_step ih e

/-- A text that was read since the last clear is read again. -/
theorem answer_read_of_readSince (h : ReadSince files events p text) :
    answer files events (.read p) = .text (.ok text) := by
  rw [answer, step]
  obtain ⟨found, hcached, hread⟩ | ⟨_, hcached, _⟩ | ⟨_, hcached, _⟩ :=
    ((fresh files).after events).readThrough_cases p
  all_goals rw [cached?_after.2 h] at hcached
  · cases hcached
    rw [hread]
  · cases hcached
  · cases hcached

/-- A path that was not read since the last clear is read from the files as they are. -/
theorem answer_read_of_forall_not (h : ∀ text, ¬ ReadSince files events p text) :
    answer files events (.read p) = .text ((filesAfter files events).read p) := by
  have hcached : ((fresh files).after events).cached? p = none := by
    rw [Option.eq_none_iff_forall_ne_some]
    exact fun text htext => h text (cached?_after.1 htext)
  rw [answer, step, ← tree_after]
  obtain ⟨_, hfound, _⟩ | ⟨_, _, htree, hread⟩ | ⟨_, _, htree, hread⟩ :=
    ((fresh files).after events).readThrough_cases p
  · rw [hcached] at hfound
    cases hfound
  · rw [hread, htree]
  · rw [hread, htree]

/-- A read that fails leaves the disk as it is, and the path was not read since the last clear. -/
theorem of_answer_read_error {cause : IoFailure}
    (h : answer files events (.read p) = .text (.error cause)) :
    (fresh files).after (events ++ [.read p]) = (fresh files).after events ∧
      ∀ text, ¬ ReadSince files events p text := by
  constructor
  · rw [after_append]
    rw [answer, step] at h
    rw [step]
    obtain ⟨_, _, hread⟩ | ⟨_, _, _, hread⟩ | ⟨_, _, _, hread⟩ :=
      ((fresh files).after events).readThrough_cases p
    · rw [hread]
    · rw [hread] at h
      cases h
    · rw [hread]
  · intro text htext
    rw [answer_read_of_readSince htext] at h
    cases h

theorem ReadSince.congr (h : ReadSince files events p text) (hsame : p.same q = true) :
    ReadSince files events q text := by
  obtain ⟨before, r, since, hevents, hclear, hr, hanswer⟩ := h
  refine ⟨before, r, since, hevents, hclear, ?_, hanswer⟩
  rw [Path.same_iff] at hsame hr ⊢
  exact hsame.symm.trans hr

/-- What was read since the last clear was in the files at the first of these reads. -/
theorem ReadSince.exists_first (h : ReadSince files events p text) :
    ∃ before q since, events = before ++ .read q :: since ∧ .clear ∉ since ∧ p.same q = true ∧
      (∀ earlier, ¬ ReadSince files before p earlier) ∧ (filesAfter files before).read q =
        .ok text := by
  induction events using List.reverseRecOn with
  | nil => simp [ReadSince] at h
  | append_singleton events e ih =>
    by_cases hearlier : e ≠ .clear ∧ ReadSince files events p text
    · obtain ⟨before, q, since, rfl, hsince, hfirst⟩ := ih hearlier.2
      have hmore := notMem_append_singleton_iff.2 ⟨hsince, hearlier.1⟩
      exact ⟨before, q, since ++ [e], by simp, hmore, hfirst⟩
    · obtain ⟨q, rfl, hsame, hanswer⟩ := (readSince_append.1 h).resolve_left hearlier
      have hnone : ∀ earlier, ¬ ReadSince files events p earlier := by
        intro earlier hread
        have hagain := answer_read_of_readSince (hread.congr hsame)
        rw [hanswer] at hagain
        cases hagain
        exact hearlier ⟨by simp, hread⟩
      have hfiles := answer_read_of_forall_not fun earlier hread =>
        hnone earlier (hread.congr (Path.same_iff.2 (Path.same_iff.1 hsame).symm))
      rw [hanswer, Answer.text.injEq] at hfiles
      exact ⟨events, q, [], rfl, List.not_mem_nil, hsame, hnone, hfiles.symm⟩

/-- There are as many texts in the cache as paths were read since the last clear. -/
theorem length_cache_after (files : FileTree) (events : List Event) :
    ((fresh files).after events).cache.length =
      Set.ncard {steps | ∃ p text, ReadSince files events p text ∧ p.components = steps} := by
  have hset : {steps | ∃ p text, ReadSince files events p text ∧ p.components = steps} =
      (((fresh files).after events).cachedSteps.toFinset : Set (List Component)) := by
    ext steps
    rw [Set.mem_ofPred_eq, SetLike.mem_coe, List.mem_toFinset]
    constructor
    · rintro ⟨p, text, hread, rfl⟩
      exact exists_cached?_iff.1 ⟨text, cached?_after.2 hread⟩
    · intro hsteps
      obtain ⟨entry, _, rfl⟩ := List.mem_map.1 hsteps
      obtain ⟨text, htext⟩ := exists_cached?_iff.2 hsteps
      exact ⟨entry.1, text, cached?_after.1 htext, rfl⟩
  rw [hset, Set.ncard_coe_finset,
    List.toFinset_card_of_nodup (nodup_cachedSteps_after files events),
    cachedSteps, List.length_map]

/-- After every run from a fresh disk:

* A text that was read since the last clear is read again, for every path with these components.
  It is what the files held at the first of these reads.
* Any other path is read from the files as they are.
* A read that fails leaves the disk as it is, and the path can be read as soon as the files allow
  it.
* The size of the cache is the number of paths that were read since the last clear.
* Questions are about the files as they are. -/
theorem reads_are_snapshots (files : FileTree) (events : List Event) :
    (∀ p text, ReadSince files events p text →
      (∀ q, p.same q = true → answer files events (.read q) = .text (.ok text) ∧
        ∀ other, ReadSince files events q other → other = text) ∧
      ∃ before q since, events = before ++ .read q :: since ∧ .clear ∉ since ∧ p.same q = true ∧
        (∀ earlier, ¬ ReadSince files before p earlier) ∧
          (filesAfter files before).read q = .ok text) ∧
    (∀ p, (∀ text, ¬ ReadSince files events p text) →
      answer files events (.read p) = .text ((filesAfter files events).read p)) ∧
    (∀ p cause, answer files events (.read p) = .text (.error cause) →
      (fresh files).after (events ++ [.read p]) = (fresh files).after events ∧
        ∀ changed text, changed.read p = .ok text →
          answer files (events ++ [.read p] ++ [.edit changed]) (.read p) = .text (.ok text)) ∧
    answer files events .size = .number
      (Set.ncard {steps | ∃ p text, ReadSince files events p text ∧ p.components = steps}) ∧
    ∀ p, answer files events (.isFile p) = .truth ((filesAfter files events).isFile p) ∧
      answer files events (.isDirectory p) = .truth ((filesAfter files events).isDirectory p) ∧
      answer files events (.list p) = .entries ((filesAfter files events).list p) := by
  refine ⟨fun p text h => ⟨fun q hsame => ?_, h.exists_first⟩, fun p => answer_read_of_forall_not,
    fun p cause h => ?_, ?_, fun p => ?_⟩
  · have hread := answer_read_of_readSince (h.congr hsame)
    refine ⟨hread, fun other hother => ?_⟩
    rw [answer_read_of_readSince hother] at hread
    cases hread
    rfl
  · obtain ⟨hafter, hnone⟩ := of_answer_read_error h
    refine ⟨hafter, fun changed text htext => ?_⟩
    -- The failed read and the change leave what was read since the last clear as it was.
    have hstill : ∀ found,
        ¬ ReadSince files (events ++ [.read p] ++ [.edit changed]) p found := by
      intro found hfound
      rw [← cached?_after, after_append, hafter] at hfound
      exact hnone found (cached?_after.1 hfound)
    rw [answer_read_of_forall_not hstill, filesAfter_append]
    exact congrArg Answer.text htext
  · rw [← length_cache_after]
    rfl
  · rw [← tree_after]
    exact ⟨rfl, rfl, rfl⟩

/-! ### A file that changes and a file that comes later -/

/-- The files at the start. -/
def oneFile : FileTree :=
  ⟨[(["a".toList], .file (.text "old".toList))], []⟩

/-- The files after an edit: one text is new, and so is one file. -/
def twoFiles : FileTree :=
  ⟨[(["a".toList], .file (.text "new".toList)), (["b".toList], .file (.text "late".toList))], []⟩

/-- The second file is asked for before it is there. -/
def earlyReads : List Event :=
  [.read ⟨"/b".toList⟩, .read ⟨"/a".toList⟩, .edit twoFiles]

/-- The first file is read from the cache, under another spelling as well, and the second one from
the files. -/
theorem early_snapshot :
    ReadSince oneFile earlyReads ⟨"/a".toList⟩ "old".toList ∧
      answer oneFile earlyReads (.read ⟨"//a/.".toList⟩) = .text (.ok "old".toList) ∧
      (∀ text, ¬ ReadSince oneFile earlyReads ⟨"/b".toList⟩ text) ∧
      answer oneFile earlyReads (.read ⟨"/b".toList⟩) = .text (.ok "late".toList) ∧
      answer oneFile [] (.read ⟨"/b".toList⟩) = .text (.error (.os .noEntry)) ∧
      answer oneFile ([] ++ [.read ⟨"/b".toList⟩] ++ [.edit twoFiles]) (.read ⟨"/b".toList⟩) =
        .text (.ok "late".toList) := by
  have hold : ReadSince oneFile earlyReads ⟨"/a".toList⟩ "old".toList :=
    ⟨[.read ⟨"/b".toList⟩], ⟨"/a".toList⟩, [.edit twoFiles], rfl, by decide, by decide, rfl⟩
  have hfailed : answer oneFile [] (.read ⟨"/b".toList⟩) = .text (.error (.os .noEntry)) := rfl
  have hunread : ∀ text, ¬ ReadSince oneFile earlyReads ⟨"/b".toList⟩ text := by
    intro text h
    have hnone : ((fresh oneFile).after earlyReads).cached? ⟨"/b".toList⟩ = none := rfl
    rw [← cached?_after, hnone] at h
    cases h
  obtain ⟨hread, hfresh, _⟩ := reads_are_snapshots oneFile earlyReads
  exact ⟨hold, ((hread _ _ hold).1 _ (by decide)).1, hunread, hfresh _ hunread, hfailed,
    ((reads_are_snapshots oneFile []).2.2.1 _ _ hfailed).2 twoFiles _ rfl⟩

end Disk

end StyleBundle
