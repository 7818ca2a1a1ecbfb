import StyleBundle.Proofs.Path.Absolute
import StyleBundle.Proofs.Source.Snapshot

/-!
# Reading through a cache while the files stay

The cache of a disk knows a text by the components of its path.  The files ask more of a path than
its components: the text must be short, and nothing may follow the name of a file
(`Path.asksDirectory`).  Apart from that all spellings of a file are read alike
(`FileTree.read_of_same`).

While the files stay, what the cache holds was read from them since the last clear
(`Disk.readSince_iff_of_steady`).  Therefore a read through the cache gives what the files give,
except for a spelling that the files refuse and of which another spelling was read before
(`Disk.read_transparent_iff`).
-/

namespace StyleBundle

/-- The text of a path ends with a slash or with a `.`, so that it can only lead to a
directory. -/
def Path.asksDirectory (p : Path) : Bool :=
  (p.text.split '/').getLast?.any Component.idle

namespace FileTree

variable {t : FileTree} {p q : Path}

/-! ## Spellings of one file -/

/-- Pieces that lead to a file are walked to it, unless they go on behind it. -/
theorem walk_eq_of_follows {place last : Location} {pieces : List Text}
    (h : t.Follows place (pieces.filterMap Component.ofPiece?) last)
    (hlast : t.isDirectoryAt last = false) :
    t.walk place pieces =
      if pieces.getLast?.any Component.idle then .error (.os .notDirectory) else .ok last := by
  induction pieces generalizing place with
  | nil =>
    cases h
    rfl
  | cons piece pieces ih =>
    cases hidle : Component.idle piece with
    | true =>
      rw [List.filterMap_cons_none (Component.ofPiece?_of_idle hidle)] at h
      cases hdir : t.isDirectoryAt place with
      | true =>
        -- The walk goes on, so the file is not reached yet and there is a piece left.
        have hpieces : pieces ≠ [] := by
          rintro rfl
          cases h
          rw [hdir] at hlast
          cases hlast
        rw [walk, hdir, if_neg (by simp), if_pos hidle, ih h,
          List.getLast?_cons_of_ne_nil hpieces]
      | false =>
        -- No step leads from here, so all pieces that are left do not count.
        have hsteps : pieces.filterMap Component.ofPiece? = [] := by
          generalize pieces.filterMap Component.ofPiece? = steps at h
          cases h with
          | done => rfl
          | step hstep _ => exact absurd hstep.1 (by simp [hdir])
        have hall : ∀ other ∈ piece :: pieces, Component.idle other = true :=
          List.forall_mem_cons.2 ⟨hidle, Component.filterMap_ofPiece?_eq_nil_iff.1 hsteps⟩
        have hend : (piece :: pieces).getLast?.any Component.idle = true := by
          rw [List.getLast?_eq_some_getLast (List.cons_ne_nil piece pieces), Option.any_some]
          exact hall _ (List.getLast_mem _)
        rw [walk, hdir, if_pos (by simp), if_pos hend]
    | false =>
      have hgetLast : (piece :: pieces).getLast?.any Component.idle =
          pieces.getLast?.any Component.idle := by
        cases pieces with
        | nil => simp [hidle]
        | cons next pieces => rw [List.getLast?_cons_cons]
      rw [walk, hgetLast]
      rcases Component.ofPiece?_cases hidle with ⟨hparent, ho⟩ | ⟨hparent, ho⟩
      · rw [List.filterMap_cons_some ho] at h
        cases h with
        | step hstep hsteps =>
          rw [if_neg (by simp [hstep.1]), if_neg (by simp [hidle]), if_pos hparent]
          exact ih hsteps
      · rw [List.filterMap_cons_some ho] at h
        cases h with
        | step hstep hsteps =>
          obtain ⟨hlong, hnode⟩ := hstep.2 piece rfl
          rw [if_neg (by simp [hstep.1]), if_neg (by simp [hidle]), if_neg hparent,
            if_neg (Nat.not_lt.2 hlong),
            if_neg (by simpa [Option.isSome_iff_ne_none] using hnode)]
          exact ih hsteps

theorem start_congr (h : p.components = q.components) : t.start p = t.start q := by
  rw [start, start, Path.isAbsolute_congr h]

/-- Where the components of a path lead, its pieces lead from its start. -/
theorem follows_pieces {place : Location} (h : t.Follows (t.start p) p.components place) :
    t.Follows (t.start p) ((p.text.split '/').filterMap Component.ofPiece?) place := by
  rw [Path.components_eq] at h
  rcases Path.lead_cases p with ⟨habs, _, hlead, _⟩ | ⟨_, _, hlead, _⟩ | ⟨_, _, hlead, _⟩
  · rw [hlead] at h
    cases h with
    | step _ hsteps =>
      rw [start, if_pos habs]
      exact hsteps
  · rw [hlead] at h
    cases h with
    | step _ hsteps => exact hsteps
  · rw [hlead] at h
    exact h

/-- Another spelling of a path that leads to a file leads there as well, unless its text is too
long or asks for a directory. -/
theorem locate_of_same {place : Location} (hq : t.locate q = .ok place)
    (hplace : t.isDirectoryAt place = false) (h : p.components = q.components) :
    t.locate p =
      if pathLimit ≤ p.text.byteLength then .error (.os .nameTooLong)
      else if p.asksDirectory then .error (.os .notDirectory)
      else .ok place := by
  obtain ⟨husable, hfollows⟩ := follows_of_locate hq
  have hnul : '\x00' ∉ p.text := fun hmem =>
    husable.no_nul (Path.mem_text_of_components_eq h hmem (by decide) (by decide))
  rw [← h, ← start_congr h] at hfollows
  have hstart : t.isDirectoryAt (t.start p) = true := by
    rw [start_congr h]
    exact husable.start_directory
  have hne : p.text ≠ [] := by
    intro hnil
    obtain rfl : p = ⟨[]⟩ := by rw [← hnil]
    have hstay : place = t.start ⟨[]⟩ := hfollows.eq_foldl
    rw [hstay, hstart] at hplace
    cases hplace
  rw [locate]
  by_cases hlong : pathLimit ≤ p.text.byteLength
  · rw [origin, if_neg (by simpa using hnul), if_neg hne, if_pos hlong, if_pos hlong]
    rfl
  · rw [origin_eq_ok_iff.2 ⟨⟨hnul, hne, Nat.lt_of_not_le hlong, hstart⟩, rfl⟩, if_neg hlong]
    exact walk_eq_of_follows (follows_pieces hfollows) hplace

/-- Another spelling of a file that can be read is read alike, unless its text is too long or asks
for a directory. -/
theorem read_of_same {text : Text} (hq : t.read q = .ok text) (h : p.components = q.components) :
    t.read p =
      if pathLimit ≤ p.text.byteLength then .error (.os .nameTooLong)
      else if p.asksDirectory then .error (.os .notDirectory)
      else .ok text := by
  obtain ⟨place, hlocate, hnode⟩ := exists_file_of_read hq
  have hplace : t.isDirectoryAt place = false := by
    rw [isDirectoryAt, hnode]
    rfl
  have hp := locate_of_same hlocate hplace h
  split_ifs at hp ⊢
  · rw [read, lookup, hp]
    rfl
  · rw [read, lookup, hp]
    rfl
  · rw [read_of_locate hp hlocate hnode, hq]

end FileTree

namespace Disk

variable {files : FileTree} {events : List Event} {p : Path} {text : Text}

/-! ## Files that stay -/

/-- No event changes the files. -/
def Steady (events : List Event) : Prop :=
  ∀ changed, .edit changed ∉ events

theorem filesAfter_of_steady (h : Steady events) : filesAfter files events = files := by
  induction events with
  | nil => rfl
  | cons e events ih =>
    have hrest : Steady events := fun changed hmem => h changed (List.mem_cons_of_mem _ hmem)
    cases e with
    | edit changed => exact absurd List.mem_cons_self (h changed)
    | read _ | clear | isFile _ | isDirectory _ | list _ | size => exact ih hrest

/-- Since the last clear a path with the components of `p` was read that the files have, and this
is their text. -/
def ReadableSince (files : FileTree) (events : List Event) (p : Path) (text : Text) : Prop :=
  ∃ before q since, events = before ++ .read q :: since ∧ .clear ∉ since ∧ p.same q = true ∧
    files.read q = .ok text

theorem Steady.of_append {before since : List Event} (h : Steady (before ++ since)) :
    Steady before :=
  fun changed hmem => h changed (List.mem_append_left _ hmem)

theorem ReadSince.readableSince (h : ReadSince files events p text) (hsteady : Steady events) :
    ReadableSince files events p text := by
  obtain ⟨before, q, since, hevents, hclear, hsame, _, hread⟩ := h.exists_first
  rw [filesAfter_of_steady (hevents ▸ hsteady).of_append] at hread
  exact ⟨before, q, since, hevents, hclear, hsame, hread⟩

/-- A path that the files have is answered with their text, whatever was read before. -/
theorem answer_read_of_ok (hsteady : Steady events) (h : files.read p = .ok text) :
    answer files events (.read p) = .text (.ok text) := by
  by_cases hsince : ∃ found, ReadSince files events p found
  · obtain ⟨found, hfound⟩ := hsince
    obtain ⟨_, q, _, _, _, hsame, hq⟩ := hfound.readableSince hsteady
    have hcongr := FileTree.read_congr (FileTree.isFile_of_read h) (FileTree.isFile_of_read hq)
      (Path.same_iff.1 hsame)
    rw [h, hq] at hcongr
    rw [answer_read_of_readSince hfound, ← hcongr]
  · rw [answer_read_of_forall_not fun found hfound => hsince ⟨found, hfound⟩,
      filesAfter_of_steady hsteady, h]

/-- While the files stay, what was read since the last clear is what they have. -/
theorem readSince_iff_of_steady (hsteady : Steady events) :
    ReadSince files events p text ↔ ReadableSince files events p text := by
  refine ⟨fun h => h.readableSince hsteady, ?_⟩
  rintro ⟨before, q, since, rfl, hclear, hsame, hread⟩
  exact ⟨before, q, since, rfl, hclear, hsame, answer_read_of_ok hsteady.of_append hread⟩

/-- The cache gives the text of an earlier spelling, whatever the files say to this one. -/
theorem of_readableSince (hsteady : Steady events) (h : ReadableSince files events p text) :
    answer files events (.read p) = .text (.ok text) ∧
      files.read p =
        if FileTree.pathLimit ≤ p.text.byteLength then .error (.os .nameTooLong)
        else if p.asksDirectory then .error (.os .notDirectory)
        else .ok text := by
  refine ⟨answer_read_of_readSince ((readSince_iff_of_steady hsteady).2 h), ?_⟩
  obtain ⟨_, q, _, _, _, hsame, hq⟩ := h
  exact FileTree.read_of_same hq (Path.same_iff.1 hsame)

/-- After every run that leaves the files as they are, a path is read as the files have it,
exactly when no spelling of it was read from them since the last clear, or its own text is short
and does not ask for a directory.  Otherwise the text comes from the cache although the files
refuse the path. -/
theorem read_transparent_iff (files : FileTree) (events : List Event) (p : Path)
    (hsteady : Steady events) :
    (answer files events (.read p) = .text (files.read p) ↔
      ((∃ text, ReadableSince files events p text) →
        p.text.byteLength < FileTree.pathLimit ∧ p.asksDirectory = false)) ∧
    ∀ text, ReadableSince files events p text →
      answer files events (.read p) = .text (.ok text) ∧
      files.read p =
        if FileTree.pathLimit ≤ p.text.byteLength then .error (.os .nameTooLong)
        else if p.asksDirectory then .error (.os .notDirectory)
        else .ok text := by
  refine ⟨⟨?_, ?_⟩, fun text => of_readableSince hsteady⟩
  · rintro htransparent ⟨text, h⟩
    obtain ⟨hanswer, hfiles⟩ := of_readableSince hsteady h
    rw [hanswer, Answer.text.injEq] at htransparent
    rw [← htransparent] at hfiles
    split_ifs at hfiles with hlong hasks
    exact ⟨Nat.lt_of_not_le hlong, by simpa using hasks⟩
  · intro hspelled
    by_cases hsince : ∃ text, ReadableSince files events p text
    · obtain ⟨hshort, hasks⟩ := hspelled hsince
      obtain ⟨text, h⟩ := hsince
      obtain ⟨hanswer, hfiles⟩ := of_readableSince hsteady h
      rw [hanswer, hfiles, if_neg (Nat.not_le.2 hshort), if_neg (by simp [hasks])]
    · have hnone : ∀ text, ¬ ReadSince files events p text := fun text h =>
        hsince ⟨text, h.readableSince hsteady⟩
      rw [answer_read_of_forall_not hnone, filesAfter_of_steady hsteady]

/-! ### One file in three spellings -/

/-- The file is read before and after a clear, each time in another spelling. -/
def respelledReads : List Event :=
  [.read ⟨"/a".toList⟩, .clear, .read ⟨"/b".toList⟩, .read ⟨"//a".toList⟩]

private theorem steady_respelledReads : Steady respelledReads := by
  simp [Steady, respelledReads]

theorem respelled_read_transparent :
    Steady respelledReads ∧ ReadableSince oneFile respelledReads ⟨"/./a".toList⟩ "old".toList ∧
      oneFile.read ⟨"/./a".toList⟩ = .ok "old".toList ∧
      answer oneFile respelledReads (.read ⟨"/./a".toList⟩) =
        .text (oneFile.read ⟨"/./a".toList⟩) := by
  have hsince : ReadableSince oneFile respelledReads ⟨"/./a".toList⟩ "old".toList :=
    ⟨[.read ⟨"/a".toList⟩, .clear, .read ⟨"/b".toList⟩], ⟨"//a".toList⟩, [],
      rfl, by decide, by decide, rfl⟩
  refine ⟨steady_respelledReads, hsince, rfl, ?_⟩
  exact (read_transparent_iff oneFile respelledReads ⟨"/./a".toList⟩ steady_respelledReads).1.2
    fun _ => ⟨by decide, by decide⟩

/-- With a slash behind its name the file cannot be read, but the cache gives its text. -/
theorem slash_read_from_cache :
    Steady [.read ⟨"/a".toList⟩] ∧ oneFile.read ⟨"/a/".toList⟩ = .error (.os .notDirectory) ∧
      answer oneFile [.read ⟨"/a".toList⟩] (.read ⟨"/a/".toList⟩) = .text (.ok "old".toList) :=
  ⟨by simp [Steady], rfl, rfl⟩

end Disk

end StyleBundle
