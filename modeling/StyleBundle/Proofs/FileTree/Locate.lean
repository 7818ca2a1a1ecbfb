import StyleBundle.FileTree.Basic
import StyleBundle.Proofs.Lists
import StyleBundle.Proofs.Path.Clean

/-!
# Where paths lead

Following the text of a path is following its components (`FileTree.Follows`), and the location
that is reached can be told from the components alone (`FileTree.placeOf`).

There are no links in a file tree, so a step up takes back a name.  Folding the components of a
path therefore leads to the same location (`FileTree.Follows.fold`), and a path that names a file
names it in its normal form as well (`FileTree.locate_normalize`).
-/

namespace StyleBundle

namespace FileTree

variable {t : FileTree}

/-! ## Following components -/

/-- The location that one step leads to. -/
def stepPlace (place : Location) : Component → Location
  | .root => []
  | .current => place
  | .parent => place.dropLast
  | .normal name => place ++ [name]

/-- A step can be taken from a directory, and to a name only if the name is there. -/
def Admits (t : FileTree) (place : Location) (step : Component) : Prop :=
  t.isDirectoryAt place = true ∧
    ∀ name, step = .normal name →
      name.byteLength ≤ nameLimit ∧ (t.node? (place ++ [name])).isSome = true

/-- The steps lead from one location to another along existing entries. -/
inductive Follows (t : FileTree) : Location → List Component → Location → Prop
  | done (place : Location) : Follows t place [] place
  | step {place last : Location} {step : Component} {steps : List Component}
    (hstep : t.Admits place step) (hsteps : Follows t (stepPlace place step) steps last) :
    Follows t place (step :: steps) last

theorem Follows.eq_foldl {place last : Location} {steps : List Component}
    (h : t.Follows place steps last) : last = steps.foldl stepPlace place := by
  induction h with
  | done place => rfl
  | step _ _ ih => exact ih

theorem follows_append_iff {place last : Location} {front back : List Component} :
    t.Follows place (front ++ back) last ↔
      ∃ between, t.Follows place front between ∧ t.Follows between back last := by
  induction front generalizing place with
  | nil =>
    constructor
    · exact fun h => ⟨place, .done place, h⟩
    · rintro ⟨between, hfront, hback⟩
      cases hfront
      exact hback
  | cons step front ih =>
    constructor
    · intro h
      cases h with
      | step hstep hsteps =>
        obtain ⟨between, hfront, hback⟩ := ih.1 hsteps
        exact ⟨between, .step hstep hfront, hback⟩
    · rintro ⟨between, hfront, hback⟩
      cases hfront with
      | step hstep hsteps => exact .step hstep (ih.2 ⟨between, hsteps, hback⟩)

/-- One step more leads where the folded steps lead. -/
private theorem follows_foldStep {start place last : Location} {stack : List Component}
    {step : Component} (hstack : t.Follows start stack.reverse place)
    (hstep : t.Follows place [step] last) :
    t.Follows start (Path.foldStep stack step).reverse last := by
  have hpush : t.Follows start (step :: stack).reverse last := by
    rw [List.reverse_cons]
    exact follows_append_iff.2 ⟨place, hstack, hstep⟩
  have hlast : last = stepPlace place step := hstep.eq_foldl
  cases step with
  | root => exact hpush
  | normal name => exact hpush
  | current =>
    rw [hlast]
    exact hstack
  | parent =>
    rcases Path.foldStep_parent_cases stack with ⟨name, hname⟩ | ⟨below, hroot, hstay⟩ | hup
    · -- The step up takes back the name that the step before it went to.
      rw [hname, List.reverse_cons] at hstack
      obtain ⟨between, hbelow, hnamed⟩ := follows_append_iff.1 hstack
      have hplace : place = between ++ [name] := hnamed.eq_foldl
      rw [hlast, hplace, stepPlace, List.dropLast_concat]
      exact hbelow
    · -- There is nothing above the root.
      rw [hstay, hlast]
      rw [hroot, List.reverse_cons] at hstack
      obtain ⟨between, _, hnamed⟩ := follows_append_iff.1 hstack
      have hplace : place = [] := hnamed.eq_foldl
      rw [hroot, List.reverse_cons, hplace]
      rw [hplace] at hstack
      exact hstack
    · rw [hup]
      exact hpush

private theorem follows_foldl_foldStep (steps : List Component) :
    ∀ (start place last : Location) (stack : List Component),
      t.Follows start stack.reverse place → t.Follows place steps last →
        t.Follows start (steps.foldl Path.foldStep stack).reverse last := by
  induction steps with
  | nil =>
    intro start place last stack hstack hsteps
    cases hsteps
    exact hstack
  | cons step steps ih =>
    intro start place last stack hstack hsteps
    cases hsteps with
    | step hstep hsteps =>
      exact ih _ _ _ _ (follows_foldStep hstack (.step hstep (.done _))) hsteps

/-- The folded steps lead where the steps lead. -/
theorem Follows.fold {place last : Location} {steps : List Component}
    (h : t.Follows place steps last) : t.Follows place (Path.foldComponents steps) last :=
  follows_foldl_foldStep steps place place last [] (.done place) h

/-! ## Following a text -/

theorem follows_of_walk {place last : Location} {pieces : List Text}
    (h : t.walk place pieces = .ok last) :
    t.Follows place (pieces.filterMap Component.ofPiece?) last := by
  induction pieces generalizing place with
  | nil =>
    cases h
    exact .done _
  | cons piece pieces ih =>
    rw [walk] at h
    split_ifs at h with hdir hidle hparent hlong hnone
    · rw [List.filterMap_cons_none (Component.ofPiece?_of_idle hidle)]
      exact ih h
    · rw [hparent, List.filterMap_cons_some Component.ofPiece?_parent]
      exact .step ⟨by simpa using hdir, fun name hname => by cases hname⟩ (ih h)
    · have hname := (Component.ofPiece?_cases (by simpa using hidle)).resolve_left
        fun hp => hparent hp.1
      rw [List.filterMap_cons_some hname.2]
      refine .step ⟨by simpa using hdir, ?_⟩ (ih h)
      intro name heq
      cases heq
      refine ⟨Nat.le_of_not_lt hlong, ?_⟩
      simpa [Option.isSome_iff_ne_none] using hnone

/-- A list of pieces that all count is walked as far as its components lead. -/
theorem walk_of_follows {place last : Location} {pieces : List Text}
    (hidle : ∀ piece ∈ pieces, Component.idle piece = false)
    (h : t.Follows place (pieces.filterMap Component.ofPiece?) last) :
    t.walk place pieces = .ok last := by
  induction pieces generalizing place with
  | nil =>
    cases h
    rfl
  | cons piece pieces ih =>
    have hpiece := hidle piece List.mem_cons_self
    have hrest := fun piece hp => hidle piece (List.mem_cons_of_mem _ hp)
    rw [walk]
    rcases Component.ofPiece?_cases hpiece with ⟨hparent, ho⟩ | ⟨hparent, ho⟩
    · rw [List.filterMap_cons_some ho] at h
      cases h with
      | step hstep hsteps =>
        rw [if_neg (by simp [hstep.1]), if_neg (by simp [hpiece]), if_pos hparent]
        exact ih hrest hsteps
    · rw [List.filterMap_cons_some ho] at h
      cases h with
      | step hstep hsteps =>
        obtain ⟨hlong, hnode⟩ := hstep.2 piece rfl
        rw [if_neg (by simp [hstep.1]), if_neg (by simp [hpiece]), if_neg hparent,
          if_neg (Nat.not_lt.2 hlong), if_neg (by simpa [Option.isSome_iff_ne_none] using hnode)]
        exact ih hrest hsteps

/-! ## Locating -/

/-- The location that the components lead to from the working directory. -/
def placeOf (t : FileTree) (steps : List Component) : Location :=
  steps.foldl stepPlace t.workingDirectory

/-- The directory that a path starts from. -/
def start (t : FileTree) (p : Path) : Location :=
  if p.isAbsolute then [] else t.workingDirectory

/-- What the operating system asks of a path text. -/
structure Usable (t : FileTree) (p : Path) : Prop where
  no_nul : '\x00' ∉ p.text
  ne_nil : p.text ≠ []
  short : p.text.byteLength < pathLimit
  start_directory : t.isDirectoryAt (t.start p) = true

theorem isDirectoryAt_nil (t : FileTree) : t.isDirectoryAt [] = true := by
  simp [isDirectoryAt, node?]

theorem origin_eq_ok_iff {p : Path} {place : Location} :
    t.origin p = .ok place ↔ t.Usable p ∧ place = t.start p := by
  have hroot := isDirectoryAt_nil t
  rw [origin]
  constructor
  · intro h
    split_ifs at h with hnul hnil hlong habs hdir
    · cases h
      have hstart : t.start p = [] := by rw [start, if_pos habs]
      refine ⟨⟨by simpa using hnul, hnil, Nat.lt_of_not_le hlong, ?_⟩, hstart.symm⟩
      rw [hstart]
      exact hroot
    · cases h
      have hstart : t.start p = t.workingDirectory := by rw [start, if_neg habs]
      refine ⟨⟨by simpa using hnul, hnil, Nat.lt_of_not_le hlong, ?_⟩, hstart.symm⟩
      rw [hstart]
      exact hdir
  · rintro ⟨⟨hnul, hnil, hshort, hdir⟩, rfl⟩
    rw [start] at hdir ⊢
    rw [if_neg (by simpa using hnul), if_neg hnil, if_neg (Nat.not_le.2 hshort)]
    split_ifs at hdir ⊢ with habs
    · rfl
    · rfl

/-- A path leads to the end of its components, each followed along existing entries. -/
theorem follows_of_locate {p : Path} {place : Location} (h : t.locate p = .ok place) :
    t.Usable p ∧ t.Follows (t.start p) p.components place := by
  obtain ⟨origin, horigin, hwalk⟩ := bind_eq_ok_iff.1 h
  obtain ⟨husable, rfl⟩ := origin_eq_ok_iff.1 horigin
  have hfollows := follows_of_walk hwalk
  refine ⟨husable, ?_⟩
  rw [Path.components_eq]
  rcases Path.lead_cases p with ⟨habs, _, hlead, _⟩ | ⟨_, _, hlead, _⟩ | ⟨_, _, hlead, _⟩
  · have hstart : t.start p = [] := by rw [start, if_pos habs]
    rw [hlead]
    refine .step ⟨husable.start_directory, fun name hname => by cases hname⟩ ?_
    rw [hstart] at hfollows
    exact hfollows
  · rw [hlead]
    exact .step ⟨husable.start_directory, fun name hname => by cases hname⟩ hfollows
  · rw [hlead]
    exact hfollows

private theorem foldl_stepPlace_of_root {steps : List Component} (h : .root ∈ steps)
    (place other : Location) : steps.foldl stepPlace place = steps.foldl stepPlace other := by
  induction steps generalizing place other with
  | nil => cases h
  | cons step steps ih =>
    rcases List.mem_cons.1 h with rfl | h
    · rfl
    · exact ih h _ _

/-- The root leads to one location from everywhere, so the components alone tell where a path
leads. -/
theorem placeOf_components (t : FileTree) (p : Path) :
    t.placeOf p.components = p.components.foldl stepPlace (t.start p) := by
  rw [placeOf, start]
  split_ifs with habs
  · exact foldl_stepPlace_of_root (Path.isAbsolute_iff_mem.1 habs) _ _
  · rfl

theorem foldl_stepPlace_names (names : List Text) (place : Location) :
    (names.map Component.normal).foldl stepPlace place = place ++ names := by
  induction names generalizing place with
  | nil => simp
  | cons name names ih =>
    rw [List.map_cons, List.foldl_cons, ih, stepPlace]
    simp

theorem start_normalize (t : FileTree) (p : Path) : t.start p.normalize = t.start p := by
  rw [start, start, Path.isAbsolute_normalize]

theorem locate_eq_placeOf {p : Path} {place : Location} (h : t.locate p = .ok place) :
    place = t.placeOf p.components := by
  rw [placeOf_components]
  exact (follows_of_locate h).2.eq_foldl

/-! ## Locating a normal form -/

private theorem follows_normalize {p : Path} {place : Location} (h : t.locate p = .ok place) :
    t.Follows (t.start p) p.normalize.components place := by
  rw [Path.components_normalize]
  exact (follows_of_locate h).2.fold

/-- A path and its normal form lead to one location. -/
theorem locate_eq_placeOf_normalize {p : Path} {place : Location} (h : t.locate p = .ok place) :
    place = t.placeOf p.normalize.components := by
  rw [placeOf_components, start_normalize]
  exact (follows_normalize h).eq_foldl

private theorem filterMap_ofPiece?_texts {steps : List Component}
    (h : ∀ s ∈ steps, Component.ofPiece? s.text = some s) :
    (steps.map Component.text).filterMap Component.ofPiece? = steps := by
  induction steps with
  | nil => rfl
  | cons step steps ih =>
    rw [List.map_cons, List.filterMap_cons_some (h step List.mem_cons_self),
      ih fun s hs => h s (List.mem_cons_of_mem step hs)]

/-- Clean steps are walked as far as they lead. -/
private theorem walk_texts {place last : Location} {steps : List Component}
    (h : ∀ s ∈ steps, s = .parent ∨ ∃ n, Component.IsName n ∧ s = .normal n)
    (hfollows : t.Follows place steps last) :
    t.walk place (steps.map Component.text) = .ok last := by
  apply walk_of_follows
  · intro piece hp
    obtain ⟨s, hs, rfl⟩ := List.mem_map.1 hp
    exact (Component.piece_of_step (h s hs)).2.2.1
  · rw [filterMap_ofPiece?_texts fun s hs => (Component.piece_of_step (h s hs)).2.2.2]
    exact hfollows

/-- The text of a normal path is walked as far as its components lead.  Where there is no step to
take, they lead to the directory that they start from. -/
private theorem walk_spelled {start place : Location} {steps : List Component} {text : Text}
    (h : Path.Spelled steps text) (hfollows : t.Follows start steps place)
    (hstart : .root ∈ steps → start = []) :
    place = start ∨ text ≠ [] ∧ t.walk start (text.split '/') = .ok place := by
  cases h with
  | root =>
    left
    rw [hstart List.mem_cons_self]
    exact hfollows.eq_foldl
  | empty =>
    left
    exact hfollows.eq_foldl
  | absolute name names hnames =>
    right
    refine ⟨by simp [Text.slashedPieces], ?_⟩
    have hsplit := Text.split_append_slashedPieces [] fun n hn => (hnames n hn).one_piece
    have htexts : ((name :: names).map Component.normal).map Component.text = name :: names := by
      rw [List.map_map]
      exact List.map_id _
    rw [List.nil_append] at hsplit
    rw [hsplit, hstart List.mem_cons_self]
    -- The slash at the front leaves an empty piece, which leads from the root to the root.
    change t.walk [] ([] :: name :: names) = _
    rw [walk, if_neg (by simp [isDirectoryAt_nil]), if_pos (by decide), ← htexts]
    cases hfollows with
    | step _ hsteps =>
      refine walk_texts ?_ hsteps
      intro s hs
      obtain ⟨n, hn, rfl⟩ := List.mem_map.1 hs
      exact .inr ⟨n, hnames n hn, rfl⟩
  | relative step steps hlater =>
    right
    obtain ⟨hslash, hne, _⟩ := Component.piece_of_step (hlater step List.mem_cons_self)
    refine ⟨by simp [hne], ?_⟩
    rw [Text.split_append_slashedPieces, Text.split_of_notMem hslash]
    · exact walk_texts hlater hfollows
    · intro piece hp
      obtain ⟨s, hs, rfl⟩ := List.mem_map.1 hp
      exact (Component.piece_of_step (hlater s (List.mem_cons_of_mem step hs))).1

/-- A path that names a file names it in its normal form as well. -/
theorem locate_normalize {p : Path} {place : Location} {content : Content}
    (h : t.locate p = .ok place) (hfile : t.node? place = some (.file content)) :
    t.locate p.normalize = .ok place := by
  obtain ⟨husable, _⟩ := follows_of_locate h
  have hroot : .root ∈ p.normalize.components → t.start p = [] := by
    rw [← Path.isAbsolute_iff_mem, Path.isAbsolute_normalize, start]
    exact fun habs => if_pos habs
  have hplace : place ≠ t.start p := by
    rintro rfl
    have hdir := husable.start_directory
    rw [isDirectoryAt, hfile] at hdir
    cases hdir
  have hnul : '\x00' ∉ p.normalize.text := by
    intro hmem
    rcases Path.mem_text_normalize hmem with hc | hc | hc
    · exact absurd hc (by decide)
    · exact absurd hc (by decide)
    · exact husable.no_nul hc
  obtain ⟨hne, hwalk⟩ :=
    (walk_spelled (Path.spelled_normalize p) (follows_normalize h) hroot).resolve_left hplace
  have hstart := start_normalize t p
  have husable' : t.Usable p.normalize :=
    { no_nul := hnul
      ne_nil := hne
      short := Nat.lt_of_le_of_lt (Path.byteLength_normalize_le p) husable.short
      start_directory := by rw [hstart]; exact husable.start_directory }
  exact bind_eq_ok_iff.2 ⟨t.start p, origin_eq_ok_iff.2 ⟨husable', hstart.symm⟩, hwalk⟩

/-! ## Files of a tree -/

theorem lookup_of_locate {p : Path} {place : Location} {node : Node}
    (h : t.locate p = .ok place) (hnode : t.node? place = some node) : t.lookup p = .ok node := by
  rw [lookup]
  refine bind_eq_ok_iff.2 ⟨place, h, ?_⟩
  rw [hnode]

theorem exists_place_of_lookup {p : Path} {node : Node} (h : t.lookup p = .ok node) :
    ∃ place, t.locate p = .ok place ∧ t.node? place = some node := by
  obtain ⟨place, hplace, hnode⟩ := bind_eq_ok_iff.1 h
  refine ⟨place, hplace, ?_⟩
  cases hn : t.node? place with
  | none =>
    rw [hn] at hnode
    cases hnode
  | some other =>
    rw [hn] at hnode
    cases hnode
    rfl

theorem exists_file_of_isFile {p : Path} (h : t.isFile p = true) :
    ∃ place content, t.locate p = .ok place ∧ t.node? place = some (.file content) := by
  rw [isFile] at h
  split at h
  · rename_i content hlookup
    obtain ⟨place, hplace, hnode⟩ := exists_place_of_lookup hlookup
    exact ⟨place, content, hplace, hnode⟩
  · cases h

theorem isDirectory_iff {p : Path} :
    t.isDirectory p = true ↔ ∃ place, t.locate p = .ok place ∧ t.isDirectoryAt place = true := by
  constructor
  · intro h
    rw [isDirectory] at h
    split at h
    · rename_i hlookup
      obtain ⟨place, hplace, hnode⟩ := exists_place_of_lookup hlookup
      exact ⟨place, hplace, by rw [isDirectoryAt, hnode]; rfl⟩
    · cases h
  · rintro ⟨place, hplace, hdir⟩
    rw [isDirectoryAt, beq_iff_eq] at hdir
    rw [isDirectory, lookup_of_locate hplace hdir]

theorem exists_file_of_read {p : Path} {text : Text} (h : t.read p = .ok text) :
    ∃ place, t.locate p = .ok place ∧ t.node? place = some (.file (.text text)) := by
  obtain ⟨node, hlookup, hread⟩ := bind_eq_ok_iff.1 h
  obtain ⟨place, hplace, hnode⟩ := exists_place_of_lookup hlookup
  refine ⟨place, hplace, ?_⟩
  split at hread
  · cases hread
    exact hnode
  · cases hread
  · cases hread

/-- Two paths that lead to one file are read alike. -/
theorem read_of_locate {p q : Path} {place : Location} {node : Node} (hp : t.locate p = .ok place)
    (hq : t.locate q = .ok place) (hnode : t.node? place = some node) : t.read p = t.read q := by
  rw [read, read, lookup_of_locate hp hnode, lookup_of_locate hq hnode]

/-- What can be read is a file. -/
theorem isFile_of_read {p : Path} {text : Text} (h : t.read p = .ok text) :
    t.isFile p = true := by
  obtain ⟨place, hplace, hnode⟩ := exists_file_of_read h
  rw [isFile, lookup_of_locate hplace hnode]

/-- Two spellings of one file are read alike. -/
theorem read_congr {p q : Path} (hp : t.isFile p = true) (hq : t.isFile q = true)
    (h : p.components = q.components) : t.read p = t.read q := by
  obtain ⟨place, content, hplace, hnode⟩ := exists_file_of_isFile hp
  obtain ⟨place', content', hplace', _⟩ := exists_file_of_isFile hq
  have hsame : place' = place := by
    rw [locate_eq_placeOf hplace', locate_eq_placeOf hplace, h]
  exact read_of_locate hplace (hsame ▸ hplace') hnode

theorem read_normalize {p : Path} (h : t.isFile p = true) :
    t.isFile p.normalize = true ∧ t.read p.normalize = t.read p := by
  obtain ⟨place, content, hplace, hnode⟩ := exists_file_of_isFile h
  have hnormal := locate_normalize hplace hnode
  refine ⟨?_, read_of_locate hnormal hplace hnode⟩
  rw [isFile, lookup_of_locate hnormal hnode]

/-! ## Trees that keep entries -/

/-- Without a step up one only goes down. -/
theorem prefix_of_walk {place last : Location} {pieces : List Text}
    (h : t.walk place pieces = .ok last) (hup : ['.', '.'] ∉ pieces) : place <+: last := by
  induction pieces generalizing place with
  | nil =>
    cases h
    exact List.prefix_rfl
  | cons piece pieces ih =>
    rw [List.mem_cons, not_or] at hup
    rw [walk, if_neg (Ne.symm hup.1)] at h
    split_ifs at h
    · exact ih h hup.2
    · exact (List.prefix_append place [piece]).trans (ih h hup.2)

/-- A walk without a step up is the same in a tree that keeps what lies above its end. -/
theorem walk_of_kept {t' : FileTree} {place last : Location} {pieces : List Text}
    (h : t.walk place pieces = .ok last) (hup : ['.', '.'] ∉ pieces)
    (hkept : ∀ q node, q <+: last → t.node? q = some node → t'.node? q = some node) :
    t'.walk place pieces = .ok last := by
  induction pieces generalizing place with
  | nil => exact h
  | cons piece pieces ih =>
    have hprefix := prefix_of_walk h hup
    rw [List.mem_cons, not_or] at hup
    have hkept_directory (hdir : ¬ (!t.isDirectoryAt place) = true) :
        t'.isDirectoryAt place = true := by
      rw [Bool.not_eq_true, Bool.not_eq_false', isDirectoryAt, beq_iff_eq] at hdir
      rw [isDirectoryAt, hkept place .directory hprefix hdir]
      rfl
    rw [walk, if_neg (Ne.symm hup.1)] at h
    split_ifs at h with hdir hidle hlong hnone
    · rw [walk, if_neg (by simp [hkept_directory hdir]), if_pos hidle]
      exact ih h hup.2
    · have hnode : (t'.node? (place ++ [piece])).isNone = false := by
        obtain ⟨node, hnode⟩ :=
          Option.ne_none_iff_exists'.1 (mt Option.isNone_iff_eq_none.2 hnone)
        rw [hkept _ node (prefix_of_walk h hup.2) hnode]
        rfl
      rw [walk, if_neg (by simp [hkept_directory hdir]), if_neg hidle, if_neg (Ne.symm hup.1),
        if_neg hlong, if_neg (by simp [hnode])]
      exact ih h hup.2

/-- An absolute normal path names the same entry in a tree that keeps this entry and what lies
above it. -/
theorem lookup_of_kept {t' : FileTree} {p : Path} {node : Node} (habs : p.isAbsolute = true)
    (hup : .parent ∉ p.components) (h : t.lookup p = .ok node)
    (hkept : ∀ q node, q <+: t.placeOf p.components → t.node? q = some node →
      t'.node? q = some node) : t'.lookup p = .ok node := by
  obtain ⟨place, hlocate, hnode⟩ := exists_place_of_lookup h
  rw [← locate_eq_placeOf hlocate] at hkept
  refine lookup_of_locate ?_ (hkept place node List.prefix_rfl hnode)
  obtain ⟨origin, horigin, hwalk⟩ := bind_eq_ok_iff.1 hlocate
  obtain ⟨husable, rfl⟩ := origin_eq_ok_iff.1 horigin
  have hstart : t'.start p = t.start p := by rw [start, start, if_pos habs, if_pos habs]
  have hpieces : ['.', '.'] ∉ p.text.split '/' := fun hmem =>
    hup (List.mem_append_right _ (List.mem_filterMap.2 ⟨_, hmem, Component.ofPiece?_parent⟩))
  refine bind_eq_ok_iff.2 ⟨t.start p, origin_eq_ok_iff.2 ⟨?_, hstart.symm⟩,
    walk_of_kept hwalk hpieces hkept⟩
  refine ⟨husable.no_nul, husable.ne_nil, husable.short, ?_⟩
  rw [start, if_pos habs]
  exact isDirectoryAt_nil t'

/-! ## Names in a tree -/

/-- The names in a file tree are names. -/
structure WellNamed (t : FileTree) : Prop where
  entries : ∀ entry ∈ t.entries, ∀ name ∈ entry.1, Component.IsName name
  workingDirectory : ∀ name ∈ t.workingDirectory, Component.IsName name

theorem WellNamed.isName_of_mem_namesIn (h : t.WellNamed) {place : Location} {name : Text}
    (hname : name ∈ t.namesIn place) : Component.IsName name := by
  obtain ⟨⟨other, node⟩, hentry, hlast⟩ := List.mem_filterMap.1 (List.mem_mergeSort.1 hname)
  simp only at hlast
  split_ifs at hlast
  exact h.entries _ hentry name (List.mem_of_getLast? hlast)

private theorem isName_foldl_stepPlace {steps : List Component} {place : Location}
    (hplace : ∀ name ∈ place, Component.IsName name)
    (hsteps : ∀ name, .normal name ∈ steps → Component.IsName name) :
    ∀ name ∈ steps.foldl stepPlace place, Component.IsName name := by
  induction steps generalizing place with
  | nil => exact hplace
  | cons step steps ih =>
    rw [List.foldl_cons]
    refine ih ?_ fun name hname => hsteps name (List.mem_cons_of_mem _ hname)
    intro name hname
    cases step with
    | root => cases hname
    | current => exact hplace name hname
    | parent => exact hplace name (List.dropLast_subset place hname)
    | normal next =>
      rcases List.mem_append.1 hname with hname | hname
      · exact hplace name hname
      · rw [List.mem_singleton.1 hname]
        exact hsteps next List.mem_cons_self

theorem WellNamed.isName_of_mem_placeOf (h : t.WellNamed) {p : Path} {name : Text}
    (hname : name ∈ t.placeOf p.components) : Component.IsName name :=
  isName_foldl_stepPlace h.workingDirectory
    (fun _ hstep => Path.isName_of_mem_components hstep) name hname

end FileTree

end StyleBundle
