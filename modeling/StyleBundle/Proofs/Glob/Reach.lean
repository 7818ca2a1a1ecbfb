import StyleBundle.Proofs.Glob.Covering
import StyleBundle.Proofs.Glob.Routes
import StyleBundle.Proofs.Path.Relative

/-!
# Where the steps of a pattern lead

Following steps from a path finds the paths below it whose names the steps take.

* What is found has names that the steps take (`Glob.exists_adds_of_mem_follow`), if every step
  adds one component to the path (`Glob.Step.Advances`).
* Names that the steps take are found, if they lead through directories that show them
  (`Glob.mem_follow_of_covers`).
-/

namespace StyleBundle

namespace Glob

open Component

variable {tree : FileTree} {directoriesOnly : Bool} {p q : Path} {names : List Text}

/-! ## Going down by names -/

/-- Each name is shown by the directory that the names before it lead to. -/
def Leads (tree : FileTree) : Path → List Text → Prop
  | _, [] => True
  | p, name :: names =>
    (name, child p name) ∈ visibleChildren tree p ∧
      (names ≠ [] → tree.isDirectory (child p name) = true) ∧ Leads tree (child p name) names

theorem Leads.append_left {front back : List Text} (h : Leads tree p (front ++ back)) :
    Leads tree p front := by
  induction front generalizing p with
  | nil => trivial
  | cons name front ih =>
    refine ⟨h.1, fun hne => h.2.1 ?_, ih h.2.2⟩
    simp [hne]

theorem Leads.append_right {front back : List Text} (h : Leads tree p (front ++ back)) :
    Leads tree (front.foldl child p) back := by
  induction front generalizing p with
  | nil => exact h
  | cons name front ih => exact ih h.2.2

/-- The entries at any depth below a directory are those that its names lead to. -/
theorem mem_below_iff {found : Text → Path → List Path} {depth : Nat} :
    q ∈ below tree found depth p ↔ ∃ front name, front.length < depth ∧
      Leads tree p (front ++ [name]) ∧ q ∈ found name ((front ++ [name]).foldl child p) := by
  constructor
  · intro h
    induction depth generalizing p with
    | zero => cases h
    | succ depth ih =>
      rw [below, List.mem_flatMap] at h
      obtain ⟨⟨name, next⟩, hchild, hq⟩ := h
      obtain ⟨rfl, _⟩ := exists_place_of_mem_visibleChildren hchild
      rw [List.mem_append] at hq
      rcases hq with hq | hq
      · exact ⟨[], name, Nat.succ_pos depth, ⟨hchild, by simp, trivial⟩, hq⟩
      · split at hq
        · rename_i hdirectory
          obtain ⟨front, last, hlength, hleads, hq⟩ := ih hq
          exact ⟨name :: front, last, Nat.succ_lt_succ hlength,
            ⟨hchild, fun _ => hdirectory, hleads⟩, hq⟩
        · cases hq
  · rintro ⟨front, name, hlength, hleads, hq⟩
    induction depth generalizing p front with
    | zero => cases hlength
    | succ depth ih =>
      rw [below, List.mem_flatMap]
      cases front with
      | nil => exact ⟨(name, child p name), hleads.1, List.mem_append_left _ hq⟩
      | cons first front =>
        refine ⟨(first, child p first), hleads.1, List.mem_append_right _ ?_⟩
        rw [if_pos (hleads.2.1 (by simp))]
        exact ih front (Nat.lt_of_succ_lt_succ hlength) hleads.2.2 hq

/-! ## Names that the steps take -/

theorem isDirectory_of_mem_visibleChildren {name : Text}
    (h : (name, q) ∈ visibleChildren tree p) :
    tree.isDirectory p = true := by
  obtain ⟨_, _, place, hplace, hdirectory, _⟩ := exists_place_of_mem_visibleChildren h
  exact FileTree.isDirectory_iff.2 ⟨place, hplace, hdirectory⟩

private theorem isDots_of_visible {name : Text} (h : name.head? ≠ some '.') :
    isDots name = false := by
  rw [← Bool.not_eq_true, isDots, Bool.or_eq_true, beq_iff_eq, beq_iff_eq]
  rintro (rfl | rfl)
  · exact h rfl
  · exact h rfl

private theorem hasEntry_of_isDirectory (h : tree.isDirectory p = true) :
    tree.hasEntry p = true := by
  rw [FileTree.isDirectory] at h
  rw [FileTree.hasEntry]
  split at h
  · rename_i hlookup
    rw [hlookup]
  · cases h

/-- Along names that lead somewhere there are entries everywhere, if there is one at the end. -/
private theorem Leads.hasEntry_child {name : Text} (h : Leads tree p (name :: names))
    (hentry : tree.hasEntry ((name :: names).foldl child p) = true) :
    tree.hasEntry (child p name) = true := by
  cases names with
  | nil => exact hentry
  | cons next names => exact hasEntry_of_isDirectory (h.2.1 (by simp))

theorem exists_append_of_coversLater {rest : List Text → Bool}
    (h : coversLater rest names = true) :
    ∃ front back, names = front ++ back ∧ rest back = true := by
  induction names with
  | nil => exact ⟨[], [], rfl, h⟩
  | cons name names ih =>
    rw [coversLater, Bool.or_eq_true] at h
    rcases h with h | h
    · exact ⟨[], name :: names, rfl, h⟩
    · obtain ⟨front, back, rfl, hback⟩ := ih h
      exact ⟨name :: front, back, rfl, hback⟩

theorem coversLater_append {rest : List Text → Bool} (front : List Text) {back : List Text}
    (h : rest back = true) : coversLater rest (front ++ back) = true := by
  induction front with
  | nil => cases back <;> simp [coversLater, h]
  | cons name front ih => rw [List.cons_append, coversLater, ih, Bool.or_true]

/-- In the steps, `**` stands neither at the end nor in front of another one. -/
def Separated : List Step → Prop
  | [] => True
  | [step] => step ≠ .recursive
  | step :: next :: rest => (step = .recursive → next ≠ .recursive) ∧ Separated (next :: rest)

theorem Separated.tail {step : Step} {rest : List Step} (h : Separated (step :: rest)) :
    Separated rest := by
  cases rest with
  | nil => trivial
  | cons next rest => exact h.2

/-- Names that the steps take are found, if there is an entry where they lead to. -/
theorem mem_follow_of_covers : ∀ {steps : List Step} {p : Path} {names : List Text},
    Separated steps → covers steps names = true → Leads tree p names →
    names.length ≤ tree.entries.length + 1 → tree.hasEntry (names.foldl child p) = true →
    names.foldl child p ∈ follow tree false steps p
  | [], p, names, _, hcovers, _, _, _ => by
    rw [List.isEmpty_iff.1 hcovers]
    exact List.mem_singleton_self p
  | .name wanted :: rest, p, names, hsteps, hcovers, hleads, hlength, hentry => by
    cases names with
    | nil => cases hcovers
    | cons name names =>
      rw [covers_cons (by simp), coversOne, Bool.and_eq_true] at hcovers
      obtain rfl : wanted = name := by simpa [Step.accepts] using hcovers.1
      have hvisible := isDots_of_visible (exists_place_of_mem_visibleChildren hleads.1).2.1
      rw [follow]
      simp only [hvisible, Bool.false_eq_true, if_false]
      rw [if_pos (hleads.hasEntry_child hentry)]
      exact mem_follow_of_covers hsteps.tail hcovers.2 hleads.2.2
        (Nat.le_of_succ_le hlength) hentry
  | .pattern tokens :: rest, p, names, hsteps, hcovers, hleads, hlength, hentry => by
    cases names with
    | nil => cases hcovers
    | cons name names =>
      rw [covers_cons (by simp), coversOne, Bool.and_eq_true] at hcovers
      rw [follow, if_pos (isDirectory_of_mem_visibleChildren hleads.1), List.mem_flatMap]
      refine ⟨child p name, List.mem_append_right _ ?_, mem_follow_of_covers hsteps.tail hcovers.2
        hleads.2.2 (Nat.le_of_succ_le hlength) hentry⟩
      exact List.mem_map.2 ⟨(name, child p name), List.mem_filter.2 ⟨hleads.1, hcovers.1⟩, rfl⟩
  | [.recursive], p, names, hsteps, _, _, _, _ => absurd rfl hsteps
  | .recursive :: next :: rest, p, names, hsteps, hcovers, hleads, hlength, hentry => by
    obtain ⟨front, back, rfl, hback⟩ := exists_append_of_coversLater hcovers
    rw [covers_cons (hsteps.1 rfl)] at hback
    cases back with
    | nil => cases hback
    | cons name later =>
      rw [coversOne, Bool.and_eq_true] at hback
      have hsplit : front ++ name :: later = (front ++ [name]) ++ later := by simp
      have hfront : front.length < tree.entries.length + 1 := by
        rw [List.length_append, List.length_cons] at hlength
        omega
      have hlater : later.length ≤ tree.entries.length + 1 := by
        rw [List.length_append, List.length_cons] at hlength
        omega
      rw [hsplit] at hleads hentry ⊢
      rw [List.foldl_append] at hentry ⊢
      rw [follow]
      refine mem_below_iff.2 ⟨front, name, hfront, hleads.append_left, ?_⟩
      rw [if_pos hback.1]
      exact mem_follow_of_covers hsteps.tail.tail hback.2 hleads.append_right hlater hentry

private theorem collapse_cons_ne_nil (step : Step) (rest : List Step) :
    collapse (step :: rest) ≠ [] := by
  cases step with
  | name wanted => simp [collapse]
  | pattern tokens => simp [collapse]
  | recursive =>
    rw [collapse]
    split <;> simp

theorem separated_collapse {steps : List Step} (h : steps.getLast? ≠ some .recursive) :
    Separated (collapse steps) := by
  induction steps with
  | nil => trivial
  | cons step rest ih =>
    have hrest : Separated (collapse rest) := by
      cases rest with
      | nil => trivial
      | cons next rest => exact ih (by rwa [List.getLast?_cons_cons] at h)
    have hother : step ≠ .recursive → Separated (step :: collapse rest) := by
      intro hne
      cases hcollapse : collapse rest with
      | nil => exact hne
      | cons next later => exact ⟨fun hstep => absurd hstep hne, hcollapse ▸ hrest⟩
    cases step with
    | name wanted => exact hother (by simp)
    | pattern tokens => exact hother (by simp)
    | recursive =>
      rw [collapse]
      split
      · rename_i later hlater
        rw [← hlater]
        exact hrest
      · rename_i hlater
        cases hcollapse : collapse rest with
        | nil =>
          cases rest with
          | nil => exact absurd rfl h
          | cons next rest => exact absurd hcollapse (collapse_cons_ne_nil next rest)
        | cons next later =>
          exact ⟨fun _ hnext => hlater later (by rw [hcollapse, hnext]), hcollapse ▸ hrest⟩

/-! ## Steps that add one component -/

/-- The step adds one component to a path. -/
def Step.Advances : Step → Prop
  | name wanted => '/' ∉ wanted ∧ idle wanted = false
  | pattern tokens => ['.'] ∉ dotEntries tokens
  | recursive => True

theorem Firm.push (h : Firm p) {piece : Text} (hslash : '/' ∉ piece) : Firm (p.push piece) := by
  constructor
  · obtain ⟨front, hfront⟩ :=
      Path.exists_text_join h.text_ne_nil (Path.isAbsolute_mk_of_notMem hslash)
    rw [Path.push, hfront]
    simp
  · rw [h.components_push hslash, List.mem_append, not_or]
    refine ⟨h.current_notMem, ?_⟩
    intro hmem
    obtain ⟨other, _, hstep⟩ := List.mem_filterMap.1 hmem
    rcases (ofPiece?_eq_some hstep).2 with h | h <;> cases h

theorem Firm.foldl_child (h : Firm p) {pieces : List Text}
    (hslash : ∀ piece ∈ pieces, '/' ∉ piece) :
    pieces.foldl child p = pieces.foldl Path.push p ∧ Firm (pieces.foldl Path.push p) ∧
      (pieces.foldl Path.push p).components = p.components ++ pieces.filterMap ofPiece? := by
  induction pieces generalizing p with
  | nil => exact ⟨rfl, h, by simp⟩
  | cons piece pieces ih =>
    have hpiece := hslash piece List.mem_cons_self
    obtain ⟨hfold, hfirm, hcomponents⟩ :=
      ih (h.push hpiece) fun other hother => hslash other (List.mem_cons_of_mem piece hother)
    refine ⟨?_, hfirm, ?_⟩
    · rw [List.foldl_cons, h.child_eq_push, hfold]
      rfl
    · rw [List.foldl_cons, hcomponents, h.components_push hpiece, List.append_assoc,
        ← List.filterMap_append, List.singleton_append]

theorem isName_of_mem_visibleChildren (hnamed : tree.WellNamed) {name : Text}
    (h : (name, q) ∈ visibleChildren tree p) : IsName name := by
  obtain ⟨_, _, place, _, _, hname⟩ := exists_place_of_mem_visibleChildren h
  exact hnamed.isName_of_mem_namesIn hname

theorem Leads.isName (hnamed : tree.WellNamed) (h : Leads tree p names) :
    ∀ name ∈ names, IsName name ∧ name.head? ≠ some '.' := by
  induction names generalizing p with
  | nil => simp
  | cons first names ih =>
    intro name hname
    rcases List.mem_cons.1 hname with rfl | hname
    · exact ⟨isName_of_mem_visibleChildren hnamed h.1,
        (exists_place_of_mem_visibleChildren h.1).2.1⟩
    · exact ih h.2.2 name hname

/-- Pieces that count, put behind a path one by one. -/
structure Adds (p q : Path) (taken : List Text) : Prop where
  eq_foldl : q = taken.foldl Path.push p
  counts : ∀ piece ∈ taken, '/' ∉ piece ∧ idle piece = false

theorem Adds.cons {piece : Text} {taken : List Text} (hslash : '/' ∉ piece)
    (hidle : idle piece = false) (h : Adds (p.push piece) q taken) :
    Adds p q (piece :: taken) := by
  refine ⟨h.eq_foldl, ?_⟩
  intro other hother
  rcases List.mem_cons.1 hother with rfl | hother
  · exact ⟨hslash, hidle⟩
  · exact h.counts other hother

theorem Adds.append {front back : List Text} {middle : Path} (h : Adds p middle front)
    (hback : Adds middle q back) : Adds p q (front ++ back) := by
  refine ⟨?_, ?_⟩
  · rw [List.foldl_append, ← h.eq_foldl, ← hback.eq_foldl]
  · intro piece hpiece
    rcases List.mem_append.1 hpiece with hpiece | hpiece
    · exact h.counts piece hpiece
    · exact hback.counts piece hpiece

theorem Leads.adds (hnamed : tree.WellNamed) (hp : Firm p) (h : Leads tree p names) :
    Adds p (names.foldl child p) names ∧ Firm (names.foldl child p) := by
  have hnames := h.isName hnamed
  obtain ⟨hfold, hfirm, _⟩ := hp.foldl_child fun name hname => (hnames name hname).1.one_piece
  rw [hfold]
  refine ⟨⟨rfl, fun name hname => ?_⟩, hfirm⟩
  exact ⟨(hnames name hname).1.one_piece, (hnames name hname).1.idle_eq_false⟩

/-- A step with wildcards that adds a component goes to a name that it takes. -/
private theorem exists_piece_of_pattern (hnamed : tree.WellNamed) (hp : Firm p)
    {tokens : List Token} (hadvances : (Step.pattern tokens).Advances)
    (h : q ∈ (dotEntries tokens).map p.push ++
      ((visibleChildren tree p).filter fun (name, _) => accepts tokens name).map Prod.snd) :
    ∃ piece, q = p.push piece ∧ '/' ∉ piece ∧ idle piece = false ∧
    accepts tokens piece = true := by
  rcases List.mem_append.1 h with h | h
  · obtain ⟨piece, hpiece, rfl⟩ := List.mem_map.1 h
    have hdots : piece ≠ ['.'] := by
      rintro rfl
      exact hadvances hpiece
    rw [dotEntries] at hpiece
    split at hpiece
    · rw [List.mem_filter] at hpiece
      have hup : piece = ['.', '.'] := by simpa [hdots] using hpiece.1
      refine ⟨piece, rfl, ?_, ?_, hpiece.2⟩
      · rw [hup]
        decide
      · rw [hup]
        decide
    · cases hpiece
  · obtain ⟨⟨name, next⟩, hname, rfl⟩ := List.mem_map.1 h
    rw [List.mem_filter] at hname
    have hisName := isName_of_mem_visibleChildren hnamed hname.1
    obtain ⟨rfl, _⟩ := exists_place_of_mem_visibleChildren hname.1
    exact ⟨name, hp.child_eq_push name, hisName.one_piece, hisName.idle_eq_false, hname.2⟩

/-- What is found lies behind the path under names that the steps take. -/
theorem exists_adds_of_mem_follow (hnamed : tree.WellNamed) : ∀ {steps : List Step} {p : Path},
    Firm p → (∀ step ∈ steps, step.Advances) → q ∈ follow tree directoriesOnly steps p →
    ∃ taken, Adds p q taken ∧ covers steps taken = true
  | [], p, _, _, h => ⟨[], ⟨eq_of_mem_result h, by simp⟩, rfl⟩
  | .name wanted :: rest, p, hp, hsteps, h => by
    obtain ⟨hslash, hidle⟩ : '/' ∉ wanted ∧ idle wanted = false := hsteps _ List.mem_cons_self
    rw [follow] at h
    simp only [hp.child_eq_push] at h
    rw [List.mem_ite_nil_right] at h
    obtain ⟨taken, hadds, hcovers⟩ := exists_adds_of_mem_follow hnamed (hp.push hslash)
      (fun step hstep => hsteps step (List.mem_cons_of_mem _ hstep)) h.2
    refine ⟨wanted :: taken, hadds.cons hslash hidle, ?_⟩
    rw [covers_cons (by simp), coversOne, hcovers]
    simp [Step.accepts]
  | .pattern tokens :: rest, p, hp, hsteps, h => by
    rw [follow] at h
    split at h
    · obtain ⟨next, hnext, h⟩ := List.mem_flatMap.1 h
      obtain ⟨piece, rfl, hslash, hidle, haccepts⟩ :=
        exists_piece_of_pattern hnamed hp (hsteps _ List.mem_cons_self) hnext
      obtain ⟨taken, hadds, hcovers⟩ := exists_adds_of_mem_follow hnamed (hp.push hslash)
        (fun step hstep => hsteps step (List.mem_cons_of_mem _ hstep)) h
      refine ⟨piece :: taken, hadds.cons hslash hidle, ?_⟩
      rw [covers_cons (by simp), coversOne, hcovers, Step.accepts, haccepts]
      rfl
    · cases h
  | [.recursive], p, hp, hsteps, h => by
    rw [follow] at h
    obtain ⟨front, name, _, hleads, h⟩ := mem_below_iff.1 h
    split at h
    · obtain rfl := List.mem_singleton.1 h
      refine ⟨front ++ [name], (hleads.adds hnamed hp).1, ?_⟩
      have hall := coversLater_append (front ++ [name]) (show covers [] [] = true from rfl)
      rw [List.append_nil] at hall
      exact hall
    · cases h
  | .recursive :: next :: rest, p, hp, hsteps, h => by
    rw [follow] at h
    obtain ⟨front, name, _, hleads, h⟩ := mem_below_iff.1 h
    obtain ⟨hadds, hfirm⟩ := hleads.adds hnamed hp
    split at h
    · rename_i haccepts
      have hnext : next ≠ .recursive := by
        rintro rfl
        cases haccepts
      obtain ⟨taken, hmore, hcovers⟩ := exists_adds_of_mem_follow hnamed hfirm
        (fun step hstep => hsteps step (List.mem_cons_of_mem _ (List.mem_cons_of_mem _ hstep))) h
      refine ⟨(front ++ [name]) ++ taken, hadds.append hmore, ?_⟩
      rw [List.append_assoc]
      apply coversLater_append
      rw [List.singleton_append, covers_cons hnext, coversOne, haccepts, hcovers]
      rfl
    · cases h

/-- A pattern that asks for directories finds nothing else. -/
theorem isDirectory_of_mem_follow :
    ∀ {steps : List Step} {p : Path}, q ∈ follow tree true steps p →
    tree.isDirectory q = true
  | [], p, h => by
    rw [follow, result] at h
    split at h
    · cases h
    · rename_i hdirectory
      rw [List.mem_singleton.1 h]
      simpa using hdirectory
  | .name wanted :: rest, p, h => by
    rw [follow] at h
    exact isDirectory_of_mem_follow (List.mem_ite_nil_right.1 h).2
  | .pattern tokens :: rest, p, h => by
    rw [follow] at h
    split at h
    · obtain ⟨next, _, hnext⟩ := List.mem_flatMap.1 h
      exact isDirectory_of_mem_follow hnext
    · cases h
  | [.recursive], p, h => by
    rw [follow] at h
    obtain ⟨front, name, _, _, h⟩ := mem_below_iff.1 h
    split at h
    · rename_i hdirectory
      rw [List.mem_singleton.1 h]
      exact hdirectory
    · cases h
  | .recursive :: next :: rest, p, h => by
    rw [follow] at h
    obtain ⟨front, name, _, _, h⟩ := mem_below_iff.1 h
    exact isDirectory_of_mem_follow (List.mem_ite_nil_right.1 h).2

/-- Pieces that count and read as names are these names. -/
theorem eq_of_filterMap_eq {taken : List Text} (hcounts : ∀ piece ∈ taken, idle piece = false)
    (h : taken.filterMap ofPiece? = names.map .normal) : taken = names := by
  induction taken generalizing names with
  | nil => simpa using h
  | cons piece taken ih =>
    rcases ofPiece?_cases (hcounts piece List.mem_cons_self) with ⟨_, hstep⟩ | ⟨_, hstep⟩
    · rw [List.filterMap_cons_some hstep] at h
      cases names <;> simp at h
    · rw [List.filterMap_cons_some hstep] at h
      cases names with
      | nil => simp at h
      | cons name names =>
        rw [List.map_cons, List.cons.injEq, Component.normal.injEq] at h
        rw [h.1, ih (fun other hother => hcounts other (List.mem_cons_of_mem piece hother)) h.2]

end Glob

end StyleBundle
