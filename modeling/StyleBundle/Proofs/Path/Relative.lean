import StyleBundle.Proofs.Path.Absolute
import StyleBundle.Proofs.Path.Extension

/-!
# Paths seen from a directory

A path whose components are those of an absolute directory and some names after them is seen from
that directory as the names alone (`Path.exists_stripPrefix?`).  The text of what is seen ends
with the last name, whichever directory it is joined to (`Path.IsRest.endsIn_join`).
-/

namespace StyleBundle

namespace Path

open Component

variable {p base : Path} {names : List Text}

/-! ## Pieces that count -/

theorem filterMap_dropCounting (n : Nat) (pieces : List Text) :
    (dropCounting n pieces).filterMap ofPiece? = (pieces.filterMap ofPiece?).drop n := by
  induction pieces generalizing n with
  | nil => cases n <;> simp [dropCounting]
  | cons piece pieces ih =>
    cases n with
    | zero => simp [dropCounting]
    | succ n =>
      by_cases hidle : idle piece = true
      · rw [dropCounting, if_pos hidle, ih, List.filterMap_cons_none (ofPiece?_of_idle hidle)]
      · rw [Bool.not_eq_true] at hidle
        rw [dropCounting, if_neg (by simp [hidle]), ih]
        rcases ofPiece?_cases hidle with ⟨_, hstep⟩ | ⟨_, hstep⟩
        · rw [List.filterMap_cons_some hstep, List.drop_succ_cons]
        · rw [List.filterMap_cons_some hstep, List.drop_succ_cons]

theorem dropCounting_suffix (n : Nat) (pieces : List Text) :
    dropCounting n pieces <:+ pieces := by
  induction pieces generalizing n with
  | nil => cases n <;> simp [dropCounting]
  | cons piece pieces ih =>
    cases n with
    | zero => simp [dropCounting]
    | succ n =>
      rw [dropCounting]
      split
      · exact (ih (n + 1)).trans (List.suffix_cons _ _)
      · exact (ih n).trans (List.suffix_cons _ _)

/-- The pieces without those at both ends that do not count. -/
def trimmed (pieces : List Text) : List Text :=
  ((pieces.dropWhile idle).reverse.dropWhile idle).reverse

theorem filterMap_trimmed (pieces : List Text) :
    (trimmed pieces).filterMap ofPiece? = pieces.filterMap ofPiece? := by
  obtain ⟨front, hfront, hnone⟩ := dropWhile_idle_split pieces
  obtain ⟨back, hback, hnone'⟩ := dropWhile_idle_split (pieces.dropWhile idle).reverse
  have hmiddle : pieces.dropWhile idle = trimmed pieces ++ back.reverse := by
    rw [trimmed, ← List.reverse_append, ← hback, List.reverse_reverse]
  have hnone : front.filterMap ofPiece? = [] := by simpa using hnone
  rw [hmiddle] at hfront
  have hall := congrArg (List.filterMap ofPiece?) hfront
  rw [List.filterMap_append, List.filterMap_append, hnone, hnone'] at hall
  simpa using hall.symm

theorem exists_trimmed_append (pieces : List Text) :
    ∃ idles, trimmed pieces ++ idles = pieces.dropWhile idle := by
  obtain ⟨back, hback⟩ := List.dropWhile_suffix idle (l := (pieces.dropWhile idle).reverse)
  refine ⟨back.reverse, ?_⟩
  rw [trimmed, ← List.reverse_append, hback, List.reverse_reverse]

theorem trimmed_subset (pieces : List Text) : trimmed pieces ⊆ pieces := by
  intro piece h
  obtain ⟨idles, hidles⟩ := exists_trimmed_append pieces
  apply (List.dropWhile_suffix idle).subset
  rw [← hidles]
  exact List.mem_append_left _ h

theorem idle_head_trimmed {pieces rest : List Text} {piece : Text}
    (h : trimmed pieces = piece :: rest) : idle piece = false := by
  obtain ⟨more, hmore⟩ := exists_trimmed_append pieces
  have hhead := List.head?_dropWhile_not idle pieces
  rw [← hmore, h] at hhead
  simpa using hhead

theorem idle_last_trimmed {pieces front : List Text} {piece : Text}
    (h : trimmed pieces = front ++ [piece]) : idle piece = false := by
  have hhead := List.head?_dropWhile_not idle (pieces.dropWhile idle).reverse
  rw [trimmed, List.reverse_eq_iff, List.reverse_concat] at h
  rw [h] at hhead
  simpa using hhead

/-- A text of trimmed pieces has the components of these pieces. -/
theorem components_trimmed {pieces : List Text} (hslash : ∀ piece ∈ pieces, '/' ∉ piece)
    (hne : trimmed pieces ≠ []) :
    (Path.mk (Text.joinWith ['/'] (trimmed pieces))).isAbsolute = false ∧
      (Path.mk (Text.joinWith ['/'] (trimmed pieces))).components =
        pieces.filterMap ofPiece? := by
  have hsplit := Text.split_joinWith hne fun piece h => hslash piece (trimmed_subset pieces h)
  rw [← filterMap_trimmed pieces]
  obtain ⟨piece, rest, hcons⟩ := List.exists_cons_of_ne_nil hne
  have hidle := idle_head_trimmed hcons
  rw [hcons] at hsplit ⊢
  generalize hpath : Path.mk (Text.joinWith ['/'] (piece :: rest)) = r
  have htext : r.text.split '/' = piece :: rest := by rw [← hpath, hsplit]
  have hrelative : r.isAbsolute = false := by
    rw [Bool.eq_false_iff, ne_eq, isAbsolute_iff_split, htext]
    rintro ⟨next, more, h⟩
    rw [List.cons.injEq] at h
    rw [h.1] at hidle
    cases hidle
  have hlead : r.leadComponents = [] := by
    rw [leadComponents, if_neg (by simp [hrelative]), htext, if_neg]
    intro h
    simp only [List.head?_cons, Option.some.injEq] at h
    rw [h] at hidle
    cases hidle
  refine ⟨hrelative, ?_⟩
  rw [components_eq, hlead, htext, List.nil_append]

/-! ## The rest of a path behind a directory -/

/-- What is left of a path behind an absolute directory. -/
structure IsRest (r : Path) (names : List Text) : Prop where
  relative : r.isAbsolute = false
  components : r.components = names.map .normal
  /-- The text ends with the last name. -/
  text : ∀ name, names.getLast? = some name → r.text = name ∨
    ∃ front, r.text = front ++ '/' :: name
  chars : ∀ c ∈ r.text, c = '/' ∨ c = '.' ∨ ∃ name ∈ names, c ∈ name

private theorem mem_joinWith {pieces : List Text} {c : Char}
    (h : c ∈ Text.joinWith ['/'] pieces) :
    c = '/' ∨ ∃ piece ∈ pieces, c ∈ piece := by
  induction pieces with
  | nil => cases h
  | cons piece pieces ih =>
    cases pieces with
    | nil => exact .inr ⟨piece, by simp, h⟩
    | cons next pieces =>
      rw [Text.joinWith_cons_cons, List.mem_append, List.mem_append] at h
      rcases h with (h | h) | h
      · exact .inr ⟨piece, by simp, h⟩
      · exact .inl (by simpa using h)
      · exact (ih h).imp_right fun ⟨other, hother, hc⟩ =>
          ⟨other, List.mem_cons_of_mem _ hother, hc⟩

section Names

variable {pieces : List Text} {piece : Text}

private theorem mem_names_of_mem (hpieces : pieces.filterMap ofPiece? = names.map .normal)
    (h : piece ∈ pieces) (hidle : idle piece = false) :
    ofPiece? piece = some (.normal piece) ∧ piece ∈ names := by
  rcases ofPiece?_cases hidle with ⟨_, hstep⟩ | ⟨_, hstep⟩
  · have hmem := List.mem_filterMap.2 ⟨piece, h, hstep⟩
    rw [hpieces] at hmem
    simp at hmem
  · have hmem := List.mem_filterMap.2 ⟨piece, h, hstep⟩
    rw [hpieces] at hmem
    exact ⟨hstep, by simpa using hmem⟩

private theorem eq_of_mem_idle {c : Char} (hidle : idle piece = true) (h : c ∈ piece) :
    c = '.' := by
  rw [idle, Bool.or_eq_true, beq_iff_eq, beq_iff_eq] at hidle
  rcases hidle with rfl | rfl
  · cases h
  · simpa using h

theorem isRest_trimmed (hslash : ∀ piece ∈ pieces, '/' ∉ piece)
    (hpieces : pieces.filterMap ofPiece? = names.map .normal) (hne : names ≠ []) :
    IsRest ⟨Text.joinWith ['/'] (trimmed pieces)⟩ names := by
  have hcount := filterMap_trimmed pieces
  rw [hpieces] at hcount
  have htrimmed : trimmed pieces ≠ [] := by
    intro h
    rw [h] at hcount
    exact hne (by simpa using hcount.symm)
  obtain ⟨hrelative, hcomponents⟩ := components_trimmed hslash htrimmed
  refine ⟨hrelative, hcomponents.trans hpieces, fun name hlast => ?_, fun c hc => ?_⟩
  · obtain ⟨front, last, hfront⟩ := (List.eq_nil_or_concat (trimmed pieces)).resolve_left htrimmed
    rw [List.concat_eq_append] at hfront
    have hstep := (mem_names_of_mem hcount (by simp [hfront]) (idle_last_trimmed hfront)).1
    have hsame : last = name := by
      have hends := congrArg List.getLast? hcount
      rw [hfront, List.filterMap_append, List.filterMap_cons_some hstep, List.getLast?_map,
        hlast] at hends
      simpa using hends
    rw [hfront, hsame]
    by_cases hnil : front = []
    · exact .inl (by rw [hnil]; rfl)
    · right
      exact ⟨Text.joinWith ['/'] front, by simp [Text.joinWith_append_singleton _ hnil]⟩
  · rcases mem_joinWith hc with h | ⟨piece, hpiece, h⟩
    · exact .inl h
    · right
      cases hidle : idle piece with
      | true => exact .inl (eq_of_mem_idle hidle h)
      | false => exact .inr ⟨piece, (mem_names_of_mem hcount hpiece hidle).2, h⟩

end Names

/-- A path that starts with a directory is the directory and what counts in the pieces behind
it. -/
private theorem stripPrefix?_eq_some (hbase : base.isAbsolute = true) (habs : p.isAbsolute = true)
    (h : p.startsWith base = true) :
    ∃ pieces, (∀ piece ∈ pieces, '/' ∉ piece) ∧
      p.stripPrefix? base = some ⟨Text.joinWith ['/'] (trimmed pieces)⟩ ∧
      p.components = base.components ++ pieces.filterMap ofPiece? := by
  have hlead : ∀ q : Path, q.isAbsolute = true →
      q.components = .root :: q.body.filterMap ofPiece? := by
    intro q hq
    rw [components_eq_body, leadComponents, if_pos hq]
    rfl
  refine ⟨dropCounting (base.components.length - 1) p.body, fun piece hpiece => ?_, ?_, ?_⟩
  · exact Text.notMem_of_mem_split ((dropCounting_suffix _ _).subset hpiece)
  · rw [stripPrefix?, if_pos h, if_neg (by simp [hlead base hbase]), leadComponents, if_pos habs]
    rfl
  · rw [startsWith, List.isPrefixOf_iff_prefix] at h
    obtain ⟨rest, hrest⟩ := h
    rw [hlead p habs, hlead base hbase, List.cons_append, List.cons.injEq] at hrest
    rw [filterMap_dropCounting, hlead p habs, hlead base hbase, ← hrest.2]
    simp

/-- The path behind a directory, if it is there. -/
theorem exists_stripPrefix? (hbase : base.isAbsolute = true)
    (h : p.components = base.components ++ names.map .normal) (hne : names ≠ []) :
    ∃ r, p.stripPrefix? base = some r ∧ IsRest r names := by
  have habs : p.isAbsolute = true := by
    rw [isAbsolute_iff_mem] at hbase ⊢
    rw [h]
    exact List.mem_append_left _ hbase
  have hstart : p.startsWith base = true := by
    rw [startsWith, List.isPrefixOf_iff_prefix, h]
    exact List.prefix_append _ _
  obtain ⟨pieces, hslash, hstrip, hcomponents⟩ := stripPrefix?_eq_some hbase habs hstart
  rw [h] at hcomponents
  exact ⟨_, hstrip, isRest_trimmed hslash (List.append_cancel_left hcomponents).symm hne⟩

/-- What is left of an absolute path behind an absolute directory is relative and leads back to
the path. -/
theorem components_of_stripPrefix? (hbase : base.isAbsolute = true) (habs : p.isAbsolute = true)
    {r : Path} (h : p.stripPrefix? base = some r) :
    r.isAbsolute = false ∧ p.components = base.components ++ r.components := by
  have hstart : p.startsWith base = true := by
    by_contra hstart
    rw [stripPrefix?, if_neg hstart] at h
    cases h
  obtain ⟨pieces, hslash, hstrip, hcomponents⟩ := stripPrefix?_eq_some hbase habs hstart
  obtain rfl := Option.some.inj (h.symm.trans hstrip)
  by_cases htrimmed : trimmed pieces = []
  · rw [← filterMap_trimmed, htrimmed] at hcomponents
    rw [htrimmed]
    exact ⟨rfl, hcomponents⟩
  · obtain ⟨hrelative, hrest⟩ := components_trimmed hslash htrimmed
    exact ⟨hrelative, hcomponents.trans (by rw [hrest])⟩

/-! ## Names put behind a directory -/

theorem dropCounting_append (front back : List Text) :
    ∃ idles, (∀ piece ∈ idles, idle piece = true) ∧
      dropCounting (front.filterMap ofPiece?).length (front ++ back) = idles ++ back := by
  induction front with
  | nil => exact ⟨[], by simp, by simp [dropCounting]⟩
  | cons piece front ih =>
    obtain ⟨idles, hidles, hdrop⟩ := ih
    by_cases hidle : idle piece = true
    · rw [List.filterMap_cons_none (ofPiece?_of_idle hidle)]
      cases hlength : (front.filterMap ofPiece?).length with
      | zero =>
        rw [hlength, dropCounting] at hdrop
        refine ⟨piece :: idles, by simpa [hidle] using hidles, ?_⟩
        rw [dropCounting, List.cons_append, hdrop, List.cons_append]
      | succ n =>
        rw [hlength] at hdrop
        refine ⟨idles, hidles, ?_⟩
        rw [List.cons_append, dropCounting, if_pos hidle, hdrop]
    · have hcounts : ∃ step, ofPiece? piece = some step := by
        rcases ofPiece?_cases (by simpa using hidle) with ⟨_, hstep⟩ | ⟨_, hstep⟩
        · exact ⟨_, hstep⟩
        · exact ⟨_, hstep⟩
      obtain ⟨step, hstep⟩ := hcounts
      refine ⟨idles, hidles, ?_⟩
      rw [List.filterMap_cons_some hstep, List.length_cons, List.cons_append, dropCounting,
        if_neg hidle, hdrop]

theorem trimmed_append_names {idles : List Text} (hidles : ∀ piece ∈ idles, idle piece = true)
    (hnames : ∀ name ∈ names, IsName name) : trimmed (idles ++ names) = names := by
  have hkeep : ∀ {kept : List Text}, (∀ name ∈ kept, IsName name) →
      kept.dropWhile idle = kept := by
    intro kept hkept
    cases kept with
    | nil => rfl
    | cons name kept =>
      exact List.dropWhile_cons_of_neg (by simp [(hkept name List.mem_cons_self).idle_eq_false])
  rw [trimmed, List.dropWhile_append_of_pos hidles, hkeep hnames, hkeep (by simpa using hnames),
    List.reverse_reverse]

theorem exists_text_join {r : Path} (hbase : base.text ≠ []) (hr : r.isAbsolute = false) :
    ∃ front, (base.join r).text = front ++ '/' :: r.text := by
  rw [join, if_neg (by simp [hr])]
  split_ifs with hend
  · rw [Bool.or_eq_true, decide_eq_true_iff, decide_eq_true_iff] at hend
    obtain ⟨front, hfront⟩ := List.getLast?_eq_some_iff.1 (hend.resolve_left hbase)
    exact ⟨front, by rw [hfront]; simp⟩
  · exact ⟨base.text, rfl⟩

/-- Names put behind a path are the last pieces of its text. -/
theorem exists_split_foldl_push (hbase : base.text ≠ []) (hnames : ∀ name ∈ names, IsName name)
    (hne : names ≠ []) :
    ∃ front : Text, (names.foldl push base).text.split '/' = front.split '/' ++ names := by
  obtain ⟨name, names, rfl⟩ := List.exists_cons_of_ne_nil hne
  have hname := hnames name List.mem_cons_self
  obtain ⟨front, hfront⟩ := exists_text_join hbase (isAbsolute_mk_of_notMem hname.one_piece)
  have hpush : base.push name = ⟨front ++ '/' :: name⟩ := congrArg Path.mk hfront
  have hlast : (front ++ '/' :: name).getLast? ≠ some '/' := by
    rw [← List.singleton_append, ← List.append_assoc,
      List.getLast?_append_of_ne_nil _ hname.ne_nil]
    exact fun h => hname.one_piece (List.mem_of_getLast? h)
  have hrest : ∀ other ∈ names, '/' ∉ other ∧ other ≠ [] := by
    intro other hother
    have hisName := hnames other (List.mem_cons_of_mem name hother)
    exact ⟨hisName.one_piece, hisName.ne_nil⟩
  refine ⟨front, ?_⟩
  rw [List.foldl_cons, hpush, foldl_push hrest _ (by simp) hlast,
    Text.split_append_slashedPieces _ fun other hother => (hrest other hother).1,
    Text.split_append_separator, Text.split_of_notMem hname.one_piece, List.append_assoc]
  rfl

theorem components_foldl_push_names {p : Path} (hnames : ∀ name ∈ names, IsName name) :
    (names.foldl push p).components = p.components ++ names.map .normal := by
  induction names generalizing p with
  | nil => simp
  | cons name names ih =>
    rw [List.foldl_cons, ih fun other hother => hnames other (List.mem_cons_of_mem name hother),
      components_push_name p (hnames name List.mem_cons_self)]
    simp

theorem filterMap_names (hnames : ∀ name ∈ names, IsName name) :
    names.filterMap ofPiece? = names.map .normal := by
  induction names with
  | nil => rfl
  | cons name names ih =>
    rw [List.filterMap_cons_some (hnames name List.mem_cons_self).counts,
      ih fun other hother => hnames other (List.mem_cons_of_mem name hother)]
    rfl

theorem components_ne_nil (h : p.text ≠ []) : p.components ≠ [] := by
  intro hnil
  rw [components_eq_body, List.append_eq_nil_iff] at hnil
  rcases lead_cases p with ⟨_, _, hlead, _⟩ | ⟨_, _, hlead, _⟩ | ⟨hrelative, _, _, hbody, hhead⟩
  · exact absurd hnil.1 (by simp [hlead])
  · exact absurd hnil.1 (by simp [hlead])
  · obtain ⟨piece, pieces, hsplit⟩ := List.exists_cons_of_ne_nil (Text.split_ne_nil '/' p.text)
    rw [← hbody, hsplit] at hnil hhead
    have hidle : idle piece = true := by
      by_contra hidle
      have hnone : ofPiece? piece = none := by
        simpa using List.filterMap_eq_nil_iff.1 hnil.2 piece List.mem_cons_self
      rcases ofPiece?_cases (by simpa using hidle) with ⟨_, hstep⟩ | ⟨_, hstep⟩
      · cases hnone.symm.trans hstep
      · cases hnone.symm.trans hstep
    have hempty : piece = [] := by
      rw [idle, Bool.or_eq_true, beq_iff_eq, beq_iff_eq] at hidle
      exact hidle.resolve_right fun hdot => hhead (by rw [hdot]; rfl)
    cases pieces with
    | nil =>
      have htext := Text.joinWith_split '/' p.text
      rw [hsplit, hempty] at htext
      exact h htext.symm
    | cons next pieces =>
      have habs : p.isAbsolute = true :=
        isAbsolute_iff_split.2 ⟨next, pieces, by rw [hsplit, hempty]⟩
      rw [hrelative] at habs
      cases habs

/-- Behind a directory, names are left as they were put there. -/
theorem stripPrefix?_foldl_push {root : Path} (hroot : root.components = base.components)
    (hbase : base.text ≠ []) (hcurrent : .current ∉ base.components)
    (hnames : ∀ name ∈ names, IsName name) (hne : names ≠ []) :
    (names.foldl push base).stripPrefix? root = some ⟨Text.joinWith ['/'] names⟩ := by
  have hcomponents := components_foldl_push_names (p := base) hnames
  obtain ⟨front, hsplit⟩ := exists_split_foldl_push hbase hnames hne
  generalize names.foldl push base = q at hcomponents hsplit
  obtain ⟨before, hbody⟩ : ∃ before, q.body = before ++ names := by
    rcases lead_cases q with ⟨_, _, _, hlead⟩ | ⟨_, _, hlead, _⟩ | ⟨_, _, _, hlead, _⟩
    · obtain ⟨piece, before, hfront⟩ := List.exists_cons_of_ne_nil (Text.split_ne_nil '/' front)
      rw [hlead, hfront, List.cons_append, List.cons.injEq] at hsplit
      exact ⟨before, hsplit.2⟩
    · have hmem : .current ∈ q.components := by
        rw [components_eq, hlead]
        exact List.mem_cons_self
      rw [hcomponents, List.mem_append] at hmem
      exact absurd hmem (by simp [hcurrent])
    · exact ⟨front.split '/', hlead.symm.trans hsplit⟩
  have hbefore : base.components = q.leadComponents ++ before.filterMap ofPiece? := by
    rw [components_eq_body, hbody, List.filterMap_append, filterMap_names hnames,
      ← List.append_assoc]
      at hcomponents
    exact (List.append_cancel_right hcomponents).symm
  have hcount : root.components.length - q.leadComponents.length =
      (before.filterMap ofPiece?).length := by
    rw [hroot, hbefore, List.length_append]
    omega
  have hstart : q.startsWith root = true := by
    rw [startsWith, List.isPrefixOf_iff_prefix, hcomponents, hroot]
    exact List.prefix_append _ _
  obtain ⟨idles, hidles, hdrop⟩ := dropCounting_append before names
  have htrimmed := trimmed_append_names hidles hnames
  rw [stripPrefix?, if_pos hstart, if_neg (by rw [hroot]; exact components_ne_nil hbase)]
  simp only [hcount, hbody, hdrop]
  rw [← congrArg (Text.joinWith ['/']) htrimmed]
  rfl

/-! ## Files below a directory -/

theorem endsIn_push (hbase : base.text ≠ []) {name : Text} (hname : IsName name) :
    EndsIn (base.push name) base.components name :=
  ⟨components_push_name base hname,
    exists_text_join hbase (isAbsolute_mk_of_notMem hname.one_piece)⟩

/-- What is left behind one directory, seen from another one. -/
theorem IsRest.components_join {r : Path} (h : IsRest r names) (hbase : base.text ≠ []) :
    (base.join r).components = base.components ++ names.map .normal := by
  have hlead : r.leadComponents = [] := by
    have hcomponents := h.components
    rw [components_eq] at hcomponents
    rcases lead_cases r with ⟨_, _, hlead, _⟩ | ⟨_, _, hlead, _⟩ | ⟨_, _, hlead, _⟩
    · rw [hlead] at hcomponents
      cases names <;> simp at hcomponents
    · rw [hlead] at hcomponents
      cases names <;> simp at hcomponents
    · exact hlead
  have hpieces := components_eq r
  rw [hlead, List.nil_append] at hpieces
  rw [Path.components_join hbase h.relative, ← hpieces, h.components]

theorem IsRest.endsIn_join {r : Path} {init : List Text} {name : Text}
    (h : IsRest r (init ++ [name])) (hbase : base.text ≠ []) :
    EndsIn (base.join r) (base.components ++ init.map .normal) name := by
  refine ⟨by rw [h.components_join hbase]; simp, ?_⟩
  obtain ⟨front, hfront⟩ := exists_text_join hbase h.relative
  rcases h.text name (by simp) with htext | ⟨middle, htext⟩
  · exact ⟨front, by rw [hfront, htext]⟩
  · exact ⟨front ++ '/' :: middle, by rw [hfront, htext]; simp⟩

end Path

end StyleBundle
