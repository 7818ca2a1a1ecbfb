import StyleBundle.Proofs.FileTree.Alike
import StyleBundle.Proofs.Glob.Agreement
import StyleBundle.Proofs.Source.Memory

/-!
# Patterns in alike trees

A pattern that finds a path in one tree finds it in every tree that is alike outside of a
directory, if the path keeps clear of the directory (`Glob.mem_find_of_alike`).  Each step of the
pattern asks about a path whose components are the first ones of what is found.
-/

namespace StyleBundle

namespace Glob

open Component FileTree

variable {t t' : FileTree} {base p q : Path} {changed : List Location} {directoriesOnly : Bool}
  {names : List Text} {name : Text}

/-! ## Names in alike trees -/

theorem Firm.prefix_push (h : Firm p) {piece : Text} (hslash : '/' ∉ piece) :
    p.components <+: (p.push piece).components := by
  rw [h.components_push hslash]
  exact List.prefix_append _ _

section Alike

variable (halike : Alike base changed t t') (hnamed : t.WellNamed)
include halike hnamed

theorem mem_visibleChildren_of_alike (hp : Firm p) (h : (name, q) ∈ visibleChildren t p)
    (hclear : base.KeepsClear q) : (name, q) ∈ visibleChildren t' p := by
  have hname := isName_of_mem_visibleChildren hnamed h
  obtain ⟨names, hnames, hmem, hvisible, rfl⟩ := mem_visibleChildren_iff.1 h
  rw [hp.child_eq_push] at hclear
  obtain ⟨names', hnames', hmem'⟩ := halike.exists_mem_names hname hclear hnames hmem
  exact mem_visibleChildren_iff.2 ⟨names', hnames', hmem', hvisible, rfl⟩

theorem Leads.of_alike (habs : p.isAbsolute = true) (h : Leads t p names)
    (hclear : base.KeepsClear (names.foldl child p)) : Leads t' p names := by
  induction names generalizing p with
  | nil => trivial
  | cons name names ih =>
    have hp := firm_of_isAbsolute habs
    have habs' := Path.isAbsolute_push habs name
    obtain ⟨hchild, hmore, hrest⟩ := h
    rw [List.foldl_cons] at hclear
    rw [hp.child_eq_push] at hmore hrest hclear
    have hnames := hrest.isName hnamed
    obtain ⟨hfold, _, hcomponents⟩ := (firm_of_isAbsolute habs').foldl_child fun piece hpiece =>
      (hnames piece hpiece).1.one_piece
    have hnext : base.KeepsClear (p.push name) := by
      refine hclear.above habs' ?_
      rw [hfold, hcomponents]
      exact List.prefix_append _ _
    refine ⟨?_, fun hne => ?_, ?_⟩
    · refine mem_visibleChildren_of_alike halike hnamed hp hchild ?_
      rw [hp.child_eq_push]
      exact hnext
    · rw [hp.child_eq_push, halike.isDirectory_eq hnext]
      exact hmore hne
    · rw [hp.child_eq_push]
      exact ih habs' hrest hclear

end Alike

/-! ## How far names lead -/

private theorem mem_locations {place : Location} (hne : place ≠ [])
    (h : (t.node? place).isSome = true) :
    place ∈ t.entries.map Prod.fst := by
  rw [node?, if_neg hne, Option.isSome_map, List.find?_isSome] at h
  obtain ⟨entry, hentry, hplace⟩ := h
  rw [beq_iff_eq] at hplace
  exact List.mem_map.2 ⟨entry, hentry, hplace⟩

/-- Every name that leads on is an entry of its own. -/
private theorem Leads.mem_locations (hp : Firm p) (hnames : ∀ name ∈ names, IsName name)
    (h : Leads t p names) {front : List Text} (hfront : front <+: names) (hne : front ≠ []) :
    t.placeOf p.components ++ front ∈ t.entries.map Prod.fst := by
  induction names generalizing p front with
  | nil => exact absurd (List.prefix_nil.1 hfront) hne
  | cons name names ih =>
    obtain ⟨first, front, rfl⟩ := List.exists_cons_of_ne_nil hne
    obtain ⟨rfl, hlater⟩ := List.cons_prefix_cons.1 hfront
    have hname := hnames first List.mem_cons_self
    by_cases hlast : front = []
    · subst hlast
      obtain ⟨_, _, place, hplace, _, hmem⟩ := exists_place_of_mem_visibleChildren h.1
      rw [← locate_eq_placeOf hplace]
      exact Glob.mem_locations (by simp) (mem_namesIn_iff.1 hmem)
    · have hrest := h.2.2
      rw [hp.child_eq_push] at hrest
      have hmem := ih (hp.push hname.one_piece)
        (fun other hother => hnames other (List.mem_cons_of_mem first hother)) hrest hlater hlast
      rw [Path.components_push_name p hname] at hmem
      have hplace := placeOf_append_names t p.components [first]
      rw [List.map_singleton] at hplace
      rwa [hplace, List.append_assoc] at hmem

/-- There are as many entries as names that lead on. -/
theorem Leads.length_le (hp : Firm p) (hnames : ∀ name ∈ names, IsName name)
    (h : Leads t p names) :
    names.length ≤ t.entries.length := by
  have hfronts : ∀ n ∈ List.range names.length,
      t.placeOf p.components ++ names.take (n + 1) ∈ t.entries.map Prod.fst := by
    intro n hn
    rw [List.mem_range] at hn
    refine h.mem_locations hp hnames (List.take_prefix _ _) fun hnil => ?_
    have hlength := congrArg List.length hnil
    rw [List.length_take, List.length_nil] at hlength
    omega
  have hdistinct : (List.range names.length).Pairwise fun m n =>
      t.placeOf p.components ++ names.take (m + 1) ≠ t.placeOf p.components ++
        names.take (n + 1) := by
    refine List.pairwise_lt_range.imp_of_mem fun hm hn hlt hsame => ?_
    rw [List.mem_range] at hm hn
    have hlength := congrArg List.length (List.append_cancel_left hsame)
    rw [List.length_take, List.length_take] at hlength
    omega
  simpa using length_le_of_injective_key hfronts hdistinct

/-! ## Following steps in alike trees -/

/-- A step to a name goes to one name. -/
def Step.OnePiece : Step → Prop
  | .name wanted => '/' ∉ wanted
  | _ => True

private theorem slash_notMem_dotEntries {tokens : List Token} (h : name ∈ dotEntries tokens) :
    '/' ∉ name := by
  rw [dotEntries] at h
  split at h
  · have hdots : name = ['.', '.'] ∨ name = ['.'] := by simpa using (List.mem_filter.1 h).1
    rcases hdots with rfl | rfl <;> decide
  · cases h

section Alike

variable (halike : Alike base changed t t') (hnamed : t.WellNamed) (hclear : base.KeepsClear q)
include halike hnamed hclear

/-- What lies at any depth below a path lies there in an alike tree too. -/
private theorem mem_below_of_alike (habs : p.isAbsolute = true)
    {found found' : Text → Path → List Path} {depth : Nat}
    (hfound : ∀ name r, r.isAbsolute = true → q ∈ found name r →
      q ∈ found' name r ∧ r.components <+: q.components) (h : q ∈ below t found depth p) :
    q ∈ below t' found' (t'.entries.length + 1) p ∧ p.components <+: q.components := by
  obtain ⟨front, name, _, hleads, hq⟩ := mem_below_iff.1 h
  have hp := firm_of_isAbsolute habs
  have hnames := fun other hother => (hleads.isName hnamed other hother).1
  obtain ⟨hfold, _, hcomponents⟩ := hp.foldl_child fun other hother =>
    (hnames other hother).one_piece
  have habs' := Path.isAbsolute_foldl_push habs (front ++ [name])
  rw [hfold] at hq
  obtain ⟨hq', hend⟩ := hfound name _ habs' hq
  have hleads' := hleads.of_alike halike hnamed habs (hfold ▸ hclear.above habs' hend)
  have hlength := hleads'.length_le hp hnames
  rw [List.length_append, List.length_singleton] at hlength
  refine ⟨mem_below_iff.2 ⟨front, name, by omega, hleads', hfold ▸ hq'⟩,
    List.IsPrefix.trans ?_ hend⟩
  rw [hcomponents]
  exact List.prefix_append _ _

/-- What steps find they find in an alike tree too.  It goes on from where the steps start. -/
theorem mem_follow_of_alike : ∀ {steps : List Step} {p : Path}, p.isAbsolute = true →
    (∀ step ∈ steps, step.OnePiece) → q ∈ follow t directoriesOnly steps p →
    q ∈ follow t' directoriesOnly steps p ∧ p.components <+: q.components
  | [], p, _, _, h => by
    obtain rfl := eq_of_mem_result h
    rw [follow, result] at h ⊢
    rw [halike.isDirectory_eq hclear]
    exact ⟨h, List.prefix_rfl⟩
  | .name wanted :: rest, p, habs, hsteps, h => by
    have hp := firm_of_isAbsolute habs
    have hslash : '/' ∉ wanted := hsteps _ List.mem_cons_self
    rw [follow] at h ⊢
    simp only [hp.child_eq_push, List.mem_ite_nil_right] at h ⊢
    obtain ⟨hq, hend⟩ := mem_follow_of_alike (Path.isAbsolute_push habs wanted)
      (fun step hstep => hsteps step (List.mem_cons_of_mem _ hstep)) h.2
    have habove := (hp.prefix_push hslash).trans hend
    refine ⟨⟨?_, hq⟩, habove⟩
    rw [halike.isDirectory_eq (hclear.above habs habove),
      halike.hasEntry_eq (hclear.above (Path.isAbsolute_push habs wanted) hend)]
    exact h.1
  | .pattern tokens :: rest, p, habs, hsteps, h => by
    have hp := firm_of_isAbsolute habs
    rw [follow] at h ⊢
    split at h
    · rename_i hdir
      obtain ⟨next, hnext, h⟩ := List.mem_flatMap.1 h
      have hlater := fun step hstep =>
        hsteps step (List.mem_cons_of_mem (Step.pattern tokens) hstep)
      obtain ⟨piece, hslash, rfl, hthere⟩ : ∃ piece, '/' ∉ piece ∧ next = p.push piece ∧
          (base.KeepsClear next → next ∈ (dotEntries tokens).map p.push ++
            ((visibleChildren t' p).filter fun shown => accepts tokens shown.1).map
              Prod.snd) := by
        rcases List.mem_append.1 hnext with hnext | hnext
        · obtain ⟨piece, hpiece, rfl⟩ := List.mem_map.1 hnext
          exact ⟨piece, slash_notMem_dotEntries hpiece, rfl, fun _ =>
            List.mem_append_left _ (List.mem_map_of_mem hpiece)⟩
        · obtain ⟨⟨name, next⟩, hname, rfl⟩ := List.mem_map.1 hnext
          rw [List.mem_filter] at hname
          have hisName := isName_of_mem_visibleChildren hnamed hname.1
          obtain ⟨hchild, _⟩ := exists_place_of_mem_visibleChildren hname.1
          refine ⟨name, hisName.one_piece, hchild.trans (hp.child_eq_push name), fun hnext => ?_⟩
          have hmem := mem_visibleChildren_of_alike halike hnamed hp hname.1 hnext
          exact List.mem_append_right _
            (List.mem_map.2 ⟨(name, next), List.mem_filter.2 ⟨hmem, hname.2⟩, rfl⟩)
      have habs' := Path.isAbsolute_push habs piece
      obtain ⟨hq, hend⟩ := mem_follow_of_alike habs' hlater h
      have habove := (hp.prefix_push hslash).trans hend
      rw [if_pos ((halike.isDirectory_eq (hclear.above habs habove)).trans hdir)]
      exact ⟨List.mem_flatMap.2 ⟨_, hthere (hclear.above habs' hend), hq⟩, habove⟩
    · cases h
  | [.recursive], p, habs, _, h => by
    rw [follow] at h ⊢
    refine mem_below_of_alike halike hnamed hclear habs (fun name r _ hq => ?_) h
    rw [List.mem_ite_nil_right, List.mem_singleton] at hq ⊢
    obtain ⟨hdir, rfl⟩ := hq
    exact ⟨⟨(halike.isDirectory_eq hclear).trans hdir, rfl⟩, List.prefix_rfl⟩
  | .recursive :: next :: rest, p, habs, hsteps, h => by
    rw [follow] at h ⊢
    refine mem_below_of_alike halike hnamed hclear habs (fun name r habs' hq => ?_) h
    rw [List.mem_ite_nil_right] at hq ⊢
    obtain ⟨hq', hend⟩ := mem_follow_of_alike habs'
      (fun step hstep => hsteps step (List.mem_cons_of_mem _ (List.mem_cons_of_mem _ hstep))) hq.2
    exact ⟨⟨hq.1, hq'⟩, hend⟩

end Alike

/-! ## Paths that an absolute pattern finds -/

theorem isAbsolute_child (habs : p.isAbsolute = true) (name : Text) :
    (child p name).isAbsolute = true := by
  rw [(firm_of_isAbsolute habs).child_eq_push]
  exact Path.isAbsolute_push habs name

theorem isAbsolute_foldl_child (habs : p.isAbsolute = true) (names : List Text) :
    (names.foldl child p).isAbsolute = true := by
  induction names generalizing p with
  | nil => exact habs
  | cons name names ih => exact ih (isAbsolute_child habs name)

theorem isAbsolute_of_mem_follow : ∀ {steps : List Step} {p : Path}, p.isAbsolute = true →
    q ∈ follow t directoriesOnly steps p → q.isAbsolute = true
  | [], p, habs, h => eq_of_mem_result h ▸ habs
  | .name wanted :: rest, p, habs, h => by
    rw [follow] at h
    exact isAbsolute_of_mem_follow (isAbsolute_child habs wanted) (List.mem_ite_nil_right.1 h).2
  | .pattern tokens :: rest, p, habs, h => by
    rw [follow, List.mem_ite_nil_right] at h
    obtain ⟨next, hnext, hq⟩ := List.mem_flatMap.1 h.2
    refine isAbsolute_of_mem_follow ?_ hq
    rcases List.mem_append.1 hnext with hnext | hnext
    · obtain ⟨piece, _, rfl⟩ := List.mem_map.1 hnext
      exact Path.isAbsolute_push habs piece
    · obtain ⟨⟨name, next⟩, hname, rfl⟩ := List.mem_map.1 hnext
      obtain ⟨rfl, _⟩ := exists_place_of_mem_visibleChildren (List.mem_filter.1 hname).1
      exact isAbsolute_child habs name
  | [.recursive], p, habs, h => by
    rw [follow] at h
    obtain ⟨front, name, _, _, hq⟩ := mem_below_iff.1 h
    rw [List.mem_ite_nil_right, List.mem_singleton] at hq
    exact hq.2 ▸ isAbsolute_foldl_child habs _
  | .recursive :: next :: rest, p, habs, h => by
    rw [follow] at h
    obtain ⟨front, name, _, _, hq⟩ := mem_below_iff.1 h
    exact isAbsolute_of_mem_follow (isAbsolute_foldl_child habs _) (List.mem_ite_nil_right.1 hq).2

/-! ## Finding in alike trees -/

private theorem onePiece_stepOf {piece : Text} {part : List Token} (h : tokens piece = .ok part)
    (hslash : '/' ∉ piece) : (stepOf part).OnePiece := by
  rw [stepOf]
  split
  · rename_i name hname
    rcases tokens_cases h hslash with ⟨_, rfl⟩ | ⟨hinside, _⟩
    · cases hname
    · exact slash_notMem_of_literal? hinside hname
  · split_ifs <;> trivial

private theorem of_route_absolute {pattern : Text} (habs : pattern.head? = some '/') {r : Route}
    (h : route pattern = .ok r) : r.start = ⟨['/']⟩ ∧ ∀ step ∈ r.steps, step.OnePiece := by
  obtain ⟨rest, rfl, hanchor⟩ := (anchor_cases pattern).resolve_right fun hother => hother.1 habs
  rw [route_eq, hanchor] at h
  obtain ⟨_, _, h⟩ := bind_eq_ok_iff.1 h
  obtain ⟨parts, hparts, h⟩ := bind_eq_ok_iff.1 h
  cases h
  refine ⟨rfl, fun step hstep => ?_⟩
  have hstep := mem_of_mem_collapse hstep
  split_ifs at hstep
  · rw [List.mem_singleton.1 hstep]
    exact List.not_mem_nil
  · obtain ⟨part, hpart, rfl⟩ := List.mem_map.1 hstep
    obtain ⟨piece, hpiece, hread⟩ := exists_left_of_forall₂ (mapM_eq_ok_iff.1 hparts) hpart
    exact onePiece_stepOf hread (slash_notMem_pieces hpiece)

/-- What an absolute pattern finds is absolute. -/
theorem isAbsolute_of_mem_find {pattern : Text} (habs : pattern.head? = some '/')
    {paths : List Path} (h : find t pattern = .ok paths) (hq : q ∈ paths) :
    q.isAbsolute = true := by
  obtain ⟨r, hroute, hpaths⟩ := bind_eq_ok_iff.1 h
  cases hpaths
  rw [Route.destinations, (of_route_absolute habs hroute).1] at hq
  split_ifs at hq
  · cases hq
  · exact isAbsolute_of_mem_follow (by decide) hq

/-- An absolute pattern that finds a path finds it in an alike tree too, if the path keeps
clear. -/
theorem mem_find_of_alike (halike : Alike base changed t t') (hnamed : t.WellNamed)
    {pattern : Text} (habs : pattern.head? = some '/') {paths paths' : List Path}
    (h : find t pattern = .ok paths) (h' : find t' pattern = .ok paths') (hq : q ∈ paths)
    (hclear : base.KeepsClear q) : q ∈ paths' := by
  obtain ⟨r, hroute, hpaths⟩ := bind_eq_ok_iff.1 h
  obtain ⟨r', hroute', hpaths'⟩ := bind_eq_ok_iff.1 h'
  obtain rfl : r' = r := Except.ok.inj (hroute'.symm.trans hroute)
  cases hpaths
  cases hpaths'
  obtain ⟨hstart, hsteps⟩ := of_route_absolute habs hroute
  rw [Route.destinations, hstart] at hq ⊢
  split_ifs at hq ⊢
  · cases hq
  · exact (mem_follow_of_alike halike hnamed hclear (by decide) hsteps hq).1

end Glob

end StyleBundle
