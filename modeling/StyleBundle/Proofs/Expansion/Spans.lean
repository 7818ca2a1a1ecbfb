import StyleBundle.Proofs.Directive.Grammar
import StyleBundle.Proofs.Expansion.Assembly
import StyleBundle.Proofs.Expansion.Splice

/-!
# Directives can be cut out of their text

Splicing takes slices of a text by byte offsets.  `Text.slice?` is a slice that has to exist:
there is none between offsets that run backwards, that lie outside of the text, or that lie inside
of a character.  `Replacement.splice?` is splicing with such slices.

The directives of a text divide it (`Directive.Divides`): text that stays and text that a
directive covers take turns, and the offsets of a directive are where its text starts and ends.
All else follows by induction along this division.  The texts that are put in place of the
directives may come in the order of the two passes, because they are sorted by where they start.
-/

namespace StyleBundle

/-! ## Slices -/

namespace Text

variable {t s front back : Text} {n start stop : Nat}

/-- The text in front of a byte offset and the text behind it, if no character stands across the
offset. -/
def cutAt? : (n : Nat) → Text → Option (Text × Text)
  | 0, t => some ([], t)
  | _ + 1, [] => none
  | n + 1, c :: rest =>
    if c.utf8Size ≤ n + 1 then
      (cutAt? (n + 1 - c.utf8Size) rest).map fun cut => (c :: cut.1, cut.2)
    else none

/-- The text between two byte offsets, if there is one. -/
def slice? (t : Text) (start stop : Nat) : Option Text :=
  if start ≤ stop then do
    let cut ← t.cutAt? start
    let inner ← cut.2.cutAt? (stop - start)
    return inner.1
  else none

theorem cutAt?_append (front back : Text) :
    cutAt? front.byteLength (front ++ back) = some (front, back) := by
  induction front with
  | nil => simp [cutAt?]
  | cons c front ih =>
    have hsize := Char.utf8Size_pos c
    obtain ⟨n, hn⟩ : ∃ n, c.utf8Size + byteLength front = n + 1 :=
      ⟨_, (Nat.succ_pred (by omega)).symm⟩
    have hrest : n + 1 - c.utf8Size = byteLength front := by omega
    rw [List.cons_append, byteLength_cons, hn, cutAt?, if_pos (by omega), hrest, ih]
    rfl

theorem of_cutAt? (h : t.cutAt? n = some (front, back)) :
    t = front ++ back ∧ front.byteLength = n := by
  fun_induction cutAt? n t generalizing front with
  | case1 t =>
    cases h
    exact ⟨rfl, rfl⟩
  | case2 n => cases h
  | case3 n c rest hsize ih =>
    obtain ⟨cut, hcut, hparts⟩ := Option.map_eq_some_iff.1 h
    cases hparts
    obtain ⟨hrest, hlength⟩ := ih hcut
    rw [byteLength_cons, hlength, List.cons_append, ← hrest]
    exact ⟨rfl, by omega⟩
  | case4 n c rest hsize => cases h

/-- A slice is a part of the text.  It starts and ends at the offsets. -/
theorem slice?_eq_some_iff : t.slice? start stop = some s ↔
    ∃ before behind, t = before ++ (s ++ behind) ∧ before.byteLength = start ∧
      (before ++ s).byteLength = stop := by
  rw [slice?]
  constructor
  · intro h
    split_ifs at h with hle
    obtain ⟨⟨before, rest⟩, hbefore, h⟩ := Option.bind_eq_some_iff.1 h
    obtain ⟨⟨inner, behind⟩, hinner, h⟩ := Option.bind_eq_some_iff.1 h
    cases h
    obtain ⟨rfl, rfl⟩ := of_cutAt? hbefore
    obtain ⟨rfl, hlength⟩ := of_cutAt? hinner
    refine ⟨before, behind, rfl, rfl, ?_⟩
    rw [byteLength_append, hlength]
    omega
  · rintro ⟨before, behind, rfl, rfl, rfl⟩
    rw [byteLength_append, if_pos (Nat.le_add_right _ _), Nat.add_sub_cancel_left]
    refine Option.bind_eq_some_iff.2 ⟨_, cutAt?_append before _, ?_⟩
    exact Option.bind_eq_some_iff.2 ⟨_, cutAt?_append s behind, rfl⟩

-- No slice ends inside of a character.
example : slice? "aéb".toList 1 2 = none ∧ slice? "aéb".toList 1 3 = some "é".toList := by decide

/-- The texts of the first list, with one text of the second list behind each of them but the
last. -/
def weave : List Text → List Text → Text
  | text :: texts, filling :: fillings => text ++ (filling ++ weave texts fillings)
  | texts, _ => texts.flatten

end Text

/-! ## Splicing with slices -/

namespace Replacement

theorem cutBytes_append (front back : Text) :
    cutBytes front.byteLength (front ++ back) = (front, back) := by
  have hcut := cutBytes_byteLength_take front.length (front ++ back)
  rwa [List.take_left, List.drop_left] at hcut

/-- Splices behind the byte offset `cursor`. -/
def spliceFrom? (t : Text) (cursor : Nat) : List Replacement → Option Text
  | [] => t.slice? cursor t.byteLength
  | r :: later => do
    let before ← t.slice? cursor r.start
    let rest ← spliceFrom? t r.stop later
    return before ++ r.content ++ rest

/-- The text with every stretch replaced, if all slices of it that are needed exist. -/
def splice? (t : Text) (replacements : List Replacement) : Option Text :=
  spliceFrom? t 0 replacements

end Replacement

/-! ## The division of a text -/

namespace Directive

variable {t whole before : Text} {offset : Nat} {ds : List Directive} {d : Directive}
  {gaps : List Text} {put : Directive → Text}

/-- The directives divide the text, which starts at a byte offset, and leave the gaps between
them. -/
inductive Divides : Nat → Text → List Directive → List Text → Prop
  /-- Without directives all of the text is one gap. -/
  | last (offset : Nat) (t : Text) : Divides offset t [] [t]
  /-- The first directive stands between the first gap and the rest. -/
  | next (offset : Nat) (gap rest : Text) (d : Directive) (ds : List Directive) (gaps : List Text)
      (hraw : d.raw ≠ []) (hstart : d.start = offset + gap.byteLength)
      (hrest : Divides d.stop rest ds gaps) :
    Divides offset (gap ++ (d.raw ++ rest)) (d :: ds) (gap :: gaps)

/-- More text in front goes to the first gap. -/
theorem Divides.append (h : Divides (offset + before.byteLength) t ds gaps) :
    ∃ gaps, Divides offset (before ++ t) ds gaps := by
  cases h with
  | last => exact ⟨_, .last offset (before ++ t)⟩
  | next _ gap rest d ds gaps hraw hstart hrest =>
    rw [← List.append_assoc]
    refine ⟨_, .next offset (before ++ gap) rest d ds gaps hraw ?_ hrest⟩
    rw [hstart, Text.byteLength_append, Nat.add_assoc]

theorem exists_divides_of_reads (h : Reads offset t ds) : ∃ gaps, Divides offset t ds gaps := by
  induction h with
  | done offset t _ => exact ⟨_, .last offset t⟩
  | found offset gap body closer rest o kind target ds _ hbody _ _ ih =>
    obtain ⟨gaps, hgaps⟩ := ih
    rw [Text.byteLength_append, Text.byteLength_append, ← Nat.add_assoc, ← Nat.add_assoc] at hgaps
    -- The closer of a directive that does not cover it goes to the gap behind the directive.
    obtain ⟨covered, behind, hcovered, hparts, hne, gaps', hrest⟩ : ∃ covered behind,
        (if o = .block then body ++ closer else body) = covered ∧
        body ++ closer ++ rest = covered ++ behind ∧
          covered ≠ [] ∧ ∃ gaps,
            Divides (offset + gap.byteLength + covered.byteLength) behind ds gaps := by
      split_ifs
      · refine ⟨_, rest, rfl, rfl,
          List.append_ne_nil_of_left_ne_nil hbody.ne_nil closer, gaps, ?_⟩
        rwa [Text.byteLength_append, ← Nat.add_assoc]
      · exact ⟨_, closer ++ rest, rfl, List.append_assoc _ _ _, hbody.ne_nil, hgaps.append⟩
    rw [hcovered, hparts]
    exact ⟨_, .next offset gap behind ⟨kind, target, covered, offset + gap.byteLength⟩ ds gaps'
      hne rfl hrest⟩

/-- The directives of a text divide it. -/
theorem exists_divides (t : Text) : ∃ gaps, Divides 0 t (parse t) gaps := by
  obtain ⟨ds, hreads⟩ := exists_reads 0 t
  rw [parse, hreads.scan_eq]
  exact exists_divides_of_reads hreads

theorem Divides.exists_of_mem (h : Divides offset t ds gaps) (hd : d ∈ ds) :
    d.raw ≠ [] ∧ ∃ before behind, t = before ++ (d.raw ++ behind) ∧
    d.start = offset + before.byteLength := by
  induction h with
  | last => cases hd
  | next offset gap rest d' ds gaps hraw hstart hrest ih =>
    rcases List.mem_cons.1 hd with rfl | hd
    · exact ⟨hraw, gap, rest, rfl, hstart⟩
    · obtain ⟨hraw', before, behind, rfl, hstart'⟩ := ih hd
      refine ⟨hraw', gap ++ (d'.raw ++ before), behind, by simp, ?_⟩
      rw [hstart', stop, hstart]
      simp [Nat.add_assoc]

theorem Divides.pairwise (h : Divides offset t ds gaps) :
    ds.Pairwise fun d d' => d.stop ≤ d'.start := by
  induction h with
  | last => exact List.Pairwise.nil
  | next offset gap rest d ds gaps hraw hstart hrest ih =>
    refine List.pairwise_cons.2 ⟨fun d' hd' => ?_, ih⟩
    obtain ⟨_, before, _, _, hstart'⟩ := hrest.exists_of_mem hd'
    rw [hstart']
    exact Nat.le_add_right _ _

theorem Divides.weave_raw (h : Divides offset t ds gaps) : Text.weave gaps (ds.map raw) = t := by
  induction h with
  | last offset t => simp [Text.weave]
  | next offset gap rest d ds gaps hraw hstart hrest ih => rw [List.map_cons, Text.weave, ih]

/-! ## Filling the division -/

/-- The slices of a text behind the byte offset `cursor` and outside of the directives. -/
def outsideFrom (t : Text) (cursor : Nat) (ds : List Directive) : List (Option Text) :=
  List.zipWith t.slice? (cursor :: ds.map stop) (ds.map start ++ [t.byteLength])

/-- The slices of a text outside of the directives. -/
def outside (t : Text) (ds : List Directive) : List (Option Text) :=
  outsideFrom t 0 ds

theorem outsideFrom_nil (t : Text) (cursor : Nat) :
    outsideFrom t cursor [] = [t.slice? cursor t.byteLength] := rfl

theorem outsideFrom_cons (t : Text) (cursor : Nat) (d : Directive) (ds : List Directive) :
    outsideFrom t cursor (d :: ds) = t.slice? cursor d.start :: outsideFrom t d.stop ds := rfl

/-- What is outside of the directives are the gaps. -/
theorem Divides.outsideFrom_eq (h : Divides offset t ds gaps) (hwhole : whole = before ++ t)
    (hbefore : before.byteLength = offset) : outsideFrom whole offset ds = gaps.map some := by
  induction h generalizing before with
  | last offset t =>
    have hslice : whole.slice? offset whole.byteLength = some t :=
      Text.slice?_eq_some_iff.2 ⟨before, [], by simp [hwhole], hbefore, by rw [hwhole]⟩
    rw [outsideFrom_nil, hslice]
    rfl
  | next offset gap rest d ds gaps hraw hstart hrest ih =>
    have hslice : whole.slice? offset d.start = some gap := by
      refine Text.slice?_eq_some_iff.2 ⟨before, d.raw ++ rest, hwhole, hbefore, ?_⟩
      rw [Text.byteLength_append, hbefore, hstart]
    have hlater : whole = (before ++ (gap ++ d.raw)) ++ rest := by simp [hwhole]
    have hstop : (before ++ (gap ++ d.raw)).byteLength = d.stop := by
      rw [Text.byteLength_append, Text.byteLength_append, hbefore, stop, hstart, Nat.add_assoc]
    rw [outsideFrom_cons, hslice, ih hlater hstop, List.map_cons]

/-- The text in place of a directive. -/
def fill (put : Directive → Text) (d : Directive) : Replacement :=
  ⟨d.start, d.stop, put d⟩

/-- Splicing needs no slices but those outside of the directives. -/
theorem spliceFrom?_of_outsideFrom (h : outsideFrom t offset ds = gaps.map some) :
    Replacement.spliceFrom? t offset (ds.map (fill put)) =
      some (Text.weave gaps (ds.map put)) := by
  induction ds generalizing offset gaps with
  | nil =>
    obtain ⟨gap, gaps, rfl, hslice, hgaps⟩ :=
      List.map_eq_cons_iff.1 (h.symm.trans (outsideFrom_nil t offset))
    rw [List.map_eq_nil_iff.1 hgaps, List.map_nil, Replacement.spliceFrom?, ← hslice]
    simp [Text.weave]
  | cons d ds ih =>
    obtain ⟨gap, gaps, rfl, hslice, hgaps⟩ :=
      List.map_eq_cons_iff.1 (h.symm.trans (outsideFrom_cons t offset d ds))
    rw [List.map_cons, List.map_cons, Replacement.spliceFrom?, fill, ← hslice,
      ih hgaps.symm, Text.weave, ← List.append_assoc]
    rfl

theorem Divides.spliceFrom_eq (h : Divides offset t ds gaps) :
    Replacement.spliceFrom offset t (ds.map (fill put)) = Text.weave gaps (ds.map put) := by
  induction h with
  | last offset t => simp [Replacement.spliceFrom, Text.weave]
  | next offset gap rest d ds gaps hraw hstart hrest ih =>
    have hgap : d.start - offset = gap.byteLength := by omega
    have hcovered : d.stop - d.start = d.raw.byteLength := by
      rw [stop]
      omega
    rw [List.map_cons, List.map_cons, Replacement.spliceFrom, fill, hgap, hcovered]
    simp only [Replacement.cutBytes_append]
    rw [ih, Text.weave, List.append_assoc]

end Directive

/-! ## Two passes -/

namespace Catalog

open Directive

variable {t : Text} {put : Directive → Text}

/-- What the directives of a text contribute, in the order in which they are worked out, when
`put` gives the text in place of each. -/
def filled (put : Directive → Text) (t : Text) : List Contribution :=
  (inTwoPasses (parse t)).map fun d => contribute d (put d) []

/-- Sorting brings the texts back into the order of their directives. -/
theorem sorted_filled (put : Directive → Text) (t : Text) :
    Replacement.sorted ((filled put t).map Contribution.replacement) =
      (parse t).map (fill put) := by
  have hperm : ((parse t).map (fill put)).Perm ((filled put t).map Contribution.replacement) := by
    rw [filled, List.map_map]
    exact (inTwoPasses_perm (parse t)).symm.map (fill put)
  refine Replacement.sorted_eq hperm (List.pairwise_map.2 ?_)
  exact pairwise_start_parse t

/-- The directives of a text can be cut out of it.

* Each covers a slice of the text that is not empty, and each starts behind the end of those
  before it.
* The slices outside of them exist.  Whatever text each directive is given, splicing finds all
  slices that it takes, and the result has the slices outside of the directives in their order
  with the given texts between them.
* Splicing in what the directives cover gives back the text. -/
theorem spans_can_be_spliced (t : Text) :
    (∀ d ∈ parse t, d.start < d.stop ∧ d.stop ≤ t.byteLength ∧ t.slice? d.start d.stop =
      some d.raw) ∧ (parse t).Pairwise (fun d d' => d.start < d'.start ∧ d.stop ≤ d'.start) ∧
      (∃ gaps : List Text, outside t (parse t) = gaps.map some ∧ ∀ put : Directive → Text,
        (assemble t (filled put t)).content = Text.weave gaps ((parse t).map put) ∧
          Replacement.splice? t
            (Replacement.sorted ((filled put t).map Contribution.replacement)) =
            some (assemble t (filled put t)).content) ∧
      (assemble t (filled raw t)).content = t := by
  obtain ⟨gaps, hgaps⟩ := exists_divides t
  have hcontent : ∀ put : Directive → Text,
      (assemble t (filled put t)).content = Text.weave gaps ((parse t).map put) := by
    intro put
    rw [assemble, sorted_filled]
    exact hgaps.spliceFrom_eq
  have houtside : outside t (parse t) = gaps.map some :=
    hgaps.outsideFrom_eq (List.nil_append t).symm Text.byteLength_nil
  refine ⟨fun d hd => ?_, ?_, ⟨gaps, houtside, fun put => ⟨hcontent put, ?_⟩⟩, ?_⟩
  · obtain ⟨hraw, before, behind, rfl, hstart⟩ := hgaps.exists_of_mem hd
    have hpos := Text.byteLength_pos hraw
    rw [Nat.zero_add] at hstart
    refine ⟨by rw [stop]; omega, by simp [stop, hstart], Text.slice?_eq_some_iff.2 ?_⟩
    exact ⟨before, behind, rfl, hstart.symm, by rw [stop, hstart, Text.byteLength_append]⟩
  · exact (pairwise_start_parse t).and hgaps.pairwise
  · rw [sorted_filled, hcontent, Replacement.splice?]
    exact spliceFrom?_of_outsideFrom houtside
  · rw [hcontent, hgaps.weave_raw]

end Catalog

end StyleBundle
