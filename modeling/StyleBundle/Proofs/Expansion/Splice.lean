import Mathlib.Data.List.Perm.Basic
import Mathlib.Data.List.Sort
import StyleBundle.Expansion.Splice
import StyleBundle.Proofs.Directive
import StyleBundle.Proofs.Lists

/-!
# Splicing is replacing in place

A text with directives can be taken apart from left to right (`Piece.ofText`): a piece is a
character that stays, or a directive.  `Replacement.splice` knows nothing of pieces.  It cuts the
text at byte offsets.

`Replacement.splice_eq_flatten` says that the two agree.  When every directive has a text that
takes its place, splicing these texts in is filling in the pieces one after the other.  The
induction is on the text, and the offset counts the bytes that were passed.

The texts may come in any order, because they are sorted by where they start
(`Replacement.sorted_eq`) and no two directives start at one offset.
-/

namespace StyleBundle

/-! ## Pieces of a text -/

/-- A part of a text that is expanded on its own. -/
inductive Piece where
  /-- A character outside of directives. -/
  | copied (c : Char)
  /-- A directive. -/
  | directive (kind : Directive.Kind) (target : Text)
deriving DecidableEq

namespace Piece

/-- Takes the rest of a text apart.  The first `covered` characters belong to a directive that was
found before, and none of the first `skip` characters starts another one. -/
def scan (covered skip : Nat) : Text → List Piece
  | [] => []
  | c :: rest =>
    match covered, skip with
    | covered + 1, skip => scan covered (skip - 1) rest
    | 0, skip + 1 => .copied c :: scan 0 skip rest
    | 0, 0 =>
      match Directive.occurrence? (c :: rest) with
      | some found =>
        .directive found.kind found.target ::
          scan (found.raw.length - 1) (found.consumed - 1) rest
      | none => .copied c :: scan 0 0 rest

/-- The pieces of a text, from left to right. -/
def ofText (t : Text) : List Piece :=
  scan 0 0 t

end Piece

namespace Replacement

/-! ## Cutting at byte offsets -/

theorem cutBytes_zero (t : Text) : cutBytes 0 t = ([], t) := by
  cases t with
  | nil => rfl
  | cons c t =>
    have hsize := Char.utf8Size_pos c
    rw [cutBytes, if_neg (by omega)]

theorem cutBytes_cons {c : Char} {n : Nat} (h : c.utf8Size ≤ n) (t : Text) :
    cutBytes n (c :: t) =
      (c :: (cutBytes (n - c.utf8Size) t).1, (cutBytes (n - c.utf8Size) t).2) := by
  rw [cutBytes, if_pos h]

/-- Cutting off as many bytes as some characters have is cutting off these characters. -/
theorem cutBytes_byteLength_take (n : Nat) (t : Text) :
    cutBytes (Text.byteLength (t.take n)) t = (t.take n, t.drop n) := by
  induction t generalizing n with
  | nil => simp [cutBytes]
  | cons c t ih =>
    cases n with
    | zero => exact cutBytes_zero _
    | succ n =>
      rw [List.take_succ_cons, Text.byteLength_cons, cutBytes_cons (by omega),
        Nat.add_sub_cancel_left, ih, List.drop_succ_cons]

/-- A character in front of all stretches stays. -/
theorem spliceFrom_cons {offset : Nat} {c : Char} {replacements : List Replacement}
    (h : ∀ r ∈ replacements, offset + c.utf8Size ≤ r.start) (t : Text) :
    spliceFrom offset (c :: t) replacements =
      c :: spliceFrom (offset + c.utf8Size) t replacements := by
  cases replacements with
  | nil => rfl
  | cons r later =>
    have hstart := h r List.mem_cons_self
    have hoffset : r.start - offset - c.utf8Size = r.start - (offset + c.utf8Size) := by omega
    rw [spliceFrom, spliceFrom, cutBytes_cons (by omega), hoffset]
    rfl

/-- A stretch at the front is replaced. -/
theorem spliceFrom_start {r : Replacement} {later : List Replacement} {n : Nat} {t : Text}
    (hstop : r.stop = r.start + Text.byteLength (t.take n)) :
    spliceFrom r.start t (r :: later) = r.content ++ spliceFrom r.stop (t.drop n) later := by
  have hlength : r.stop - r.start = Text.byteLength (t.take n) := by omega
  rw [spliceFrom, Nat.sub_self, cutBytes_zero, hlength]
  simp only [cutBytes_byteLength_take, List.nil_append]

/-! ## Filling in the pieces -/

/-- The replacement stands where the directive does and has the text that `put` gives for it. -/
structure Fills (put : Piece → Option Text) (d : Directive) (r : Replacement) : Prop where
  start_eq : r.start = d.start
  stop_eq : r.stop = d.stop
  content_eq : put (.directive d.kind d.target) = some r.content

/-- The pieces are filled in with the parts. -/
def Filled (put : Piece → Option Text) (pieces : List Piece) (parts : List Text) : Prop :=
  List.Forall₂ (fun piece part => put piece = some part) pieces parts

variable {put : Piece → Option Text}

private theorem le_start_of_fills {skip offset : Nat} {t : Text} {replacements : List Replacement}
    (h : List.Forall₂ (Fills put) (Directive.scan skip offset t) replacements) :
    ∀ r ∈ replacements, offset ≤ r.start := by
  intro r hr
  obtain ⟨d, hd, hfills⟩ := exists_left_of_forall₂ h hr
  rw [hfills.start_eq]
  exact Directive.le_start_of_mem_scan hd

private theorem spliceFrom_eq_flatten (hput : ∀ c, put (.copied c) = some [c]) (t : Text) :
    ∀ (covered skip offset : Nat) (replacements : List Replacement), covered ≤ skip →
      List.Forall₂ (Fills put) (Directive.scan skip offset t) replacements →
        ∃ parts, Filled put (Piece.scan covered skip t) parts ∧
          spliceFrom (offset + Text.byteLength (t.take covered)) (t.drop covered) replacements =
            parts.flatten := by
  induction t with
  | nil =>
    intro covered skip offset replacements _ hfills
    cases hfills
    exact ⟨[], .nil, by simp [spliceFrom]⟩
  | cons c t ih =>
    intro covered skip offset replacements hle hfills
    -- A character that is copied, with `skip` characters after it that start no directive.
    have hcopied : ∀ skip : Nat,
        List.Forall₂ (Fills put) (Directive.scan skip (offset + c.utf8Size) t) replacements →
          ∃ parts, Filled put (.copied c :: Piece.scan 0 skip t) parts ∧
            spliceFrom offset (c :: t) replacements = parts.flatten := by
      intro skip hrest
      obtain ⟨parts, hparts, hsplice⟩ :=
        ih 0 skip (offset + c.utf8Size) replacements (by omega) hrest
      refine ⟨[c] :: parts, .cons (hput c) hparts, ?_⟩
      rw [spliceFrom_cons (le_start_of_fills hrest), List.flatten_cons, ← hsplice]
      rfl
    cases covered with
    | succ covered =>
      obtain ⟨skip, rfl⟩ : ∃ more, skip = more + 1 := ⟨skip - 1, by omega⟩
      obtain ⟨parts, hparts, hsplice⟩ :=
        ih covered skip (offset + c.utf8Size) replacements (by omega) hfills
      refine ⟨parts, hparts, ?_⟩
      rw [List.take_succ_cons, Text.byteLength_cons, List.drop_succ_cons, ← hsplice,
        Nat.add_assoc]
    | zero =>
      cases skip with
      | succ skip => exact hcopied skip hfills
      | zero =>
        rw [Directive.scan] at hfills
        rw [Piece.scan]
        cases hfound : Directive.occurrence? (c :: t) with
        | none =>
          rw [hfound] at hfills
          exact hcopied 0 hfills
        | some found =>
          rw [hfound] at hfills
          obtain ⟨r, later, hr, hlater, rfl⟩ := List.forall₂_cons_left_iff.1 hfills
          obtain ⟨hraw, hpos, hconsumed⟩ := Directive.occurrence?_bounds hfound
          obtain ⟨n, hn⟩ : ∃ n, found.raw.length = n + 1 := ⟨found.raw.length - 1, by omega⟩
          obtain ⟨parts, hparts, hsplice⟩ := ih n (found.consumed - 1) (offset + c.utf8Size) later
            (by omega) hlater
          refine ⟨r.content :: parts, .cons hr.content_eq ?_, ?_⟩
          · rw [hn]
            exact hparts
          · have hstart : r.start = offset := hr.start_eq
            have hstop : r.stop = r.start + Text.byteLength ((c :: t).take (n + 1)) := by
              rw [hr.stop_eq, hstart, ← hn, ← hraw]
              rfl
            have hoffset : r.stop = offset + c.utf8Size + Text.byteLength (t.take n) := by
              rw [hstop, hstart, List.take_succ_cons, Text.byteLength_cons, Nat.add_assoc]
            rw [List.flatten_cons, ← hsplice, ← hoffset]
            change spliceFrom offset (c :: t) (r :: later) = _
            rw [← hstart, spliceFrom_start hstop, List.drop_succ_cons]

/-! ## The order of replacements -/

/-- Sorting brings replacements in the one order in which their starts increase. -/
theorem sorted_eq {replacements ordered : List Replacement} (h : ordered.Perm replacements)
    (hordered : ordered.Pairwise fun a b => a.start < b.start) :
    sorted replacements = ordered := by
  have hsorted : (sorted replacements).Pairwise fun a b => decide (a.start ≤ b.start) = true := by
    apply List.pairwise_mergeSort
    · intro a b c hab hbc
      simp only [decide_eq_true_eq] at hab hbc ⊢
      omega
    · intro a b
      simp only [Bool.or_eq_true, decide_eq_true_eq]
      omega
  have hperm : (sorted replacements).Perm ordered := (List.mergeSort_perm _ _).trans h.symm
  have hinj := List.inj_on_of_nodup_map
    (List.pairwise_map.2 (hordered.imp fun hlt => Nat.ne_of_lt hlt) : (ordered.map start).Nodup)
  refine List.Perm.eq_of_pairwise ?_ hsorted (hordered.imp fun hlt => ?_) hperm
  · intro a b ha hb hab hba
    simp only [decide_eq_true_eq] at hab hba
    exact hinj (hperm.subset ha) hb (Nat.le_antisymm hab hba)
  · simp only [decide_eq_true_eq]
    omega

/-- Texts for the directives, in any order, spliced into the text are the pieces filled in from
left to right. -/
theorem splice_eq_flatten (hput : ∀ c, put (.copied c) = some [c]) {t : Text}
    {directives : List Directive} {replacements : List Replacement}
    (hperm : directives.Perm (Directive.parse t))
    (hfills : List.Forall₂ (Fills put) directives replacements) :
    ∃ parts, Filled put (Piece.ofText t) parts ∧
      splice t (sorted replacements) = parts.flatten := by
  obtain ⟨ordered, hordered, hsame⟩ := List.perm_comp_forall₂ hperm.symm hfills
  have hmap : ordered.map start = (Directive.parse t).map Directive.start := by
    rw [← List.forall₂_eq_eq_eq, List.forall₂_map_left_iff, List.forall₂_map_right_iff]
    exact hordered.flip.imp fun r d hfill => hfill.start_eq
  have hstarts : ordered.Pairwise fun a b => a.start < b.start := by
    rw [← List.pairwise_map, hmap, List.pairwise_map]
    exact Directive.pairwise_start_parse t
  rw [sorted_eq hsame hstarts]
  obtain ⟨parts, hparts, hsplice⟩ :=
    spliceFrom_eq_flatten hput t 0 0 0 ordered (Nat.le_refl 0) hordered
  exact ⟨parts, hparts, hsplice⟩

end Replacement

end StyleBundle
