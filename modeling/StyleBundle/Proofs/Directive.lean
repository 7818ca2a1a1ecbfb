import Mathlib.Tactic.SplitIfs
import StyleBundle.Directive
import StyleBundle.Proofs.Text.Split

/-!
# Where directives stand

A directive that is read at the start of a text covers a front of it that is not empty, and all
that it covers is read with it (`Directive.occurrence?_bounds`).

The directives of a text are found from left to right: each starts behind the one before it
(`Directive.pairwise_start_parse`).
-/

namespace StyleBundle

/-! ## What a reader leaves -/

namespace Text

theorem after?_eq_some_iff {head t rest : Text} :
    after? head t = some rest ↔ t = head ++ rest := by
  induction head generalizing t with
  | nil => simp [after?, eq_comm]
  | cons a head ih =>
    cases t with
    | nil => simp [after?]
    | cons c t =>
      rw [after?]
      split_ifs with hac
      · rw [ih, hac]
        simp
      · simp [Ne.symm hac]

theorem after?_eq_none_iff {head t : Text} : after? head t = none ↔ ¬ head <+: t := by
  rw [Option.eq_none_iff_forall_ne_some]
  constructor
  · rintro h ⟨rest, rfl⟩
    exact h rest (after?_eq_some_iff.2 rfl)
  · intro h rest hrest
    exact h ⟨rest, (after?_eq_some_iff.1 hrest).symm⟩

theorem after?_append_append (front head t : Text) :
    after? (front ++ head) (front ++ t) = after? head t := by
  induction front with
  | nil => rfl
  | cons c front ih =>
    rw [List.cons_append, List.cons_append, after?, if_pos rfl, ih]

theorem length_after? {head t rest : Text} (h : after? head t = some rest) :
    rest.length ≤ t.length := by
  rw [after?_eq_some_iff.1 h, List.length_append]
  omega

end Text

namespace Directive

theorem length_opener? {t rest : Text} {o : Opener} (h : opener? t = some (o, rest)) :
    rest.length < t.length := by
  unfold opener? at h
  split at h
  · cases h
    simp only [List.length_cons]
    omega
  · cases h
    simp only [List.length_cons]
    omega
  · cases h
    simp only [List.length_cons]
    omega
  · cases h

theorem length_skipBlanks (t : Text) : (skipBlanks t).length ≤ t.length :=
  (List.dropWhile_suffix _).length_le

theorem length_blanks? {t rest : Text} (h : blanks? t = some rest) : rest.length ≤ t.length := by
  cases t with
  | nil => cases h
  | cons c t =>
    rw [blanks?] at h
    split_ifs at h
    cases h
    have hlen := length_skipBlanks t
    rw [List.length_cons]
    omega

theorem length_keyword? {t rest : Text} {kind : Kind} (h : keyword? t = some (kind, rest)) :
    rest.length ≤ t.length := by
  unfold keyword? at h
  split at h
  · rename_i hafter
    cases h
    exact Text.length_after? hafter
  · obtain ⟨rest', hafter, hrest⟩ := Option.map_eq_some_iff.1 h
    cases hrest
    exact Text.length_after? hafter

theorem length_quoted? {t target rest : Text} (h : quoted? t = some (target, rest)) :
    rest.length ≤ t.length := by
  cases t with
  | nil => cases h
  | cons quote t =>
    have hsuffix : t.dropWhile (fun c : Char => c != quote && c != '\n') <:+ t :=
      List.dropWhile_suffix _
    have hlen := hsuffix.length_le
    rw [quoted?] at h
    split_ifs at h
    simp only at h
    split at h
    · cases h
    · rename_i hdrop _
      split_ifs at h
      cases h
      rw [hdrop] at hlen
      simp only [List.length_cons] at hlen ⊢
      omega
    · cases h

theorem length_closer? (t : Text) : ((closer? t).getD t).length ≤ t.length := by
  cases hcloser : closer? t with
  | none => exact Nat.le_refl _
  | some rest => exact Nat.le_trans (Text.length_after? hcloser) (length_skipBlanks t)

/-! ## What a directive covers -/

theorem occurrence?_bounds {t : Text} {o : Occurrence} (h : occurrence? t = some o) :
    o.raw = t.take o.raw.length ∧ 1 ≤ o.raw.length ∧ o.raw.length ≤ o.consumed := by
  obtain ⟨⟨opener, rest₁⟩, hopener, h⟩ := Option.bind_eq_some_iff.1 h
  obtain ⟨rest₂, hequals, h⟩ := Option.bind_eq_some_iff.1 h
  obtain ⟨⟨kind, rest₃⟩, hkeyword, h⟩ := Option.bind_eq_some_iff.1 h
  obtain ⟨rest₄, hblanks, h⟩ := Option.bind_eq_some_iff.1 h
  obtain ⟨⟨target, rest₅⟩, hquoted, h⟩ := Option.bind_eq_some_iff.1 h
  cases h
  have h₁ := length_opener? hopener
  have h₂ := Text.length_after? hequals
  have h₃ := length_keyword? hkeyword
  have h₄ := length_blanks? hblanks
  have h₅ := length_quoted? hquoted
  have hskip₁ := length_skipBlanks rest₁
  have hskip₂ := length_skipBlanks rest₂
  have hclosed := length_closer? rest₅
  -- What is left is shorter than the text, and no shorter than what is left behind a closer.
  obtain ⟨covered, hcovered, hshort, hlong⟩ : ∃ covered : Text,
      (if opener = .block then (closer? rest₅).getD rest₅ else rest₅) = covered ∧
        covered.length < t.length ∧ ((closer? rest₅).getD rest₅).length ≤ covered.length := by
    refine ⟨_, rfl, ?_⟩
    split
    · omega
    · omega
  simp only [hcovered, List.length_take]
  refine ⟨?_, by omega, by omega⟩
  congr 1
  omega

/-! ## The order of directives -/

theorem le_start_of_mem_scan {t : Text} {skip offset : Nat} {d : Directive}
    (h : d ∈ scan skip offset t) : offset ≤ d.start := by
  induction t generalizing skip offset with
  | nil => cases h
  | cons c t ih =>
    unfold scan at h
    split at h
    · have hstart := ih h
      omega
    · split at h
      · rcases List.mem_cons.1 h with rfl | h
        · exact Nat.le_refl _
        · have hstart := ih h
          omega
      · have hstart := ih h
        omega

theorem pairwise_start_scan (t : Text) (skip offset : Nat) :
    (scan skip offset t).Pairwise fun d d' => d.start < d'.start := by
  induction t generalizing skip offset with
  | nil => exact List.Pairwise.nil
  | cons c t ih =>
    unfold scan
    split
    · exact ih _ _
    · split
      · refine List.pairwise_cons.2 ⟨fun d hd => ?_, ih _ _⟩
        have hstart := le_start_of_mem_scan hd
        have hsize := Char.utf8Size_pos c
        show offset < d.start
        omega
      · exact ih _ _

theorem pairwise_start_parse (t : Text) :
    (parse t).Pairwise fun d d' => d.start < d'.start :=
  pairwise_start_scan t 0 0

end Directive

end StyleBundle
