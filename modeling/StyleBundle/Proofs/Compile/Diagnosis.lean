import Mathlib.Data.List.TakeDrop
import StyleBundle.Compile.Report
import StyleBundle.Proofs.Directive
import StyleBundle.Proofs.Lists
import StyleBundle.Proofs.Path.Clean

/-!
# Reading a report back

`Report.Printed` is a report as the compiler prints it: the message, an excerpt between two rulers
and the lines of a trace (`Report.TraceLine`).  The excerpt may look like anything, even like a
message or a trace.

The lines of the printed text are the lines that were printed (`Text.lines_joinWith`), so the
message and the excerpt are always found.  The first line of the trace is read back if its file
has no white space (`Report.frame?_traceLine`).  A file that was read never has any
(`Report.plain_of_firstFrame?`), so this is the only case in which the place is found
(`Report.diagnose_printed_iff`).
-/

namespace StyleBundle

/-! ## Numbers in base ten -/

namespace Digit

theorem hex?_of_isDigit {c : Char} (h : c.isDigit = true) :
    hex? c = some (c.toNat - '0'.toNat) := by
  have hrange : '0' ≤ c ∧ c ≤ '9' := by simpa [Char.isDigit, Char.le_def] using h
  rw [hex?, if_pos hrange]

theorem isDecimal_of_isDigit {c : Char} (h : c.isDigit = true) : isDecimal c = true := by
  have hrange : '0' ≤ c ∧ c ≤ '9' := by simpa [Char.isDigit, Char.le_def] using h
  rw [isDecimal, decimal?, if_pos hrange]
  rfl

/-- The digits of a number write this number. -/
theorem number_ofNat (n : Nat) : number 10 (Text.ofNat n) = n := by
  have hfold : ∀ (digits : Text) (start : Nat), (∀ c ∈ digits, c.isDigit = true) →
      digits.foldl (fun n c => n * 10 + (hex? c).getD 0) start =
        Nat.ofDigitChars 10 digits start := by
    intro digits
    induction digits with
    | nil => intro start _; rfl
    | cons c digits ih =>
      intro start h
      rw [List.foldl_cons, ih _ fun d hd => h d (List.mem_cons_of_mem _ hd),
        hex?_of_isDigit (h c List.mem_cons_self), Nat.ofDigitChars_eq_foldl,
        Nat.ofDigitChars_eq_foldl, List.foldl_cons, Nat.mul_comm]
      rfl
  rw [number, Text.ofNat, hfold _ 0 fun c => Nat.isDigit_of_mem_toDigits (by decide) (by decide),
    Nat.ofDigitChars_toDigits (by decide) (by decide)]

end Digit

theorem isDecimalDigit_of_isDigit {c : Char} (h : c.isDigit = true) :
    isDecimalDigit c = true := by
  have hrange : 0x30 ≤ c.toNat ∧ c.toNat ≤ 0x39 := by
    simpa [Char.isDigit, UInt32.le_iff_toNat_le] using h
  rw [isDecimalDigit, CharClass.within, CharClass.digitRanges, List.any_cons]
  simp [hrange]

/-! ## Lines -/

namespace Text

/-- A text that can be a line: it is not empty, and no line ends in it. -/
structure IsLine (t : Text) : Prop where
  ne_nil : t ≠ []
  newline : '\n' ∉ t
  carriageReturn : '\r' ∉ t

theorem IsLine.dropReturn {t : Text} (h : IsLine t) : t.dropReturn = t := by
  rw [Text.dropReturn, if_neg fun hlast => h.carriageReturn (List.mem_of_getLast? hlast)]

theorem linesOfPieces_of_isLine {lines : List Text} (h : ∀ line ∈ lines, IsLine line) :
    linesOfPieces lines = lines ∧ linesOfPieces (lines ++ [[]]) = lines := by
  induction lines with
  | nil => exact ⟨rfl, rfl⟩
  | cons line lines ih =>
    have hline := h line List.mem_cons_self
    obtain ⟨hopen, hclosed⟩ := ih fun other hother => h other (List.mem_cons_of_mem _ hother)
    cases lines with
    | nil =>
      refine ⟨?_, ?_⟩
      · rw [linesOfPieces, if_neg hline.ne_nil]
      · rw [List.cons_append, List.nil_append, linesOfPieces, hline.dropReturn]
        · rfl
        · simp
    | cons next lines =>
      refine ⟨?_, ?_⟩
      · rw [linesOfPieces, hline.dropReturn, hopen]
        simp
      · rw [List.cons_append, linesOfPieces, hline.dropReturn, hclosed]
        simp

/-- Lines that are joined by newlines are the lines of the text, with or without a newline behind
the last one. -/
theorem lines_joinWith {lines : List Text} (hne : lines ≠ []) (h : ∀ line ∈ lines, IsLine line)
    (closed : Bool) :
    Text.lines (joinWith ['\n'] lines ++ if closed then ['\n'] else []) = lines := by
  have hsplit : split '\n' (joinWith ['\n'] lines) = lines :=
    split_joinWith hne fun line hline => (h line hline).newline
  obtain ⟨hopen, hclosed⟩ := linesOfPieces_of_isLine h
  cases closed with
  | false =>
    rw [if_neg (by decide), List.append_nil, Text.lines, hsplit, hopen]
  | true =>
    rw [if_pos rfl, Text.lines, split_append_separator, hsplit]
    exact hclosed

end Text

namespace Report

/-! ## Printed reports -/

/-- A line of a trace as it is printed: the place, and what the compiler was about there. -/
structure TraceLine where
  file : Text
  line : Nat
  column : Nat
  label : Text
  file_isLine : Text.IsLine file
  line_lt : line < Nat.pow 2 64
  column_lt : column < Nat.pow 2 64
  label_isLine : Text.IsLine label
  /-- The label does not start with white space. -/
  label_start : ∀ c ∈ label.head?, isWhitespace c = false

namespace TraceLine

/-- What follows the file. -/
def rest (f : TraceLine) : Text :=
  ' ' :: Text.ofNat f.line ++ ':' :: Text.ofNat f.column ++ [' ', ' '] ++ f.label

/-- The printed line. -/
def text (f : TraceLine) : Text :=
  [' ', ' '] ++ f.file ++ f.rest

/-- The place as it is written. -/
def frame (f : TraceLine) : Frame :=
  ⟨f.file, Text.ofNat f.line, Text.ofNat f.column⟩

end TraceLine

/-- A report as it is printed. -/
structure Printed where
  message : Text
  /-- The line above the excerpt. -/
  opening : Text
  /-- The lines of the excerpt. -/
  excerpt : List Text
  /-- The line below the excerpt. -/
  closing : Text
  /-- The line of the trace with the place of the error. -/
  first : TraceLine
  /-- The other lines of the trace. -/
  more : List TraceLine
  /-- Whether a newline ends the last line. -/
  closed : Bool
  message_isLine : Text.IsLine message
  opening_isLine : Text.IsLine opening
  opening_isRuler : isRuler openingRuler opening = true
  excerpt_ne_nil : excerpt ≠ []
  excerpt_isLine : ∀ line ∈ excerpt, Text.IsLine line
  excerpt_open : ∀ line ∈ excerpt, isRuler closingRuler line = false
  closing_isLine : Text.IsLine closing
  closing_isRuler : isRuler closingRuler closing = true

namespace Printed

/-- The lines of the trace. -/
def traceLines (r : Printed) : List Text :=
  (r.first :: r.more).map TraceLine.text

/-- The printed lines. -/
def lines (r : Printed) : List Text :=
  ("Error: ".toList ++ r.message) :: r.opening :: (r.excerpt ++ r.closing :: r.traceLines)

/-- The printed text. -/
def text (r : Printed) : Text :=
  Text.joinWith ['\n'] r.lines ++ if r.closed then ['\n'] else []

end Printed

variable {r : Printed}

/-! ## The lines of a report -/

theorem notMem_ofNat {c : Char} (h : c.isDigit = false) (n : Nat) : c ∉ Text.ofNat n := by
  intro hmem
  rw [Nat.isDigit_of_mem_toDigits (by decide) (by decide) hmem] at h
  cases h

theorem TraceLine.isLine_text (f : TraceLine) : Text.IsLine f.text := by
  have hchar : ∀ c, c.isDigit = false → c ≠ ' ' → c ≠ ':' → c ∉ f.file → c ∉ f.label →
      c ∉ f.text := by
    intro c hdigit hspace hcolon hfile hlabel
    simp [TraceLine.text, TraceLine.rest, notMem_ofNat hdigit, hspace, hcolon, hfile, hlabel]
  refine ⟨by simp [TraceLine.text], ?_, ?_⟩
  · exact hchar '\n' rfl (by decide) (by decide) f.file_isLine.newline f.label_isLine.newline
  · exact hchar '\r' rfl (by decide) (by decide) f.file_isLine.carriageReturn
      f.label_isLine.carriageReturn

theorem Printed.isLine_of_mem_lines {line : Text} (h : line ∈ r.lines) : Text.IsLine line := by
  have hmessage : Text.IsLine ("Error: ".toList ++ r.message) := by
    refine ⟨by simp, ?_, ?_⟩
    · simpa using r.message_isLine.newline
    · simpa using r.message_isLine.carriageReturn
  simp only [Printed.lines, Printed.traceLines, List.mem_cons, List.mem_append, List.mem_map] at h
  rcases h with rfl | rfl | h | rfl | ⟨f, _, rfl⟩
  · exact hmessage
  · exact r.opening_isLine
  · exact r.excerpt_isLine _ h
  · exact r.closing_isLine
  · exact f.isLine_text

theorem Printed.lines_text (r : Printed) : r.text.lines = r.lines :=
  Text.lines_joinWith (List.cons_ne_nil _ _) (fun _ => isLine_of_mem_lines) r.closed

theorem message_text (r : Printed) : message r.text = r.message := by
  rw [message, r.lines_text, Printed.lines, List.findSome?_cons, Text.after?_eq_some_iff.2 rfl]
  rfl

theorem afterOpening_lines (r : Printed) :
    afterOpening r.lines = r.excerpt ++ r.closing :: r.traceLines := by
  have hmessage : isRuler openingRuler ("Error: ".toList ++ r.message) = false := rfl
  rw [afterOpening, Printed.lines, List.dropWhile_cons_of_pos (by rw [hmessage]; rfl),
    List.dropWhile_cons_of_neg (by rw [r.opening_isRuler]; decide)]
  rfl

theorem excerptLines_lines (r : Printed) : excerptLines r.lines = r.excerpt := by
  rw [excerptLines, afterOpening_lines,
    List.takeWhile_append_of_pos fun line hline => by rw [r.excerpt_open line hline]; rfl,
    List.takeWhile_cons_of_neg (by rw [r.closing_isRuler]; decide), List.append_nil]

theorem afterClosing_lines (r : Printed) : afterClosing r.lines = r.traceLines := by
  rw [afterClosing, afterOpening_lines,
    List.dropWhile_append_of_pos fun line hline => by rw [r.excerpt_open line hline]; rfl,
    List.dropWhile_cons_of_neg (by rw [r.closing_isRuler]; decide)]
  rfl

theorem excerpt_text (r : Printed) : excerpt r.text = some (Text.joinWith ['\n'] r.excerpt) := by
  obtain ⟨line, lines, hexcerpt⟩ := List.exists_cons_of_ne_nil r.excerpt_ne_nil
  rw [excerpt, r.lines_text, excerptLines_lines, hexcerpt]

theorem trace_text (r : Printed) : trace r.text = Text.joinWith ['\n'] r.traceLines := by
  obtain ⟨line, lines, hexcerpt⟩ := List.exists_cons_of_ne_nil r.excerpt_ne_nil
  rw [trace, r.lines_text, excerptLines_lines, afterClosing_lines, hexcerpt]

/-! ## The first line of a trace -/

theorem run?_append {isIn : Char → Bool} {run : Text} {c : Char} (rest : Text) (hne : run ≠ [])
    (hrun : ∀ d ∈ run, isIn d = true) (hc : isIn c = false) :
    run? isIn (run ++ c :: rest) = some (run, c :: rest) := by
  rw [run?, List.span_eq_takeWhile_dropWhile, takeWhile_append_cons hrun hc,
    dropWhile_append_cons hrun hc]
  obtain ⟨d, run, rfl⟩ := List.exists_cons_of_ne_nil hne
  rfl

theorem mem_run? {isIn : Char → Bool} {t run rest : Text} (h : run? isIn t = some (run, rest)) :
    ∀ c ∈ run, isIn c = true := by
  rw [run?, List.span_eq_takeWhile_dropWhile] at h
  split at h
  · cases h
  · rename_i hspan
    cases h
    cases hspan
    exact fun c hc => List.mem_takeWhile_imp hc

/-- A line whose file has no white space is read back. -/
theorem frame?_traceLine (f : TraceLine) (hplain : ∀ c ∈ f.file, isWhitespace c = false)
    (behind : Text) : frame? (f.text ++ behind) = some f.frame := by
  have hdigits : ∀ n, ∀ c ∈ Text.ofNat n, isDecimalDigit c = true := fun n c hc =>
    isDecimalDigit_of_isDigit (Nat.isDigit_of_mem_toDigits (by decide) (by decide) hc)
  have hblanks : ∀ c ∈ [' ', ' '], isWhitespace c = true := List.all_eq_true.1 rfl
  obtain ⟨first, name, hfile⟩ := List.exists_cons_of_ne_nil f.file_isLine.ne_nil
  obtain ⟨start, label, hlabel⟩ := List.exists_cons_of_ne_nil f.label_isLine.ne_nil
  have hfirst : isWhitespace first = false :=
    hplain first (by rw [hfile]; exact List.mem_cons_self)
  have hstart : isWhitespace start = false := f.label_start start (by rw [hlabel]; rfl)
  have hrest : f.rest ++ behind = ' ' :: (Text.ofNat f.line ++ ':' ::
      (Text.ofNat f.column ++ ' ' :: ' ' :: start :: (label ++ behind))) := by
    simp [TraceLine.rest, hlabel]
  -- One fact for each part of the line, from the left to the right.
  have hindent : run? isWhitespace (f.text ++ behind) =
      some ([' ', ' '], f.file ++ (f.rest ++ behind)) := by
    rw [TraceLine.text, hfile]
    simpa using run?_append (name ++ (f.rest ++ behind)) (by decide) hblanks hfirst
  have hname : run? (fun c => !isWhitespace c) (f.file ++ (f.rest ++ behind)) =
      some (f.file, f.rest ++ behind) :=
    run?_append _ f.file_isLine.ne_nil (fun c hc => by simp [hplain c hc]) rfl
  have hline := run?_append (Text.ofNat f.column ++ ' ' :: ' ' :: start :: (label ++ behind))
    Nat.toDigits_ne_nil (hdigits f.line) (rfl : isDecimalDigit ':' = false)
  have hcolumn := run?_append (' ' :: start :: (label ++ behind))
    Nat.toDigits_ne_nil (hdigits f.column) (rfl : isDecimalDigit ' ' = false)
  have hgap := run?_append (label ++ behind) (by decide) hblanks hstart
  rw [frame?]
  simp only [Option.bind_eq_bind, Option.bind_eq_some_iff, Prod.exists]
  refine ⟨_, _, hindent, _, _, hname, _, Text.after?_eq_some_iff.2 hrest, _, _, hline, _,
    Text.after?_eq_some_iff.2 rfl, _, _, hcolumn, _, _, hgap, ?_⟩
  rw [if_pos (by simp)]
  rfl

/-- A file that was read has no white space. -/
theorem plain_of_frame? {t : Text} {frame : Frame} (h : frame? t = some frame) :
    ∀ c ∈ frame.file, isWhitespace c = false := by
  rw [frame?] at h
  simp only [Option.bind_eq_bind, Option.bind_eq_some_iff, Prod.exists] at h
  obtain ⟨indent, t₁, _, file, t₂, hfile, t₃, _, line, t₄, _, t₅, _, column, t₆, _, gap,
    t₇, _, h⟩ := h
  split_ifs at h
  cases h
  exact fun c hc => by simpa using mem_run? hfile c hc

/-! ## The place -/

theorem firstFrame?_of_frame? {t : Text} {frame : Frame} (h : frame? t = some frame) :
    firstFrame? true t = some frame := by
  cases t with
  | nil => cases h
  | cons c t => rw [firstFrame?, if_pos rfl, h]

theorem plain_of_firstFrame? {atStart : Bool} {t : Text} {frame : Frame}
    (h : firstFrame? atStart t = some frame) : ∀ c ∈ frame.file, isWhitespace c = false := by
  induction t generalizing atStart with
  | nil => cases h
  | cons c t ih =>
    rw [firstFrame?] at h
    split at h
    · rename_i found hfound
      cases h
      cases atStart with
      | true => exact plain_of_frame? hfound
      | false => cases hfound
    · exact ih h

theorem message_diagnose (report : Text) (input logical : Path) :
    (diagnose report input logical).message = message report := by
  rw [diagnose]
  cases firstFrame? true (trace report) <;> rfl

theorem excerpt_diagnose (report : Text) (input logical : Path) :
    (diagnose report input logical).excerpt = excerpt report := by
  rw [diagnose]
  cases firstFrame? true (trace report) <;> rfl

/-- The file of a diagnostic is the logical one, or it has no white space. -/
theorem file_diagnose (report : Text) (input logical : Path) :
    (diagnose report input logical).file = logical ∨
      ∀ c ∈ (diagnose report input logical).file.text, isWhitespace c = false := by
  rw [diagnose]
  cases hframe : firstFrame? true (trace report) with
  | none => exact .inl rfl
  | some frame =>
    dsimp only
    split_ifs
    · exact .inl rfl
    · exact .inr (plain_of_firstFrame? hframe)

/-- The diagnostic names the place of a line.  The input stands for the logical file, by its name
or by its path. -/
structure TraceLine.Placed (f : TraceLine) (input logical : Path) (d : Diagnostic) : Prop where
  file : d.file =
    if some f.file = input.fileName? ∨ (⟨f.file⟩ : Path).same input = true then logical
    else ⟨f.file⟩
  line : d.line = f.line
  column : d.column = f.column

theorem number_ofNat {n : Nat} (h : n < Nat.pow 2 64) : number (Text.ofNat n) = n := by
  have hdecimal : (Text.ofNat n).all Digit.isDecimal = true := List.all_eq_true.2 fun c hc =>
    Digit.isDecimal_of_isDigit (Nat.isDigit_of_mem_toDigits (by decide) (by decide) hc)
  rw [number, Digit.number_ofNat, if_pos ⟨hdecimal, h⟩]

theorem placed_of_firstFrame? {f : TraceLine} {report : Text} (input logical : Path)
    (h : firstFrame? true (trace report) = some f.frame) :
    f.Placed input logical (diagnose report input logical) := by
  rw [diagnose, h]
  refine ⟨if_congr ?_ rfl rfl, number_ofNat f.line_lt, number_ofNat f.column_lt⟩
  rw [Bool.or_eq_true, decide_eq_true_eq]
  rfl

theorem firstFrame?_trace_text (hplain : ∀ c ∈ r.first.file, isWhitespace c = false) :
    firstFrame? true (trace r.text) = some r.first.frame := by
  apply firstFrame?_of_frame?
  rw [trace_text, Printed.traceLines, List.map_cons]
  cases hmore : r.more.map TraceLine.text with
  | nil => simpa [Text.joinWith] using frame?_traceLine r.first hplain []
  | cons next lines =>
    rw [Text.joinWith_cons_cons, List.append_assoc]
    exact frame?_traceLine r.first hplain _

/-- From a printed report the message and the excerpt are read back.  The place of the first line
of the trace is read back exactly when its file has no white space. -/
theorem diagnose_printed_iff (r : Printed) :
    (∀ input logical, (diagnose r.text input logical).message = r.message ∧
      (diagnose r.text input logical).excerpt = some (Text.joinWith ['\n'] r.excerpt)) ∧
    ((∀ input logical, r.first.Placed input logical (diagnose r.text input logical)) ↔
      ∀ c ∈ r.first.file, isWhitespace c = false) := by
  refine ⟨fun input logical => ?_, ?_, ?_⟩
  · rw [message_diagnose, excerpt_diagnose]
    exact ⟨message_text r, excerpt_text r⟩
  · intro hplaced c hc
    by_contra hwhite
    -- With empty paths for the input and the logical file, no other file can stand for this one.
    have hslash : c ≠ '/' := by
      rintro rfl
      exact hwhite rfl
    have hdot : c ≠ '.' := by
      rintro rfl
      exact hwhite rfl
    have hfile := (hplaced Path.empty Path.empty).file
    rw [if_neg] at hfile
    · rcases file_diagnose r.text Path.empty Path.empty with hempty | hplain
      · rw [hempty] at hfile
        exact r.first.file_isLine.ne_nil (congrArg Path.text hfile).symm
      · rw [hfile] at hplain
        exact hwhite (hplain c hc)
    · rintro (hname | hsame)
      · cases hname
      · exact List.not_mem_nil
          (Path.mem_text_of_components_eq (Path.same_iff.1 hsame) hc hslash hdot)
  · intro hplain input logical
    exact placed_of_firstFrame? input logical (firstFrame?_trace_text hplain)

/-! ### An error in a file that another file loads -/

private theorem isLine_of_all {t : Text} (hne : t ≠ [])
    (h : (t.all fun c => c != '\n' && c != '\r') = true) :
    Text.IsLine t := by
  have hchar : ∀ c ∈ t, c ≠ '\n' ∧ c ≠ '\r' := by simpa using h
  exact ⟨hne, fun hmem => (hchar _ hmem).1 rfl, fun hmem => (hchar _ hmem).2 rfl⟩

private theorem start_of_any {t : Text} (h : t.head?.any isWhitespace = false) :
    ∀ c ∈ t.head?, isWhitespace c = false := by
  intro c hc
  rw [Option.mem_def.1 hc] at h
  exact h

/-- The line of the input that loads the file. -/
def loadLine : TraceLine where
  file := "input.scss".toList
  line := 1
  column := 9
  label := "root stylesheet".toList
  file_isLine := isLine_of_all (by decide) rfl
  line_lt := by decide
  column_lt := by decide
  label_isLine := isLine_of_all (by decide) rfl
  label_start := start_of_any rfl

/-- The line of the file with the error. -/
def errorLine (file : Text) (h : Text.IsLine file) : TraceLine where
  file := file
  line := 3
  column := 10
  label := "@import".toList
  file_isLine := h
  line_lt := by decide
  column_lt := by decide
  label_isLine := isLine_of_all (by decide) rfl
  label_start := start_of_any rfl

/-- A report on an error in the file.  The line of the excerpt looks like a line of a trace. -/
def loadReport (file : Text) (h : Text.IsLine file) : Printed where
  message := "m".toList
  opening := "  ╷".toList
  excerpt := ["  a 7:7  b".toList]
  closing := "  ╵".toList
  first := errorLine file h
  more := [loadLine]
  closed := true
  message_isLine := isLine_of_all (by decide) rfl
  opening_isLine := isLine_of_all (by decide) rfl
  opening_isRuler := rfl
  excerpt_ne_nil := by decide
  excerpt_isLine := List.forall_mem_singleton.2 (isLine_of_all (by decide) rfl)
  excerpt_open := List.forall_mem_singleton.2 rfl
  closing_isLine := isLine_of_all (by decide) rfl
  closing_isRuler := rfl

/-- A report on a file with digits and a colon in its name. -/
def plainReport : Printed :=
  loadReport "/s/a:1.scss".toList (isLine_of_all (by decide) rfl)

/-- A report on a file with a space in its name. -/
def spacedReport : Printed :=
  loadReport "/s/a b.scss".toList (isLine_of_all (by decide) rfl)

theorem plain_report_placed :
    (diagnose plainReport.text ⟨"/t/input.scss".toList⟩ ⟨"/s/app.scss".toList⟩).message =
      "m".toList ∧
      (diagnose plainReport.text ⟨"/t/input.scss".toList⟩ ⟨"/s/app.scss".toList⟩).excerpt =
        some "  a 7:7  b".toList ∧
      (diagnose plainReport.text ⟨"/t/input.scss".toList⟩ ⟨"/s/app.scss".toList⟩).file =
        ⟨"/s/a:1.scss".toList⟩ ∧
      (diagnose plainReport.text ⟨"/t/input.scss".toList⟩ ⟨"/s/app.scss".toList⟩).line = 3 ∧
      (diagnose plainReport.text ⟨"/t/input.scss".toList⟩ ⟨"/s/app.scss".toList⟩).column =
        10 := by
  obtain ⟨hparts, hplace⟩ := diagnose_printed_iff plainReport
  have hfile : (plainReport.first.file.all fun c => !isWhitespace c) = true := rfl
  have hplaced := hplace.2 (by simpa using hfile) ⟨"/t/input.scss".toList⟩ ⟨"/s/app.scss".toList⟩
  exact ⟨(hparts _ _).1, (hparts _ _).2, hplaced.file, hplaced.line, hplaced.column⟩

/-- The line with the space is passed over, and the error is put where the input loads the
file. -/
theorem spaced_report_misplaced :
    diagnose spacedReport.text ⟨"/t/input.scss".toList⟩ ⟨"/s/app.scss".toList⟩ =
        ⟨"m".toList, ⟨"/s/app.scss".toList⟩, 1, 9, some "  a 7:7  b".toList⟩ ∧
      spacedReport.first.text = "  /s/a b.scss 3:10  @import".toList ∧
      ¬ spacedReport.first.Placed ⟨"/t/input.scss".toList⟩ ⟨"/s/app.scss".toList⟩
        (diagnose spacedReport.text ⟨"/t/input.scss".toList⟩ ⟨"/s/app.scss".toList⟩) := by
  have hdiagnose : diagnose spacedReport.text ⟨"/t/input.scss".toList⟩ ⟨"/s/app.scss".toList⟩ =
      ⟨"m".toList, ⟨"/s/app.scss".toList⟩, 1, 9, some "  a 7:7  b".toList⟩ := rfl
  refine ⟨hdiagnose, rfl, fun hplaced => ?_⟩
  have hline := hplaced.line
  rw [hdiagnose] at hline
  cases hline

end Report

end StyleBundle
