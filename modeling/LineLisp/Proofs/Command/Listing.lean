import LineLisp.Proofs.Expr.RoundTrip
import LineLisp.Proofs.Expr.Tree
import LineLisp.Proofs.Line.Split
import LineLisp.Proofs.Session.Diagnostics
import LineLisp.Proofs.Session.Processing
import LineLisp.Proofs.Session.Transcript
import Mathlib.Data.List.Forall2
import Mathlib.Tactic.NthRewrite

/-!
Listing a file and running it. A file that is listed is cut as a whole, and one that is run is cut
as it is read. The lines may differ in a last carriage return, and an empty file in an empty line;
neither holds a token or moves a later line. So both see the same tokens under the same numbers, and
fail to read the same lines.

What a listing has found it shows in one document, or not at all: an expression that is higher than
4998 levels makes the document too deep, and then no line that fails is shown either.
-/

namespace LineLisp

/-- What a diagnostic says, apart from where and inside of which calls. -/
def Diagnostic.said (d : Diagnostic) : Diagnostic.Kind × Bytes × Bytes :=
  (d.kind, d.message, d.hint)

namespace Line

/-- Whether two lines have the same tokens, wherever they stand. -/
def SameTokens (line line' : Bytes) : Prop :=
  ∀ number, Token.body (Scan.tokens number line) = Token.body (Scan.tokens number line')

theorem SameTokens.isBlank {line line' : Bytes} (h : SameTokens line line') :
    isBlank line = isBlank line' := by
  unfold Line.isBlank
  rw [h 1]

theorem sameTokens_dropReturn (line : Bytes) : SameTokens line (dropReturn line) := by
  intro number
  rcases dropReturn_cases line with hsame | hreturn
  · rw [hsame]
  · nth_rewrite 1 [hreturn]
    exact Scan.body_tokens_snoc_blank number _ (by decide)

/-- The lines of a text that is taken as a whole are those that are read, up to what holds no
tokens. -/
theorem whole_cases {text : Bytes} (h : ∀ line ∈ Bytes.split 0x0A text, line.length < tooLong) :
    (read text none).stopped = none ∧
      (whole text = [] ∧ (read text none).lines = [[]] ∨
        List.Forall₂ SameTokens (whole text) (read text none).lines) := by
  obtain ⟨lines, rest, hcut⟩ := exists_isCut text
  rw [hcut.split_eq] at h
  have hrefl : List.Forall₂ SameTokens (lines.map dropReturn) (lines.map dropReturn) :=
    List.forall₂_same.mpr fun _ _ _ => rfl
  rw [hcut.read_eq h, hcut.whole_eq]
  refine ⟨rfl, ?_⟩
  by_cases hrest : rest.isEmpty
  · simp only [hrest, if_true]
    by_cases hempty : lines.map dropReturn = [[]]
    · exact .inl ⟨if_pos hempty, hempty⟩
    · rw [if_neg hempty]
      exact .inr hrefl
  · simp only [hrest, if_false, Bool.false_eq_true, List.map_append]
    exact .inr (List.rel_append hrefl (.cons (sameTokens_dropReturn rest) .nil))

end Line

namespace Session

/-- Whether two rows have the same number and the same tokens. -/
def SameRow (row row' : Bytes × Nat) : Prop :=
  row.2 = row'.2 ∧ Line.SameTokens row.1 row'.1

theorem filed_sameRow {lines lines' : List Bytes} (h : List.Forall₂ Line.SameTokens lines lines') :
    List.Forall₂ SameRow (filed lines) (filed lines') := by
  unfold filed Command.numbered
  generalize 1 = number
  induction h generalizing number with
  | nil => exact .nil
  | @cons line line' rest rest' hline _ ih =>
      simp only [List.zipIdx_cons, List.filter_cons, hline.isBlank]
      split
      · exact .cons ⟨rfl, hline⟩ (ih (number + 1))
      · exact ih (number + 1)

/-- The lines that fail to be read, with their numbers and what is said of them. -/
def Unread (limit : DepthLimit) (rows : List (Bytes × Nat)) (number : Nat)
    (said : Diagnostic.Kind × Bytes × Bytes) : Prop :=
  ∃ row ∈ rows, row.2 = number ∧
    ∃ d, Read.one limit (Scan.tokens row.2 row.1) = .error d ∧ d.said = said

theorem unread_of_sameRow {limit : DepthLimit} {rows rows' : List (Bytes × Nat)}
    (h : List.Forall₂ SameRow rows rows') {number : Nat}
    {said : Diagnostic.Kind × Bytes × Bytes} :
    Unread limit rows number said ↔ Unread limit rows' number said := by
  unfold Unread
  induction h with
  | nil => rfl
  | @cons row row' rest rest' hrow _ ih =>
      obtain ⟨line, n⟩ := row
      obtain ⟨line', n'⟩ := row'
      obtain ⟨rfl, htokens⟩ : n = n' ∧ Line.SameTokens line line' := hrow
      simp only [List.exists_mem_cons_iff, ih]
      refine or_congr_left (and_congr_right fun _ => ?_)
      rcases Read.one_of_body limit (htokens n) with ⟨e, he, he'⟩ | ⟨d, span, hd, hd'⟩
      · simp [he, he']
      · simp [hd, hd', Diagnostic.said]

/-- Whatever a session has done, a line that cannot be read has the diagnostic for its result. -/
theorem mem_entries_of_unread {s : Session} {rows : List (Bytes × Nat)} {line : Bytes}
    {number : Nat} {d : Diagnostic} (hrow : (line, number) ∈ rows)
    (hd : Read.one s.options.limit (Scan.tokens number line) = .error d) :
    ⟨line, number, .failure d⟩ ∈ s.entries rows := by
  induction rows generalizing s with
  | nil => cases hrow
  | cons row rest ih =>
      rw [entries, List.mem_cons]
      rcases List.mem_cons.mp hrow with rfl | hrest
      · simp [answerAt, hd]
      · refine .inr (ih hrest ?_)
        rwa [answerAt_options]

/-- A line of a file that cannot be read is reported when the file is run. -/
theorem mem_emissions_of_unread {s : Session} {text line : Bytes} {broken : Option Bytes}
    {number : Nat} {d : Diagnostic} (hrow : (line, number) ∈ filed (Line.read text broken).lines)
    (hd : Read.one s.options.limit (Scan.tokens number line) = .error d) :
    ⟨.error, utf8 "error evaluating line " ++ Decimal.ofNat number ++ utf8 ": "
      ++ Blank.trim line ++ utf8 "\n  " ++ d.text ++ utf8 "\n"⟩ ∈
        (s.processFile text broken).emissions := by
  rw [(s.processFile_eq text broken).2.1, List.mem_flatMap]
  exact ⟨_, mem_entries_of_unread hrow hd, by simp [Entry.emissions, report]⟩

end Session

namespace Command

open Session (filed Unread)

section listing

variable {limit : DepthLimit} {rows : List (Bytes × Nat)}

/-- The expressions that numbered lines are read as, one from a line. -/
def exprsOf (limit : DepthLimit) (rows : List (Bytes × Nat)) : List Expr :=
  rows.filterMap fun (line, number) => (Read.one limit (Scan.tokens number line)).toOption

/-- The diagnostics of the lines that cannot be read. -/
def complaintsOf (limit : DepthLimit) (rows : List (Bytes × Nat)) : List Diagnostic :=
  rows.filterMap fun (line, number) =>
    match Read.one limit (Scan.tokens number line) with
    | .ok _ => none
    | .error d => some d

/-- The document that shows expressions and diagnostics. -/
def listingJson (exprs : List Expr) (complaints : List Diagnostic) : Json :=
  .sorted [("exprs", .list (exprs.map Expr.tree)),
    ("diagnostics", .list (complaints.map diagnosticJson))]

theorem mem_exprsOf {e : Expr} :
    e ∈ exprsOf limit rows ↔
      ∃ row ∈ rows, Read.one limit (Scan.tokens row.2 row.1) = .ok e := by
  refine List.mem_filterMap.trans (exists_congr fun (line, number) => and_congr_right fun _ => ?_)
  cases hread : Read.one limit (Scan.tokens number line) <;> simp [hread, Except.toOption]

theorem mem_complaintsOf {d : Diagnostic} :
    d ∈ complaintsOf limit rows ↔
      ∃ row ∈ rows, Read.one limit (Scan.tokens row.2 row.1) = .error d := by
  refine List.mem_filterMap.trans (exists_congr fun (line, number) => and_congr_right fun _ => ?_)
  cases hread : Read.one limit (Scan.tokens number line) <;> simp [hread]

theorem isWhole_of_mem_exprsOf {e : Expr} (h : e ∈ exprsOf limit rows) : e.isWhole := by
  obtain ⟨row, -, hread⟩ := mem_exprsOf.mp h
  have hline : Read.one limit (Scan.tokensOf false row.2 row.1) = .ok e := hread
  exact (Read.one_sound hline).whole

/-- A diagnostic of a listed line carries the number of the line. -/
theorem exists_complaint_iff_unread {number : Nat} {said : Diagnostic.Kind × Bytes × Bytes} :
    (∃ d ∈ complaintsOf limit rows, d.span.start.line = (number : Int) ∧ d.said = said) ↔
      Unread limit rows number said := by
  constructor
  · rintro ⟨d, hd, hnumber, hsaid⟩
    obtain ⟨row, hrow, hread⟩ := mem_complaintsOf.mp hd
    obtain ⟨-, first, last, hspan, -⟩ := Read.one_error_onLine hread
    rw [hspan] at hnumber
    exact ⟨row, hrow, Int.ofNat.inj hnumber, d, hread, hsaid⟩
  · rintro ⟨row, hrow, rfl, d, hread, hsaid⟩
    obtain ⟨-, first, last, hspan, -⟩ := Read.one_error_onLine hread
    exact ⟨d, mem_complaintsOf.mpr ⟨row, hrow, hread⟩, by rw [hspan]; rfl, hsaid⟩

theorem depth_diagnosticJson_le (d : Diagnostic) {n : Nat} : (diagnosticJson d).depth ≤ n + 1 := by
  rw [diagnosticJson, Json.depth_sorted_le_iff]
  split <;> simp [Json.depth]

/-- The document is too deep to be written just where an expression is higher than 4998 levels: it
has two levels of its own, and the tree of an expression takes two for each level and one more. -/
theorem depth_listingJson_le_iff {exprs : List Expr} {complaints : List Diagnostic}
    (h : ∀ e ∈ exprs, e.isWhole) :
    (listingJson exprs complaints).depth ≤ Json.maxDepth ↔ ∀ e ∈ exprs, e.height ≤ 4998 := by
  have hexprs : (Json.list (exprs.map Expr.tree)).depth ≤ 9998 + 1 ↔
      ∀ e ∈ exprs, e.height ≤ 4998 := by
    rw [Json.depth_list_le_iff, List.forall_mem_map]
    refine forall₂_congr fun e he => ?_
    rw [Expr.depth_tree_le_iff (h e he)]
    omega
  have hcomplaints : (Json.list (complaints.map diagnosticJson)).depth ≤ 9998 + 1 := by
    rw [Json.depth_list_le_iff, List.forall_mem_map]
    exact fun d _ => depth_diagnosticJson_le d
  change _ ≤ 9999 + 1 ↔ _
  rw [listingJson, Json.depth_sorted_le_iff]
  simp [hexprs, hcomplaints]

variable {files : Files} {path content : Bytes}

/-- A blank line has no tokens, whatever its number. -/
theorem body_tokens_of_blank {line : Bytes} (h : Line.isBlank line) (number : Int) :
    Token.body (Scan.tokens number line) = [] := by
  rw [Line.isBlank, List.isEmpty_iff] at h
  have htokens := Scan.map_body_tokens number line
  rw [← Scan.map_body_tokens 1, h] at htokens
  exact List.map_eq_nil_iff.mp htokens

/-- The tokens of numbered lines. -/
def tokensOfRows (rows : List (Bytes × Nat)) : List Token :=
  rows.flatMap fun (line, number) => Token.body (Scan.tokens number line)

theorem tokensOfRows_filter (rows : List (Bytes × Nat)) :
    tokensOfRows (rows.filter fun (line, _) => !Line.isBlank line) = tokensOfRows rows := by
  induction rows with
  | nil => rfl
  | cons row rest ih =>
      obtain ⟨line, number⟩ := row
      have htail : tokensOfRows ((line, number) :: rest) =
          Token.body (Scan.tokens number line) ++ tokensOfRows rest := List.flatMap_cons
      cases hblank : Line.isBlank line with
      | true => simp [hblank, htail, ih, body_tokens_of_blank hblank]
      | false =>
          rw [List.filter_cons_of_pos (by simp [hblank]), htail, ← ih]
          exact List.flatMap_cons

theorem depth_tokensJson_le (tokens : List Token) :
    (Json.object [("tokens", .list (tokens.map tokenJson))]).depth ≤ Json.maxDepth := by
  have htoken : ∀ t, (tokenJson t).depth ≤ 9997 + 1 := by
    intro t
    rw [tokenJson, Json.depth_object_le_iff]
    simp [Json.depth]
  change _ ≤ 9997 + 1 + 1 + 1
  rw [Json.depth_object_le_iff, List.forall_mem_singleton, Json.depth_list_le_iff,
    List.forall_mem_map]
  exact fun t _ => htoken t

/-- The tokens of a file are those of its lines that are not blank. -/
theorem listTokens_eq (hfile : files path = .file content) :
    let tokens := tokensOfRows (filed (Line.whole content))
    listTokens files false path = ⟨[⟨.output, tokens.flatMap tokenLine⟩], none⟩ ∧
      listTokens files true path =
        ⟨[⟨.output, (Json.object [("tokens", .list (tokens.map tokenJson))]).render .indented
            ++ utf8 "\n"⟩], none⟩ := by
  intro tokens
  have htokens : (numbered (Line.whole content)).flatMap
      (fun (line, n) => Token.body (Scan.tokens n line)) = tokens :=
    (tokensOfRows_filter _).symm
  simp only [listTokens, readWhole, hfile, htokens, document, depth_tokensJson_le, if_true,
    Bool.false_eq_true, if_false, and_self]

theorem showTrees_eq (hfile : files path = .file content) (limit : DepthLimit) :
    let exprs := exprsOf limit (filed (Line.whole content))
    let complaints := complaintsOf limit (filed (Line.whole content))
    showTrees files limit path = document (listingJson exprs complaints)
      (if complaints.isEmpty then none
        else some (Decimal.ofNat complaints.length ++ utf8 " line(s) failed to parse")) := by
  intro exprs complaints
  have hexprs : (readEach limit (Line.whole content)).filterMap tree? = exprs.map Expr.tree := by
    unfold readEach exprs exprsOf
    rw [List.filterMap_map, List.map_filterMap]
    refine List.filterMap_congr fun (line, number) _ => ?_
    cases hread : Read.one limit (Scan.tokens number line) <;>
      simp [hread, tree?, Except.toOption]
  have hcomplaints : (readEach limit (Line.whole content)).filterMap complaint? =
      complaints.map diagnosticJson := by
    unfold readEach complaints complaintsOf
    rw [List.filterMap_map, List.map_filterMap]
    refine List.filterMap_congr fun (line, number) _ => ?_
    cases hread : Read.one limit (Scan.tokens number line) <;> simp [hread, complaint?]
  simp only [showTrees, readWhole, hfile, hexprs, hcomplaints, List.isEmpty_map, List.length_map]
  rfl

/-- Where no expression is too high for the document, all that was read is shown. -/
theorem showTrees_of_height (hfile : files path = .file content) :
    let exprs := exprsOf limit (filed (Line.whole content))
    let complaints := complaintsOf limit (filed (Line.whole content))
    (∀ e ∈ exprs, e.height ≤ 4998) → showTrees files limit path =
      ⟨[⟨.output, (listingJson exprs complaints).render .indented ++ utf8 "\n"⟩],
        if complaints.isEmpty then none
        else some (Decimal.ofNat complaints.length ++ utf8 " line(s) failed to parse")⟩ := by
  intro exprs complaints hheight
  have hdepth : (listingJson exprs complaints).depth ≤ Json.maxDepth :=
    (depth_listingJson_le_iff fun _ he => isWhole_of_mem_exprsOf he).mpr hheight
  rw [showTrees_eq hfile, document, if_pos hdepth]

/-- Where an expression is too high for the document, nothing is shown. -/
theorem showTrees_of_tooHigh (hfile : files path = .file content) {e : Expr}
    (he : e ∈ exprsOf limit (filed (Line.whole content))) (hheight : 4998 < e.height) :
    ∃ why, showTrees files limit path = ⟨[], some (utf8 "JSON encoding failed: " ++ why)⟩ := by
  have hdepth : ¬ (listingJson (exprsOf limit (filed (Line.whole content)))
      (complaintsOf limit (filed (Line.whole content)))).depth ≤ Json.maxDepth := by
    rw [depth_listingJson_le_iff fun _ he => isWhole_of_mem_exprsOf he]
    exact fun hall => absurd (hall e he) (Nat.not_le.mpr hheight)
  rw [showTrees_eq hfile, document, if_neg hdepth]
  exact ⟨utf8 "exceeded max depth", rfl⟩

end listing

/-- A file whose lines are all short enough is seen alike by listing it and by running it. Its
tokens are listed as those of the lines that run. Its trees are shown unless one of them is higher
than 4998 levels, and where they are shown, a line is reported as unreadable just if it cannot be
read when the file is run, with the same kind, message and hint. The run reports such a line in any
case and goes on to the end. -/
theorem listing_sees_what_runs (content : Bytes)
    (h : ∀ line ∈ Bytes.split 0x0A content, line.length < Line.tooLong) :
    let scanned (row : Bytes × Nat) := (row.2, Token.body (Scan.tokens row.2 row.1))
    let listed := filed (Line.whole content)
    let ran := filed (Line.read content none).lines
    (Line.read content none).stopped = none ∧ listed.map scanned = ran.map scanned ∧
      ∀ (files : Files) (path : Bytes) (s : Session), files path = .file content →
        let limit := s.options.limit
        let tokens := tokensOfRows ran
        let exprs := exprsOf limit listed
        let complaints := complaintsOf limit listed
        listTokens files false path = ⟨[⟨.output, tokens.flatMap tokenLine⟩], none⟩ ∧
        listTokens files true path =
          ⟨[⟨.output, (Json.object [("tokens", .list (tokens.map tokenJson))]).render .indented
              ++ utf8 "\n"⟩], none⟩ ∧
        ((∀ e ∈ exprs, e.height ≤ 4998) → showTrees files limit path =
          ⟨[⟨.output, (listingJson exprs complaints).render .indented ++ utf8 "\n"⟩],
            if complaints.isEmpty then none
            else some (Decimal.ofNat complaints.length ++ utf8 " line(s) failed to parse")⟩) ∧
        ((∃ e ∈ exprs, 4998 < e.height) →
          ∃ why, showTrees files limit path = ⟨[], some (utf8 "JSON encoding failed: " ++ why)⟩) ∧
        (∀ (number : Nat) said,
          (∃ d ∈ complaints, d.span.start.line = number ∧ d.said = said) ↔
            Unread limit ran number said) ∧
        (∀ line number d, (line, number) ∈ ran →
          Read.one limit (Scan.tokens number line) = .error d →
            ⟨.error, utf8 "error evaluating line " ++ Decimal.ofNat number ++ utf8 ": "
              ++ Blank.trim line ++ utf8 "\n  " ++ d.text ++ utf8 "\n"⟩ ∈
              (s.processFile content none).emissions) ∧
        (limit ≠ none → ∀ entry ∈ s.entries ran, entry.result ≠ .unfinished) := by
  intro scanned listed ran
  obtain ⟨hstopped, hlines⟩ := Line.whole_cases h
  have hrows : List.Forall₂ Session.SameRow listed ran := by
    unfold listed ran
    rcases hlines with ⟨hwhole, hread⟩ | hsame
    · rw [hwhole, hread]
      exact .nil
    · exact Session.filed_sameRow hsame
  have hscanned : listed.map scanned = ran.map scanned := by
    rw [← List.forall₂_eq_eq_eq, List.forall₂_map_left_iff, List.forall₂_map_right_iff]
    refine hrows.imp fun row row' hrow => ?_
    obtain ⟨hnumber, htokens⟩ := hrow
    simp only [scanned, hnumber, htokens row'.2]
  have htokens : tokensOfRows listed = tokensOfRows ran := by
    have hparts := congrArg (List.flatMap (·.2)) hscanned
    rwa [List.flatMap_map, List.flatMap_map] at hparts
  refine ⟨hstopped, hscanned, fun files path s hfile => ?_⟩
  intro limit tokens exprs complaints
  have hlisted := listTokens_eq hfile
  rw [htokens] at hlisted
  refine ⟨hlisted.1, hlisted.2, showTrees_of_height hfile, ?_, ?_, ?_, ?_⟩
  · rintro ⟨e, he, hheight⟩
    exact showTrees_of_tooHigh hfile he hheight
  · intro number said
    rw [exists_complaint_iff_unread, Session.unread_of_sameRow hrows]
  · intro line number d hrow hd
    exact Session.mem_emissions_of_unread hrow hd
  · intro hlimit entry hentry
    exact Session.result_ne_unfinished hlimit hentry

/-- Lone carriage returns, a blank line and an end without a line feed: an open form, a stray
parenthesis and a form, with other lines cut for listing than for running. -/
theorem listing_sees_what_runs_returns :
    let content := utf8 "(f\r\r\n\r\n)\n(g)\r"
    let s := Session.new .standard
    (∀ line ∈ Bytes.split 0x0A content, line.length < Line.tooLong) ∧
      Line.whole content ≠ (Line.read content none).lines ∧
      (filed (Line.whole content)).map (·.2) = [1, 3, 4] ∧
      (exprsOf s.options.limit (filed (Line.whole content))).map Expr.height = [2] ∧
      (showTrees (fun _ => .file content) s.options.limit []).failure =
        some (utf8 "2 line(s) failed to parse") ∧
      Unread s.options.limit (filed (Line.read content none).lines) 3
        (.syntaxError, utf8 "parenthesis in wrong position", utf8 "remove the unmatched ')'") ∧
      ⟨.error, utf8 "error evaluating line 3: )\n  [E1001] SyntaxError at 3:1: "
        ++ utf8 "parenthesis in wrong position (hint: remove the unmatched ')')\n"⟩ ∈
          (s.processFile content none).emissions := by
  intro content s
  have h : ∀ line ∈ Bytes.split 0x0A content, line.length < Line.tooLong := by decide
  obtain ⟨-, -, hseen⟩ := listing_sees_what_runs content h
  obtain ⟨-, -, hshown, -, hunread, hreported, -⟩ := hseen (fun _ => .file content) [] s rfl
  have hheights : (exprsOf s.options.limit (filed (Line.whole content))).map Expr.height = [2] := by
    decide
  have hlow : ∀ e ∈ exprsOf s.options.limit (filed (Line.whole content)), e.height ≤ 4998 := by
    intro e he
    have hheight := List.mem_map_of_mem (f := Expr.height) he
    rw [hheights, List.mem_singleton] at hheight
    omega
  let opened : Diagnostic := ⟨.syntaxError, utf8 "incomplete expression", .of 1 3 3,
    utf8 "missing ')' for '(' at 1:1", []⟩
  let stray : Diagnostic := ⟨.syntaxError, utf8 "parenthesis in wrong position", .of 3 0 1,
    utf8 "remove the unmatched ')'", []⟩
  have hcomplaints : complaintsOf s.options.limit (filed (Line.whole content)) =
      [opened, stray] := by
    decide
  have hfailure : (showTrees (fun _ => .file content) s.options.limit []).failure =
      some (utf8 "2 line(s) failed to parse") := by
    rw [hshown hlow, hcomplaints]
    decide
  refine ⟨h, by decide, by decide, hheights, hfailure, ?_, ?_⟩
  · rw [← hunread, hcomplaints]
    exact ⟨stray, by simp, rfl, rfl⟩
  · have hstray := hreported (utf8 ")") 3 stray (by decide) rfl
    have htext : utf8 "error evaluating line " ++ Decimal.ofNat 3 ++ utf8 ": "
        ++ Blank.trim (utf8 ")") ++ utf8 "\n  " ++ stray.text ++ utf8 "\n" =
          utf8 "error evaluating line 3: )\n  [E1001] SyntaxError at 3:1: "
            ++ utf8 "parenthesis in wrong position (hint: remove the unmatched ')')\n" := by
      decide
    rwa [htext] at hstray

section deep

/-- Forms inside each other, the innermost empty. -/
def nested : Nat → Expr
  | 0 => .form .zero []
  | n + 1 => .form .zero [nested n]

theorem nested_text (n : Nat) :
    (nested n).text = List.replicate (n + 1) 0x28 ++ List.replicate (n + 1) 0x29 := by
  induction n with
  | zero => decide
  | succ n ih =>
      have hclose : List.replicate (n + 1 + 1) (0x29 : UInt8) =
          List.replicate (n + 1) 0x29 ++ [0x29] := List.replicate_succ'
      rw [nested, Expr.text_form, List.map_singleton, Bytes.join, List.intercalate_singleton, ih,
        hclose, List.append_assoc]
      rfl

theorem nested_height (n : Nat) : (nested n).height = n + 1 := by
  induction n with
  | zero => rfl
  | succ n ih => simp [nested, Expr.height, Expr.heightAll, ih]

theorem nested_sound (n : Nat) : (nested n).Sound := by
  induction n with
  | zero => exact Expr.sound_form_iff.mpr (by simp)
  | succ n ih => exact Expr.sound_form_iff.mpr (by simpa using ih)

theorem mem_nested_text {n : Nat} {b : UInt8} (h : b ∈ (nested n).text) : b = 0x28 ∨ b = 0x29 := by
  rw [nested_text, List.mem_append] at h
  exact h.imp List.eq_of_mem_replicate List.eq_of_mem_replicate

/-- A line that can be read is not blank. -/
theorem isBlank_of_read {limit : DepthLimit} {line : Bytes} {e : Expr}
    (h : Read.one limit (Scan.tokens 1 line) = .ok e) : Line.isBlank line = false := by
  obtain ⟨d, htokens, -⟩ := Read.one_eq_ok_iff.mp h
  obtain ⟨t, rest, hcons, -⟩ := d.tokens_eq_cons
  rw [Line.isBlank, ← htokens, hcons]
  rfl

/-- A deep line and one that cannot be read. -/
def deepLines (n : Nat) : List Bytes :=
  [(nested n).text, utf8 ")"]

theorem ended_deepLines (n : Nat) :
    Line.ended (deepLines n) = (nested n).text ++ utf8 "\n)\n" := by
  simp only [deepLines, Line.ended, List.flatMap_cons, List.flatMap_nil, List.append_assoc]
  rfl

variable {n : Nat}

theorem deepLines_fit (hlow : n < 10000) : ∀ line ∈ deepLines n,
    0x0A ∉ line ∧ line.getLast? ≠ some 0x0D ∧ line.length < Line.tooLong := by
  rw [deepLines, List.forall_mem_cons, List.forall_mem_singleton]
  refine ⟨⟨fun hfeed => ?_, fun hreturn => ?_, ?_⟩, by decide⟩
  · exact absurd (mem_nested_text hfeed) (by decide)
  · exact absurd (mem_nested_text (List.mem_of_getLast? hreturn)) (by decide)
  · rw [nested_text, List.length_append, List.length_replicate, List.length_replicate,
      Line.tooLong]
    omega

/-- The deep line is read as an expression of that many levels. -/
theorem exists_read_nested (hlow : n < 10000) (number : Int) :
    ∃ e, Read.one .standard (Scan.tokens number (nested n).text) = .ok e ∧ e.height = n + 1 := by
  have hlimit : DepthLimit.standard.crossed (nested n).height = none := by
    rw [nested_height]
    exact if_neg (Nat.not_lt.mpr hlow)
  obtain ⟨e, hread, hsame⟩ := (nested_sound n).exists_read hlimit number
  exact ⟨e, hread, by rw [← Expr.height_eq_of_same hsame, nested_height]⟩

theorem filed_deepLines (hlow : n < 10000) :
    filed (deepLines n) = [((nested n).text, 1), (utf8 ")", 2)] := by
  obtain ⟨e, hread, -⟩ := exists_read_nested hlow 1
  have hblank : Line.isBlank (utf8 ")") = false := by decide
  simp [filed, numbered, deepLines, isBlank_of_read hread, hblank]

/-- Behind a line that is too high for the document, a line that cannot be read is not shown,
although the run reports it. -/
theorem deep_line_hides (hhigh : 4998 ≤ n) (hlow : n < 10000) :
    let content := (nested n).text ++ utf8 "\n)\n"
    let s := Session.new .standard
    (∀ line ∈ Bytes.split 0x0A content, line.length < Line.tooLong) ∧
      (∀ path, ∃ why, showTrees (fun _ => .file content) s.options.limit path =
        ⟨[], some (utf8 "JSON encoding failed: " ++ why)⟩) ∧
      ∃ d, Read.one s.options.limit (Scan.tokens 2 (utf8 ")")) = .error d ∧
        ⟨.error, utf8 "error evaluating line 2: )\n  " ++ d.text ++ utf8 "\n"⟩ ∈
          (s.processFile content none).emissions := by
  intro content s
  have hfit := deepLines_fit hlow
  have hcontent : content = Line.ended (deepLines n) := (ended_deepLines n).symm
  have hwhole : Line.whole content = deepLines n := by
    rw [hcontent]
    exact Line.whole_ended (fun line hline => ⟨(hfit line hline).1, (hfit line hline).2.1⟩)
      (by simp [deepLines])
  have hread : (Line.read content none).lines = deepLines n := by
    rw [hcontent, Line.read_ended hfit]
  obtain ⟨d, hd⟩ : ∃ d, Read.one s.options.limit (Scan.tokens 2 (utf8 ")")) = .error d := ⟨_, rfl⟩
  refine ⟨?_, fun path => ?_, d, hd, ?_⟩
  · have hcut : Line.IsCut content (deepLines n) [] :=
      ⟨by rw [hcontent, List.append_nil], fun line hline => (hfit line hline).1, by simp⟩
    rw [hcut.split_eq, List.forall_mem_append, List.forall_mem_singleton]
    exact ⟨fun line hline => (hfit line hline).2.2, by decide⟩
  · obtain ⟨e, he, hheight⟩ := exists_read_nested hlow 1
    have hmem : e ∈ exprsOf s.options.limit (filed (Line.whole content)) := by
      rw [hwhole, filed_deepLines hlow]
      exact mem_exprsOf.mpr ⟨_, List.mem_cons_self, he⟩
    exact showTrees_of_tooHigh rfl hmem (by omega)
  · have hrow : (utf8 ")", 2) ∈ filed (Line.read content none).lines := by
      rw [hread, filed_deepLines hlow]
      exact List.mem_cons_of_mem _ (List.mem_singleton_self _)
    have hreport := Session.mem_emissions_of_unread hrow hd
    have hstart : utf8 "error evaluating line " ++ Decimal.ofNat 2 ++ utf8 ": "
        ++ Blank.trim (utf8 ")") ++ utf8 "\n  " = utf8 "error evaluating line 2: )\n  " := by
      decide
    rwa [hstart] at hreport

/-- Where a form of 5000 levels stands in front of it, an unreadable line is reported by running
the file, and not by listing it. -/
theorem listing_hides_behind_deep_line :
    let content := List.replicate 5000 0x28 ++ List.replicate 5000 0x29 ++ utf8 "\n)\n"
    let s := Session.new .standard
    (∀ line ∈ Bytes.split 0x0A content, line.length < Line.tooLong) ∧
      (∀ path, ∃ why, showTrees (fun _ => .file content) s.options.limit path =
        ⟨[], some (utf8 "JSON encoding failed: " ++ why)⟩) ∧
      ∃ d, Read.one s.options.limit (Scan.tokens 2 (utf8 ")")) = .error d ∧
        ⟨.error, utf8 "error evaluating line 2: )\n  " ++ d.text ++ utf8 "\n"⟩ ∈
          (s.processFile content none).emissions := by
  have h := deep_line_hides (show 4998 ≤ 4999 by decide) (by decide)
  rwa [nested_text] at h

end deep

end Command

end LineLisp
