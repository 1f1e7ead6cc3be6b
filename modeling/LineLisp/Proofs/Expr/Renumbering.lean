import LineLisp.Proofs.Expr.Unplaced
import LineLisp.Proofs.Token.Lines

/-!
Lines under other numbers. The number of a line is carried into the place of every token, and from
there into expressions and diagnostics, but nothing is decided by it. So a line is read alike under
all numbers: expressions and diagnostics differ only in the numbers of the lines, those in the hint
to an unclosed parenthesis included.
-/

namespace LineLisp

namespace Span

/-- The span without the numbers of its lines. -/
def unnumbered (s : Span) : Span :=
  ⟨{ s.start with line := 0 }, { s.stop with line := 0 }⟩

/-- Spans are covered by their offsets. -/
theorem unnumbered_cover (a b : Span) :
    (a.cover b).unnumbered = a.unnumbered.cover b.unnumbered := by
  unfold cover unnumbered
  split <;> split <;> rfl

end Span

/-- The token without the number of its line. -/
def Token.unnumbered (t : Token) : Token :=
  { t with span := t.span.unnumbered }

/-- The diagnostic without the number of its line. -/
def Diagnostic.unnumbered (d : Diagnostic) : Diagnostic :=
  { d with span := d.span.unnumbered }

/-- Whether two spans are in the same columns, on any lines. -/
def Span.SameColumns (a b : Span) : Prop :=
  a.unnumbered = b.unnumbered

namespace Expr

mutual

/-- The expression without the numbers of its lines. -/
def unnumbered : Expr → Expr
  | .int span value => .int span.unnumbered value
  | .symbol span name => .symbol span.unnumbered name
  | .form span elems => .form span.unnumbered (unnumberedAll elems)
  | .absent => .absent

def unnumberedAll : List Expr → List Expr
  | [] => []
  | e :: es => unnumbered e :: unnumberedAll es

end

theorem unnumberedAll_eq_map (es : List Expr) : unnumberedAll es = es.map unnumbered := by
  induction es with
  | nil => rfl
  | cons e es ih => simp [unnumberedAll, ih]

@[simp]
theorem unnumbered_int (span : Span) (value : Int64) :
    (int span value).unnumbered = .int span.unnumbered value := rfl

@[simp]
theorem unnumbered_symbol (span : Span) (name : Bytes) :
    (symbol span name).unnumbered = .symbol span.unnumbered name := rfl

@[simp]
theorem unnumbered_form (span : Span) (elems : List Expr) :
    (form span elems).unnumbered = .form span.unnumbered (elems.map unnumbered) := by
  rw [unnumbered, unnumberedAll_eq_map]

@[simp]
theorem unnumbered_absent : absent.unnumbered = .absent := rfl

theorem span_unnumbered (e : Expr) : e.unnumbered.span = e.span.unnumbered := by
  cases e with
  | form span elems =>
      rw [unnumbered_form]
      rfl
  | _ => rfl

/-- Without line numbers there are only columns left. -/
theorem SameUpTo.of_unnumbered {e e' : Expr} (h : e.unnumbered = e'.unnumbered) :
    SameUpTo Span.SameColumns e e' := by
  induction e using induct generalizing e' with
  | int span value =>
      cases e' with
      | int span' value' =>
          obtain ⟨hspan : span.SameColumns span', rfl⟩ := Expr.int.inj h
          exact .int hspan value
      | _ => simp at h
  | symbol span name =>
      cases e' with
      | symbol span' name' =>
          obtain ⟨hspan : span.SameColumns span', rfl⟩ := Expr.symbol.inj h
          exact .symbol hspan name
      | _ => simp at h
  | form span elems ih =>
      cases e' with
      | form span' elems' =>
          rw [unnumbered_form, unnumbered_form] at h
          obtain ⟨hspan : span.SameColumns span', helems⟩ := Expr.form.inj h
          rw [← List.forall₂_eq_eq_eq, List.forall₂_map_left_iff, List.forall₂_map_right_iff,
            List.forall₂_iff_zip] at helems
          refine .form hspan (List.forall₂_iff_zip.mpr ⟨helems.1, fun hzip => ?_⟩)
          exact ih _ (List.of_mem_zip hzip).1 (helems.2 hzip)
      | _ => simp at h
  | absent =>
      cases e' with
      | absent => exact .absent
      | _ => simp at h

end Expr

namespace Scan

namespace State

/-- The scanner on a line without a number. -/
def unnumbered (s : State) : State :=
  { s with line := 0, found := s.found.map Token.unnumbered }

theorem unnumbered_skip (s : State) (mode : Mode) :
    (s.skip mode).unnumbered = s.unnumbered.skip mode := rfl

theorem unnumbered_single (s : State) (kind : Token.Kind) (lexeme : Bytes) (fresh : Bool) :
    (s.single kind lexeme fresh).unnumbered = s.unnumbered.single kind lexeme fresh := rfl

theorem unnumbered_flush (s : State) : s.flush.unnumbered = s.unnumbered.flush := by
  obtain ⟨line, offset, mode, found⟩ := s
  cases mode <;> rfl

theorem unnumbered_start (s : State) (fresh : Bool) (b : UInt8) :
    (s.start fresh b).unnumbered = s.unnumbered.start fresh b := by
  simp only [start, apply_ite unnumbered, unnumbered_skip, unnumbered_single]
  rfl

theorem unnumbered_step (s : State) (b : UInt8) :
    (s.step b).unnumbered = s.unnumbered.step b := by
  have hmode : s.unnumbered.mode = s.mode := rfl
  unfold step
  rw [hmode]
  cases s.mode with
  | comment => rfl
  | gap fresh => exact s.unnumbered_start fresh b
  | word start bytes =>
      simp only [apply_ite unnumbered, unnumbered_start, unnumbered_flush, unnumbered_skip]
  | sign start byte =>
      simp only [apply_ite unnumbered, unnumbered_start, unnumbered_flush, unnumbered_skip]

theorem unnumbered_foldl (s : State) (text : Bytes) :
    (text.foldl step s).unnumbered = text.foldl step s.unnumbered := by
  induction text generalizing s with
  | nil => rfl
  | cons b rest ih => rw [List.foldl_cons, ih, unnumbered_step, List.foldl_cons]

theorem map_unnumbered_finish (s : State) :
    s.finish.map Token.unnumbered = s.unnumbered.finish := by
  unfold finish
  rw [← unnumbered_flush, List.map_reverse]
  rfl

end State

/-- The tokens of a line apart from its number. -/
theorem map_unnumbered_tokens (line : Int) (source : Bytes) :
    (tokens line source).map Token.unnumbered = tokens 0 source := by
  rw [tokens, State.map_unnumbered_finish, State.unnumbered_foldl]
  rfl

end Scan

namespace Read

def Opening.unnumbered : Opening → Opening
  | .form opened elems => .form opened.unnumbered (elems.map Expr.unnumbered)
  | .quote mark => .quote mark.unnumbered

/-- The reader on a line without a number. -/
def State.unnumbered (s : State) : State where
  pending := s.pending.map Opening.unnumbered
  done := s.done.map Expr.unnumbered
  depth := s.depth
  depth_eq := by rw [s.depth_eq, List.length_map]

theorem unnumbered_atom (t : Token) : (atom t).unnumbered = atom t.unnumbered := by
  have hlexeme : t.unnumbered.lexeme = t.lexeme := rfl
  unfold atom
  rw [hlexeme]
  cases Decimal.toInt64? t.lexeme <;> rfl

theorem unnumbered_quoted (mark : Span) (e : Expr) :
    (quoted mark e).unnumbered = quoted mark.unnumbered e.unnumbered := by
  rw [quoted, Expr.unnumbered_form, Span.unnumbered_cover, ← Expr.span_unnumbered]
  rfl

theorem unnumbered_put (done : List Expr) (e : Expr) (pending : List Opening) (depth : Nat)
    (h : depth = pending.length) :
    (put done e pending depth h).unnumbered =
      put (done.map Expr.unnumbered) e.unnumbered (pending.map Opening.unnumbered) depth
        (by rw [h, List.length_map]) := by
  induction pending generalizing e depth with
  | nil => rfl
  | cons opening outer ih =>
      cases opening with
      | form opened elems => rfl
      | quote mark =>
          simp only [put, ih, unnumbered_quoted]
          rfl

/-- What reading a token comes to, apart from the number of the line. -/
def unnumberedResult : Except Diagnostic State → Except Diagnostic State
  | .ok s => .ok s.unnumbered
  | .error d => .error d.unnumbered

theorem unnumbered_enter (limit : DepthLimit) (s : State) (t : Token) :
    enter limit s.unnumbered t.unnumbered = unnumberedResult (enter limit s t) := by
  have hdepth : limit.crossed (s.unnumbered.depth + 1) = limit.crossed (s.depth + 1) := rfl
  have hkind : t.unnumbered.kind = t.kind := rfl
  cases hcrossed : limit.crossed (s.depth + 1) with
  | some n =>
      simp only [enter, hdepth, hcrossed]
      rfl
  | none =>
      simp only [enter, hdepth, hcrossed, hkind]
      cases t.kind with
      | lparen => rfl
      | quote => rfl
      | rparen => rfl
      | _ =>
          simp only [unnumberedResult, unnumbered_put, unnumbered_atom]
          rfl

theorem unnumbered_step (limit : DepthLimit) (s : State) (t : Token) :
    step limit s.unnumbered t.unnumbered = unnumberedResult (step limit s t) := by
  obtain ⟨kind, lexeme, span⟩ := t
  cases kind with
  | rparen =>
      obtain ⟨pending, done, depth, hdepth⟩ := s
      cases pending with
      | nil => exact unnumbered_enter ..
      | cons opening outer =>
          cases opening with
          | quote mark => exact unnumbered_enter ..
          | form opened elems =>
              change Except.ok (put _ (.form (opened.unnumbered.cover span.unnumbered) _) _ _ _) =
                .ok (put _ _ _ _ _).unnumbered
              rw [unnumbered_put, Expr.unnumbered_form, Span.unnumbered_cover, List.map_reverse]
              rfl
  | _ => exact unnumbered_enter ..

theorem unnumbered_stepOne (limit : DepthLimit) (s : State) (t : Token) :
    stepOne limit s.unnumbered t.unnumbered = unnumberedResult (stepOne limit s t) := by
  have hcomplete : s.unnumbered.isComplete = s.isComplete := by
    simp [State.isComplete, State.unnumbered]
  unfold stepOne
  rw [hcomplete]
  split
  · rfl
  · exact unnumbered_step ..

theorem unnumbered_foldlM (limit : DepthLimit) (s : State) (tokens : List Token) :
    (tokens.map Token.unnumbered).foldlM (stepOne limit) s.unnumbered =
      unnumberedResult (tokens.foldlM (stepOne limit) s) := by
  induction tokens generalizing s with
  | nil => rfl
  | cons t rest ih =>
      rw [List.map_cons, List.foldlM_cons, List.foldlM_cons, unnumbered_stepOne]
      cases stepOne limit s t with
      | error d => rfl
      | ok s => exact ih s

theorem unnumbered_body (tokens : List Token) :
    Token.body (tokens.map Token.unnumbered) = (Token.body tokens).map Token.unnumbered :=
  List.takeWhile_map ..

theorem unnumbered_endSpan (tokens : List Token) :
    endSpan (tokens.map Token.unnumbered) = (endSpan tokens).unnumbered := by
  have hisEof : Token.isEof ∘ Token.unnumbered = Token.isEof := rfl
  unfold endSpan
  rw [List.find?_map, hisEof, List.getLast?_map]
  cases tokens.find? Token.isEof with
  | some eof => rfl
  | none => cases tokens.getLast? <;> rfl

/-- Without the number of its line, an expression is read without it, and a diagnostic says the same
but for the hint, which may name the line. -/
theorem one_unnumbered (limit : DepthLimit) (tokens : List Token) :
    (∃ e, one limit tokens = .ok e ∧ one limit (tokens.map Token.unnumbered) = .ok e.unnumbered) ∨
      ∃ d hint, one limit tokens = .error d ∧
        one limit (tokens.map Token.unnumbered) = .error { d.unnumbered with hint := hint } := by
  unfold one
  have hempty : State.empty.unnumbered = .empty := rfl
  rw [unnumbered_body, unnumbered_endSpan, ← hempty, unnumbered_foldlM, hempty]
  cases (Token.body tokens).foldlM (stepOne limit) .empty with
  | error d => exact .inr ⟨d, d.hint, rfl, rfl⟩
  | ok s =>
      obtain ⟨pending, done, depth, hdepth⟩ := s
      cases pending with
      | cons opening outer =>
          cases opening with
          | form opened elems => exact .inr ⟨_, _, rfl, rfl⟩
          | quote mark => exact .inr ⟨_, _, rfl, rfl⟩
      | nil =>
          simp only [bind, Except.bind, finish, unnumberedResult, State.unnumbered, List.map_nil,
            ← List.map_reverse]
          cases done.reverse with
          | nil => exact .inr ⟨_, _, rfl, rfl⟩
          | cons e rest => exact .inl ⟨e, rfl, rfl⟩

/-- A line is read alike under any two numbers. -/
theorem one_renumbered (limit : DepthLimit) (number number' : Int) (source : Bytes) :
    (∃ e e', one limit (Scan.tokens number source) = .ok e ∧
      one limit (Scan.tokens number' source) = .ok e' ∧ e.SameUpTo Span.SameColumns e') ∨
    ∃ d d', one limit (Scan.tokens number source) = .error d ∧
      one limit (Scan.tokens number' source) = .error d' ∧ d.kind = d'.kind ∧
      d.message = d'.message ∧ d.span.SameColumns d'.span ∧ d.trace = d'.trace := by
  have hfirst := one_unnumbered limit (Scan.tokens number source)
  have hsecond := one_unnumbered limit (Scan.tokens number' source)
  rw [Scan.map_unnumbered_tokens] at hfirst hsecond
  rcases hfirst with ⟨e, he, hread⟩ | ⟨d, hint, hd, hread⟩
  · rcases hsecond with ⟨e', he', hread'⟩ | ⟨d', hint', hd', hread'⟩
    · exact .inl ⟨e, e', he, he', .of_unnumbered (Except.ok.inj (hread.symm.trans hread'))⟩
    · cases hread.symm.trans hread'
  · rcases hsecond with ⟨e', he', hread'⟩ | ⟨d', hint', hd', hread'⟩
    · cases hread.symm.trans hread'
    · obtain ⟨hkind, hmessage, hspan, -, htrace⟩ :=
        Diagnostic.mk.inj (Except.error.inj (hread.symm.trans hread'))
      exact .inr ⟨d, d', hd, hd', hkind, hmessage, hspan, htrace⟩

end Read

end LineLisp
