import LineLisp.Proofs.Eval.Sound
import LineLisp.Proofs.Expr.Parts
import LineLisp.Proofs.Scope.Each

/-!
Where failures come from. What is evaluated was read from the latest line, or is in the body of a
function that was read from this line or an earlier one. A body is evaluated inside a call only, so
a failure without active calls is on the latest line, and any other one has a trace.
-/

namespace LineLisp

/-- Whether a span lies in one of the given lines; the first of them has number one. -/
def Span.InLines (lines : List Bytes) (span : Span) : Prop :=
  ∃ (j : Nat) (text : Bytes) (first last : Nat), lines[j]? = some text ∧
    span = .of (j + 1) first last ∧ first ≤ last ∧ last ≤ text.length

theorem Span.InLines.append {lines : List Bytes} {span : Span} (h : span.InLines lines)
    (more : List Bytes) : span.InLines (lines ++ more) := by
  obtain ⟨j, text, first, last, htext, hspan⟩ := h
  refine ⟨j, text, first, last, ?_, hspan⟩
  have hj : j < lines.length := (List.getElem?_eq_some_iff.mp htext).1
  rw [List.getElem?_append_left hj, htext]

/-- Whether a function was read from the given lines, its body at least. -/
def Function.FromLines (lines : List Bytes) (f : Function) : Prop :=
  ∀ e ∈ f.body, ∀ x ∈ e.parts, x.span.InLines lines

theorem Function.FromLines.append {lines : List Bytes} {f : Function} (h : f.FromLines lines)
    (more : List Bytes) : f.FromLines (lines ++ more) := by
  intro e he x hx
  exact (h e he x hx).append more

/-- Whether every function in a scope was read from the given lines. -/
def Scope.FromLines (lines : List Bytes) (s : Scope) : Prop :=
  s.Each (fun _ _ => True) fun _ f => f.FromLines lines

theorem Scope.FromLines.append {lines : List Bytes} {s : Scope} (h : s.FromLines lines)
    (more : List Bytes) : s.FromLines (lines ++ more) :=
  Scope.Each.imp h (fun _ _ => id) fun _ _ hf => hf.append more

theorem Trace.runsFrom_ne_nil (done : List (Bytes × Nat)) (name : Bytes) (n : Nat)
    (rest : List Bytes) : runsFrom done name n rest ≠ [] := by
  induction rest generalizing done name n with
  | nil => simp [runsFrom]
  | cons next rest ih =>
      unfold runsFrom
      split
      · exact ih done name (n + 1)
      · exact ih ((name, n) :: done) next 1

/-- A trace of calls is not shortened to nothing. -/
theorem Trace.shorten_ne_nil {calls : List Bytes} (h : calls ≠ []) : shorten calls ≠ [] := by
  obtain ⟨name, rest, rfl⟩ := List.exists_cons_of_ne_nil h
  have hruns := runsFrom_ne_nil [] name 1 rest
  simp only [shorten]
  split
  · simp
  · simpa [runs] using hruns

namespace Eval

/-- Whether a failure at a span may arise under active calls while the last of the given lines is
evaluated. -/
structure Traced (lines : List Bytes) (calls : List Bytes) (span : Span) : Prop where
  inLines : span.InLines lines
  latest : calls = [] → span.start.line = lines.length

/-- Whether a failure may arise at every part of an expression. -/
def AllTraced (lines : List Bytes) (calls : List Bytes) (e : Expr) : Prop :=
  ∀ x ∈ e.parts, Traced lines calls x.span

/-- The contract of evaluation while the last of the given lines is evaluated. -/
def provenance (lines : List Bytes) : Contract where
  scope := Scope.FromLines lines
  value _ := True
  function := Function.FromLines lines
  failure f := Traced lines f.calls f.span
  unfinished := True

theorem provenance_sustained (lines : List Bytes) {inner : Self} (calls : List Bytes)
    (hinner : ∀ calls e, AllTraced lines calls e →
      Run.Keeps (provenance lines) (fun _ => True) (inner calls e)) :
    (provenance lines).Sustained inner calls (AllTraced lines calls) where
  elem hform he x hx := hform x (Expr.mem_parts_form.mpr (.inr ⟨_, he, hx⟩))
  eval he := hinner calls _ he
  data _ := trivial
  int _ := trivial
  bool _ := trivial
  nil := trivial
  list _ := trivial
  failure _ he := he _ (Expr.self_mem_parts _)
  value _ _ := trivial
  function hs hf := Scope.Each.function hs hf
  assign _ _ hs := Scope.Each.assign hs trivial
  define hform _ _ hs := by
    apply Scope.Each.define hs
    intro e he x hx
    refine (hform x (Expr.mem_parts_form.mpr (.inr ⟨e, ?_, hx⟩))).inLines
    exact List.mem_cons_of_mem _ (List.mem_cons_of_mem _ (List.mem_cons_of_mem _ he))
  call hf _ _ := Run.Keeps.inside fun s hs => by
    refine ⟨provenance lines, ?_, Scope.Each.enter hs (arguments_each fun _ _ _ _ => trivial),
      fun _ => Scope.Each.leave, fun _ => id, id⟩
    -- Under a call the body may stand on any line.
    apply body_keeps _ trivial
    intro e he
    apply hinner
    intro x hx
    exact ⟨hf e he x hx, by simp⟩

theorem eval_traced (lines : List Bytes) (o : Options) (fuel depth : Nat) (calls : List Bytes)
    {e : Expr} (he : AllTraced lines calls e) :
    Run.Keeps (provenance lines) (fun _ => True) (eval o fuel depth calls e) := by
  induction fuel generalizing depth calls e with
  | zero => exact Run.Keeps.stop trivial
  | succ fuel ih =>
      have hself : Traced lines calls e.span := he e e.self_mem_parts
      refine eval_keeps ?_ he (fun _ _ => hself) (fun _ _ _ => hself) (fun _ => hself)
      intro _
      apply provenance_sustained
      intro calls e he
      exact ih (depth + 1) calls he

/-- Whatever is evaluated from the last line leaves functions that come from the lines, and fails
on a line as its trace tells. -/
theorem evaluate_traced {lines : List Bytes} (o : Options) {e : Expr} {s : Scope}
    (he : ∀ x ∈ e.parts, x.span.InLines lines ∧ x.span.start.line = lines.length)
    (hs : s.FromLines lines) :
    (evaluate o e s).2.FromLines lines ∧
      ∀ d, (evaluate o e s).1 = .failure d → d.span.InLines lines ∧
        (d.trace = [] → d.span.start.line = lines.length) := by
  have hrun : Run.Keeps (provenance lines) (fun _ => True) (run o e) :=
    eval_traced lines o o.fuel 0 [] fun x hx => ⟨(he x hx).1, fun _ => (he x hx).2⟩
  refine ⟨(evaluate_keeps (c := provenance lines) hrun hs).1, ?_⟩
  intro d hd
  obtain ⟨failure, htraced, rfl⟩ := evaluate_fails (c := provenance lines) hrun hs hd
  refine ⟨htraced.inLines, ?_⟩
  intro htrace
  apply htraced.latest
  cases hcalls : failure.calls with
  | nil => rfl
  | cons name rest => exact absurd htrace (Trace.shorten_ne_nil (by simp [hcalls]))

end Eval

end LineLisp
