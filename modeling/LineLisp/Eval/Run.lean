import LineLisp.Eval.Fault
import LineLisp.Scope

/-!
Runs: computations that read and write a scope and may fail. What was written before a failure
stays written. A run can also be left unfinished when its fuel is spent.
-/

namespace LineLisp.Eval

inductive Outcome (α : Type) where
  | done (value : α) (scope : Scope)
  | failed (failure : Failure) (scope : Scope)
  | unfinished

def Run (α : Type) : Type :=
  Scope → Outcome α

namespace Run

variable {α β : Type}

@[always_inline, inline]
def pure (a : α) : Run α :=
  fun s => .done a s

@[always_inline, inline]
def bind (x : Run α) (f : α → Run β) : Run β :=
  fun s =>
    match x s with
    | .done a s => f a s
    | .failed failure s => .failed failure s
    | .unfinished => .unfinished

instance : Monad Run where
  pure := Run.pure
  bind := Run.bind

@[always_inline, inline]
def fail (calls : List Bytes) (fault : Fault) (span : Span) : Run α :=
  fun s => .failed ⟨fault, span, calls⟩ s

/-- Out of fuel. -/
@[always_inline, inline]
def stop : Run α :=
  fun _ => .unfinished

@[always_inline, inline]
def scope : Run Scope :=
  fun s => .done s s

@[always_inline, inline]
def assign (name : Bytes) (value : Value) : Run Unit :=
  fun s => .done () (s.assign name value)

@[always_inline, inline]
def define (name : Bytes) (f : Function) : Run Unit :=
  fun s => .done () (s.define name f)

/-- Runs inside a new innermost frame and drops it at the end, also after a failure. -/
@[always_inline, inline]
def inside (frame : Frame) (x : Run α) : Run α :=
  fun s =>
    match x (s.enter frame) with
    | .done a s => .done a s.leave
    | .failed failure s => .failed failure s.leave
    | .unfinished => .unfinished

end Run

end LineLisp.Eval
