import LineLisp.Eval

/-!
Evaluation with a state of its own. The evaluator is told how deep it is and which calls are active.
An interpreter keeps both instead: it counts up before each evaluation and down after it, puts a
function on its list of calls before the body and takes the last one off after it, however they end,
and fails with the calls that are on the list at that moment. What happens to the list is logged; no
rule reads the log.

The main statement is that such an interpreter evaluates as the evaluator does and is left as it
was, and that the calls it was given beforehand come to light nowhere but at the end of the calls of
a failure.
-/

namespace LineLisp.Eval

/-- What happens to the list of calls, and where a failure comes up. -/
inductive Event where
  | entered (name : Bytes)
  | left
  | raised
  deriving DecidableEq

namespace Event

def track (opened : List Bytes) : Event → List Bytes
  | .entered name => name :: opened
  | .left => opened.tail
  | .raised => opened

/-- The functions that were entered and not left, innermost first. -/
def opened (events : List Event) : List Bytes :=
  events.foldl track []

/-- What is logged of a failure: the events before it is raised, and then that each function opened
by them is left. -/
def failing (before : List Event) : List Event :=
  before ++ .raised :: List.replicate (opened before).length .left

end Event

structure Interpreter where
  /-- How many evaluations are going on. -/
  depth : Nat
  /-- The active calls, outermost first. -/
  calls : List Bytes
  /-- What has happened so far, in order. -/
  log : List Event

def Interpreter.new : Interpreter :=
  ⟨0, [], []⟩

/-- How a task ends. -/
inductive Ending (α : Type) where
  | value (a : α)
  | raised (failure : Failure)

/-- Tasks change an interpreter and a scope; there is no result where the fuel is spent. -/
def Task (α : Type) : Type :=
  Interpreter → Scope → Option (Ending α × Interpreter × Scope)

namespace Task

variable {α β : Type}

def bind (x : Task α) (f : α → Task β) : Task β :=
  fun i s =>
    match x i s with
    | some (.value a, i, s) => f a i s
    | some (.raised failure, i, s) => some (.raised failure, i, s)
    | none => none

instance : Monad Task where
  pure a := fun i s => some (.value a, i, s)
  bind := Task.bind

def stop : Task α :=
  fun _ _ => none

def scope : Task Scope :=
  fun i s => some (.value s, i, s)

def depth : Task Nat :=
  fun i s => some (.value i.depth, i, s)

def assign (name : Bytes) (value : Value) : Task Unit :=
  fun i s => some (.value (), i, s.assign name value)

def define (name : Bytes) (f : Function) : Task Unit :=
  fun i s => some (.value (), i, s.define name f)

/-- Fails with the calls that are active now. -/
def raise (fault : Fault) (span : Span) : Task α :=
  fun i s => some (.raised ⟨fault, span, i.calls.reverse⟩, { i with log := i.log ++ [.raised] }, s)

/-- One level deeper, until the end of the task. -/
def deeper (x : Task α) : Task α :=
  fun i s =>
    match x { i with depth := i.depth + 1 } s with
    | some (ending, i, s) => some (ending, { i with depth := i.depth - 1 }, s)
    | none => none

/-- Inside a new innermost frame, until the end of the task. -/
def inside (frame : Frame) (x : Task α) : Task α :=
  fun i s =>
    match x i (s.enter frame) with
    | some (ending, i, s) => some (ending, i, s.leave)
    | none => none

/-- With one more call on the list, until the end of the task. -/
def during (name : Bytes) (x : Task α) : Task α :=
  fun i s =>
    match x { i with calls := i.calls ++ [name], log := i.log ++ [.entered name] } s with
    | some (ending, i, s) =>
        some (ending, { i with calls := i.calls.dropLast, log := i.log ++ [.left] }, s)
    | none => none

end Task

namespace Interpreter

def symbol (strict : Bool) (span : Span) (name : Bytes) : Task Value := do
  let s ← Task.scope
  match s.value? name with
  | some v => pure v
  | none =>
      match constant? name with
      | some v => pure v
      | none =>
          if strict then Task.raise (.unbound name (s.function? name).isSome) span
          else pure (.symbol name)

def values (self : Expr → Task Value) (done : List Value) : List Expr → Task (List Value)
  | [] => pure done.reverse
  | e :: es => do
      let v ← self e
      values self (v :: done) es

def body (self : Expr → Task Value) (last : Value) : List Expr → Task Value
  | [] => pure last
  | e :: es => do
      let v ← self e
      body self v es

def number (self : Expr → Task Value) (op : Operator) (e : Expr) : Task Int64 := do
  match ← self e with
  | .int n => pure n
  | v => Task.raise (.notNumber op v) e.span

def calculate (op : Arithmetic) (divisor : Span) (a b : Int64) : Task Value :=
  match op with
  | .add => pure (.int (a + b))
  | .sub => pure (.int (a - b))
  | .mul => pure (.int (a * b))
  | .div => if b = 0 then Task.raise .divisionByZero divisor else pure (.int (a / b))

def clauses (self : Expr → Task Value) : List Expr → Task Value
  | [] => pure .nil
  | .form _ (test :: rest) :: more => do
      let v ← self test
      if v.isTruthy then body self v rest
      else clauses self more
  | other :: _ => Task.raise (.condClause other) other.span

def parameters (function : Bytes) (done : List Bytes) : List Expr → Task (List Bytes)
  | [] => pure done.reverse
  | .symbol _ name :: rest => parameters function (name :: done) rest
  | other :: _ => Task.raise (.parameter function other) other.span

def defun (span : Span) : List Expr → Task Value
  | target :: params :: first :: rest =>
      match target, params with
      | .symbol _ name, .form _ elems => do
          let names ← parameters name [] elems
          Task.define name ⟨name, names, first :: rest⟩
          pure (.symbol name)
      | .symbol _ name, other => Task.raise (.parameterList name other) other.span
      | other, _ => Task.raise (.functionName other) other.span
  | args => Task.raise (.defunOperands args.length) span

def operate (self : Expr → Task Value) (span : Span) (op : Operator) (args : List Expr) :
    Task Value :=
  match op, args with
  | .arithmetic k, [x, y] => do
      let a ← number self op x
      let b ← number self op y
      calculate k y.span a b
  | .comparison k, [x, y] => do
      let a ← number self op x
      let b ← number self op y
      pure (.bool (k.holds a b))
  | .setq, [.symbol _ name, e] => do
      let v ← self e
      Task.assign name v
      pure v
  | .setq, [other, _] => Task.raise (.setqTarget other) other.span
  | .atom, [e] => do
      let v ← self e
      pure (.bool v.isAtom)
  | .list, es => do
      let vs ← values self [] es
      pure (.list vs)
  | .equal, [x, y] => do
      let a ← self x
      let b ← self y
      pure (.bool (a.same b))
  | .cond, cs => clauses self cs
  | .quote, [e] => pure (.ofExpr e)
  | .defun, args => defun span args
  | .atom, args | .quote, args => Task.raise (.operandCount op 1 args.length) span
  | op, args => Task.raise (.operandCount op 2 args.length) span

/-- Calls a function: the arguments are evaluated before it is entered, and it is left at the end of
the body. -/
def call (self : Expr → Task Value) (span : Span) (f : Function) (args : List Expr) :
    Task Value :=
  if args.length = f.params.length then do
    let vs ← values self [] args
    Task.inside (arguments f.params vs) (Task.during f.name (body self .nil f.body))
  else
    Task.raise (.argumentCount f.name f.params.length args.length) span

def apply (self : Expr → Task Value) (span head : Span) (name : Bytes) (args : List Expr) :
    Task Value :=
  match Operator.ofName? name with
  | some op => operate self span op args
  | none => do
      let s ← Task.scope
      match s.value? name with
      | some v => pure v
      | none =>
          match s.function? name with
          | some f => call self span f args
          | none => Task.raise (.unknownOperator name) head

def form (self : Expr → Task Value) (span : Span) (elems : List Expr) : Task Value :=
  match elems with
  | [] => pure .nil
  | .symbol head name :: args => apply self span head name args
  | _ => pure (.ofExpr (.form span elems))

/-- Evaluates an expression one level deeper than the interpreter is. -/
def eval (o : Options) : (fuel : Nat) → Expr → Task Value
  | 0, _ => Task.stop
  | fuel + 1, e => Task.deeper do
      let depth ← Task.depth
      match o.limit.crossed depth with
      | some n => Task.raise (.tooDeep n) e.span
      | none =>
          match e with
          | .int _ n => pure (.int n)
          | .symbol span name => symbol o.strict span name
          | .form span elems => form (eval o fuel) span elems
          | .absent => Task.raise .noExpression e.span

/-- The result of a whole evaluation, with the interpreter and the scope that it leaves behind. -/
def evaluate (o : Options) (e : Expr) (i : Interpreter) (s : Scope) :
    Result × Interpreter × Scope :=
  match eval o o.fuel e i s with
  | some (.value v, i, s) => (.value v, i, s)
  | some (.raised failure, i, s) => (.failure failure.diagnostic, i, s)
  | none => (.unfinished, i, s)

end Interpreter

section events

/-- Whether events raise nothing and leave `opened` entered, in front of whatever was before. -/
structure Opens (opened : List Bytes) (events : List Event) : Prop where
  quiet : .raised ∉ events
  track : ∀ before, events.foldl Event.track before = opened ++ before

variable {first second : List Bytes} {events more : List Event}

theorem Opens.nil : Opens [] [] :=
  ⟨by simp, fun _ => rfl⟩

theorem Opens.append (h : Opens first events) (h' : Opens second more) :
    Opens (second ++ first) (events ++ more) := by
  refine ⟨by simp [h.quiet, h'.quiet], fun before => ?_⟩
  rw [List.foldl_append, h.track, h'.track, List.append_assoc]

theorem Opens.entered (name : Bytes) : Opens [name] [.entered name] :=
  ⟨by simp, fun _ => rfl⟩

/-- A function that is entered and left again is no longer open. -/
theorem Opens.called (name : Bytes) (h : Opens [] events) :
    Opens [] (.entered name :: (events ++ [.left])) := by
  refine ⟨by simp [h.quiet], fun before => ?_⟩
  rw [List.foldl_cons, List.foldl_append, h.track]
  rfl

theorem Opens.opened_eq (h : Opens first events) : Event.opened events = first := by
  rw [Event.opened, h.track, List.append_nil]

end events

section tracking

variable {α β : Type}

/-- Whether a task has an outcome at a depth, whichever calls are outside the `active` ones and
whatever is in the log: it leaves the interpreter as it was, and the outer calls are noticed only
behind those of a failure, which are the ones opened when it was raised and the active ones. -/
def Task.Ends (x : Task α) (depth : Nat) (active : List Bytes) (s : Scope) : Outcome α → Prop
  | .done a s' => ∃ events, Opens [] events ∧ ∀ outer log,
      x ⟨depth, outer ++ active.reverse, log⟩ s =
        some (.value a, ⟨depth, outer ++ active.reverse, log ++ events⟩, s')
  | .failed failure s' => ∃ opened before,
      Opens opened before ∧ failure.calls = opened ++ active ∧ ∀ outer log,
        x ⟨depth, outer ++ active.reverse, log⟩ s =
          some (.raised { failure with calls := failure.calls ++ outer.reverse },
            ⟨depth, outer ++ active.reverse, log ++ Event.failing before⟩, s')
  | .unfinished => ∀ outer log, x ⟨depth, outer ++ active.reverse, log⟩ s = none

/-- A task that leaves the interpreter alone. -/
theorem Task.Ends.idle {x : Task α} {depth : Nat} {active : List Bytes} {s s' : Scope} {a : α}
    (h : ∀ i, x i s = some (.value a, i, s')) : x.Ends depth active s (.done a s') := by
  refine ⟨[], .nil, fun outer log => ?_⟩
  rw [h, List.append_nil]

/-- Whether a task at a depth and under active calls does what a run does. -/
def Tracks (depth : Nat) (active : List Bytes) (x : Task α) (y : Run α) : Prop :=
  ∀ s, x.Ends depth active s (y s)

namespace Tracks

variable {depth : Nat} {active : List Bytes} {x : Task α} {y : Run α}

theorem pure (a : α) : Tracks depth active (Pure.pure a) (Pure.pure a) :=
  fun _ => .idle fun _ => rfl

theorem stop : Tracks depth active (Task.stop : Task α) Run.stop :=
  fun _ _ _ => rfl

theorem scope : Tracks depth active Task.scope Run.scope :=
  fun _ => .idle fun _ => rfl

theorem assign (name : Bytes) (v : Value) :
    Tracks depth active (Task.assign name v) (Run.assign name v) :=
  fun _ => .idle fun _ => rfl

theorem define (name : Bytes) (f : Function) :
    Tracks depth active (Task.define name f) (Run.define name f) :=
  fun _ => .idle fun _ => rfl

/-- A failure names the calls that are on the list: the active ones, and the outer ones behind. -/
theorem raise {fault : Fault} {span : Span} :
    Tracks depth active (Task.raise fault span : Task α) (Run.fail active fault span) := by
  intro s
  refine ⟨[], [], .nil, rfl, fun outer log => ?_⟩
  simp [Task.raise, Event.failing, Event.opened]

theorem bind {f : α → Task β} {g : α → Run β} (hx : Tracks depth active x y)
    (hf : ∀ a, Tracks depth active (f a) (g a)) : Tracks depth active (x >>= f) (y >>= g) := by
  intro s
  have hfirst := hx s
  change Task.Ends (Task.bind x f) depth active s (Run.bind y g s)
  unfold Run.bind
  cases hrun : y s with
  | done a s' =>
      rw [hrun] at hfirst
      obtain ⟨events, hevents, hvalue⟩ := hfirst
      have hsecond := hf a s'
      have hbind : ∀ outer log, Task.bind x f ⟨depth, outer ++ active.reverse, log⟩ s =
          f a ⟨depth, outer ++ active.reverse, log ++ events⟩ s' := by
        intro outer log
        simp only [Task.bind, hvalue]
      simp only
      cases hnext : g a s' with
      | done b t =>
          rw [hnext] at hsecond
          obtain ⟨more, hmore, hvalue'⟩ := hsecond
          refine ⟨events ++ more, hevents.append hmore, fun outer log => ?_⟩
          rw [hbind, hvalue', List.append_assoc]
      | failed failure t =>
          rw [hnext] at hsecond
          obtain ⟨opened, before, hopened, hcalls, hraised⟩ := hsecond
          -- The first task has left what it entered, so what is open was opened by the second.
          have hboth : Opens opened (events ++ before) := by simpa using hevents.append hopened
          refine ⟨opened, events ++ before, hboth, hcalls, fun outer log => ?_⟩
          rw [hbind, hraised, Event.failing, Event.failing, hboth.opened_eq, hopened.opened_eq,
            List.append_assoc, List.append_assoc]
      | unfinished =>
          rw [hnext] at hsecond
          intro outer log
          rw [hbind, hsecond]
  | failed failure s' =>
      rw [hrun] at hfirst
      obtain ⟨opened, before, hopened, hcalls, hraised⟩ := hfirst
      refine ⟨opened, before, hopened, hcalls, fun outer log => ?_⟩
      simp only [Task.bind, hraised]
  | unfinished =>
      rw [hrun] at hfirst
      intro outer log
      simp only [Task.bind, hfirst outer log]

theorem inside (frame : Frame) (hx : Tracks depth active x y) :
    Tracks depth active (Task.inside frame x) (Run.inside frame y) := by
  intro s
  have hinner := hx (s.enter frame)
  unfold Run.inside
  cases hrun : y (s.enter frame) with
  | done a s' =>
      rw [hrun] at hinner
      obtain ⟨events, hevents, hvalue⟩ := hinner
      refine ⟨events, hevents, fun outer log => ?_⟩
      simp only [Task.inside, hvalue]
  | failed failure s' =>
      rw [hrun] at hinner
      obtain ⟨opened, before, hopened, hcalls, hraised⟩ := hinner
      refine ⟨opened, before, hopened, hcalls, fun outer log => ?_⟩
      simp only [Task.inside, hraised]
  | unfinished =>
      rw [hrun] at hinner
      intro outer log
      simp only [Task.inside, hinner outer log]

/-- The call on the list during a task is taken off at its end. It is the outermost of those that
the task has opened when it fails. -/
theorem during (name : Bytes) (hx : Tracks depth (name :: active) x y) :
    Tracks depth active (Task.during name x) y := by
  intro s
  have hinner := hx s
  have hlist : ∀ outer : List Bytes,
      outer ++ active.reverse ++ [name] = outer ++ (name :: active).reverse := by
    intro outer
    rw [List.reverse_cons, List.append_assoc]
  have hdrop : ∀ outer : List Bytes,
      (outer ++ (name :: active).reverse).dropLast = outer ++ active.reverse := by
    intro outer
    rw [← hlist, List.dropLast_concat]
  cases hrun : y s with
  | done a s' =>
      rw [hrun] at hinner
      obtain ⟨events, hevents, hvalue⟩ := hinner
      refine ⟨.entered name :: (events ++ [.left]), hevents.called name, fun outer log => ?_⟩
      simp only [Task.during, hlist, hvalue, hdrop]
      simp
  | failed failure s' =>
      rw [hrun] at hinner
      obtain ⟨opened, before, hopened, hcalls, hraised⟩ := hinner
      -- The last event of the failure, one more `left`, belongs to this call.
      have hentered : Opens (opened ++ [name]) (.entered name :: before) :=
        (Opens.entered name).append hopened
      refine ⟨opened ++ [name], .entered name :: before, hentered, ?_, fun outer log => ?_⟩
      · rw [hcalls, List.append_assoc]
        rfl
      · simp only [Task.during, hlist, hraised, hdrop, Event.failing, hentered.opened_eq,
          hopened.opened_eq]
        simp [List.replicate_succ']
  | unfinished =>
      rw [hrun] at hinner
      intro outer log
      simp only [Task.during, hlist, hinner outer]

theorem deeper (hx : Tracks (depth + 1) active x y) :
    Tracks depth active (Task.deeper x) y := by
  intro s
  have hinner := hx s
  cases hrun : y s with
  | done a s' =>
      rw [hrun] at hinner
      obtain ⟨events, hevents, hvalue⟩ := hinner
      refine ⟨events, hevents, fun outer log => ?_⟩
      simp only [Task.deeper, hvalue, Nat.add_sub_cancel]
  | failed failure s' =>
      rw [hrun] at hinner
      obtain ⟨opened, before, hopened, hcalls, hraised⟩ := hinner
      refine ⟨opened, before, hopened, hcalls, fun outer log => ?_⟩
      simp only [Task.deeper, hraised, Nat.add_sub_cancel]
  | unfinished =>
      rw [hrun] at hinner
      intro outer log
      simp only [Task.deeper, hinner outer log]

/-- The depth that a task reads is its own. -/
theorem depth_bind {f : Nat → Task α} (hf : Tracks depth active (f depth) y) :
    Tracks depth active (Task.depth >>= f) y :=
  hf

end Tracks

end tracking

/-- Whether tasks for expressions do what an evaluator does under any active calls. -/
def Follows (depth : Nat) (self : Expr → Task Value) (inner : Self) : Prop :=
  ∀ active e, Tracks depth active (self e) (inner active e)

section rules

variable {depth : Nat} {active : List Bytes}

theorem symbol_tracks (strict : Bool) (span : Span) (name : Bytes) :
    Tracks depth active (Interpreter.symbol strict span name) (symbol strict active span name) := by
  refine .bind .scope fun s => ?_
  cases s.value? name with
  | some v => exact .pure v
  | none =>
      cases constant? name with
      | some v => exact .pure v
      | none =>
          cases strict with
          | true => exact .raise
          | false => exact .pure _

theorem calculate_tracks (op : Arithmetic) (divisor : Span) (a b : Int64) :
    Tracks depth active (Interpreter.calculate op divisor a b)
      (calculate active op divisor a b) := by
  cases op with
  | div =>
      unfold Interpreter.calculate calculate
      by_cases hb : b = 0
      · simp only [hb, if_true]
        exact .raise
      · simp only [hb, if_false]
        exact .pure _
  | _ => exact .pure _

theorem parameters_tracks (function : Bytes) (done : List Bytes) (es : List Expr) :
    Tracks depth active (Interpreter.parameters function done es)
      (parameters active function done es) := by
  induction es generalizing done with
  | nil => exact .pure _
  | cons e es ih =>
      cases e with
      | symbol place name => exact ih (name :: done)
      | _ => exact .raise

theorem defun_tracks (span : Span) (args : List Expr) :
    Tracks depth active (Interpreter.defun span args) (defun active span args) := by
  match args with
  | [] | [_] | [_, _] => exact .raise
  | target :: params :: first :: rest =>
      cases target with
      | symbol place name =>
          cases params with
          | form listed elems =>
              refine .bind (parameters_tracks name [] elems) fun names => ?_
              exact .bind (.define name _) fun _ => .pure _
          | _ => exact .raise
      | _ => exact .raise

end rules

namespace Follows

variable {depth : Nat} {self : Expr → Task Value} {inner : Self} (h : Follows depth self inner)
include h

theorem values (active : List Bytes) (done : List Value) (es : List Expr) :
    Tracks depth active (Interpreter.values self done es) (values (inner active) done es) := by
  induction es generalizing done with
  | nil => exact .pure _
  | cons e es ih => exact .bind (h active e) fun v => ih (v :: done)

theorem body (active : List Bytes) (last : Value) (es : List Expr) :
    Tracks depth active (Interpreter.body self last es) (body (inner active) last es) := by
  induction es generalizing last with
  | nil => exact .pure _
  | cons e es ih => exact .bind (h active e) fun v => ih v

theorem number (active : List Bytes) (op : Operator) (e : Expr) :
    Tracks depth active (Interpreter.number self op e) (number inner active op e) := by
  refine .bind (h active e) fun v => ?_
  cases v with
  | int n => exact .pure n
  | _ => exact .raise

theorem clauses (active : List Bytes) (es : List Expr) :
    Tracks depth active (Interpreter.clauses self es) (clauses inner active es) := by
  induction es with
  | nil => exact .pure _
  | cons e es ih =>
      match e with
      | .form span (test :: rest) =>
          refine .bind (h active test) fun v => ?_
          by_cases htruthy : v.isTruthy
          · simp only [htruthy, if_true]
            exact h.body active v rest
          · simp only [htruthy]
            exact ih
      | .form _ [] | .int _ _ | .symbol _ _ | .absent => exact .raise

theorem operate (active : List Bytes) (span : Span) (op : Operator) (args : List Expr) :
    Tracks depth active (Interpreter.operate self span op args)
      (operate inner active span op args) := by
  cases op with
  | arithmetic k =>
      match args with
      | [x, y] =>
          refine .bind (h.number active _ x) fun a => ?_
          exact .bind (h.number active _ y) fun b => calculate_tracks k y.span a b
      | [] | [_] | _ :: _ :: _ :: _ => exact .raise
  | comparison k =>
      match args with
      | [x, y] =>
          refine .bind (h.number active _ x) fun a => ?_
          exact .bind (h.number active _ y) fun b => .pure _
      | [] | [_] | _ :: _ :: _ :: _ => exact .raise
  | setq =>
      match args with
      | [target, e] =>
          cases target with
          | symbol place name =>
              refine .bind (h active e) fun v => ?_
              exact .bind (.assign name v) fun _ => .pure v
          | _ => exact .raise
      | [] => exact .raise
      | [target] | target :: _ :: _ :: _ => cases target <;> exact .raise
  | atom =>
      match args with
      | [e] => exact .bind (h active e) fun v => .pure _
      | [] | _ :: _ :: _ => exact .raise
  | list => exact .bind (h.values active [] args) fun vs => .pure _
  | equal =>
      match args with
      | [x, y] =>
          refine .bind (h active x) fun a => ?_
          exact .bind (h active y) fun b => .pure _
      | [] | [_] | _ :: _ :: _ :: _ => exact .raise
  | cond => exact h.clauses active args
  | quote =>
      match args with
      | [e] => exact .pure _
      | [] | _ :: _ :: _ => exact .raise
  | defun => exact defun_tracks span args

theorem call (active : List Bytes) (span : Span) (f : Function) (args : List Expr) :
    Tracks depth active (Interpreter.call self span f args) (call inner active span f args) := by
  unfold Interpreter.call Eval.call
  by_cases hlength : args.length = f.params.length
  · rw [if_pos hlength, if_pos hlength]
    refine .bind (h.values active [] args) fun vs => ?_
    exact .inside _ (.during f.name (h.body (f.name :: active) .nil f.body))
  · rw [if_neg hlength, if_neg hlength]
    exact .raise

theorem apply (active : List Bytes) (span head : Span) (name : Bytes) (args : List Expr) :
    Tracks depth active (Interpreter.apply self span head name args)
      (apply inner active span head name args) := by
  unfold Interpreter.apply Eval.apply
  cases Operator.ofName? name with
  | some op => exact h.operate active span op args
  | none =>
      refine .bind .scope fun s => ?_
      cases s.value? name with
      | some v => exact .pure v
      | none =>
          cases s.function? name with
          | some f => exact h.call active span f args
          | none => exact .raise

theorem form (active : List Bytes) (span : Span) (elems : List Expr) :
    Tracks depth active (Interpreter.form self span elems) (form inner active span elems) := by
  match elems with
  | [] => exact .pure _
  | .symbol head name :: args => exact h.apply active span head name args
  | .int _ _ :: _ | .form _ _ :: _ | .absent :: _ => exact .pure _

end Follows

/-- An interpreter evaluates as the evaluator does that is told its depth and its calls. -/
theorem Interpreter.eval_follows (o : Options) (fuel depth : Nat) :
    Follows depth (Interpreter.eval o fuel) (Eval.eval o fuel depth) := by
  -- Operands are one level deeper; the calls, which bodies add to, are in `Follows`.
  induction fuel generalizing depth with
  | zero => exact fun _ _ => .stop
  | succ fuel ih =>
      intro active e
      unfold Interpreter.eval Eval.eval
      refine .deeper (.depth_bind ?_)
      cases o.limit.crossed (depth + 1) with
      | some n => exact .raise
      | none =>
          cases e with
          | int span n => exact .pure _
          | symbol span name => exact symbol_tracks o.strict span name
          | form span elems => exact (ih (depth + 1)).form active span elems
          | absent => exact .raise

section outcomes

variable {α : Type}

/-- What a task comes to, apart from the interpreter. -/
def Task.outcome : Option (Ending α × Interpreter × Scope) → Outcome α
  | some (.value a, _, s) => .done a s
  | some (.raised failure, _, s) => .failed failure s
  | none => .unfinished

/-- With no calls outside the active ones, a task and a run come to the same. -/
theorem Task.Ends.outcome_eq {x : Task α} {depth : Nat} {calls : List Bytes} {s : Scope}
    {outcome : Outcome α} (h : x.Ends depth calls.reverse s outcome) (log : List Event) :
    Task.outcome (x ⟨depth, calls, log⟩ s) = outcome := by
  have hcalls : [] ++ calls.reverse.reverse = calls := by simp
  cases outcome with
  | done a s' =>
      obtain ⟨events, -, hvalue⟩ := h
      rw [← hcalls, hvalue]
      rfl
  | failed failure s' =>
      obtain ⟨opened, before, -, -, hraised⟩ := h
      rw [← hcalls, hraised]
      simp [Task.outcome]
  | unfinished =>
      rw [← hcalls, h]
      rfl

end outcomes

namespace Interpreter

/-- An interpreter comes to what the evaluator comes to that is told its depth and its calls. -/
theorem outcome_eval (o : Options) (fuel : Nat) (e : Expr) (i : Interpreter) (s : Scope) :
    Task.outcome (eval o fuel e i s) = Eval.eval o fuel i.depth i.calls.reverse e s :=
  (eval_follows o fuel i.depth i.calls.reverse e s).outcome_eq i.log

/-- How an evaluation at a depth ends, whichever calls are active: it is not at an end, has a value,
or has raised a failure, to which the active calls are added behind those opened since. The
interpreter is left with its depth and its calls. -/
theorem eval_cases (o : Options) (fuel : Nat) (e : Expr) (depth : Nat) (s : Scope) :
    (∀ calls log, eval o fuel e ⟨depth, calls, log⟩ s = none) ∨
    (∃ v s' events, ∀ calls log, eval o fuel e ⟨depth, calls, log⟩ s =
      some (.value v, ⟨depth, calls, log ++ events⟩, s')) ∨
    ∃ fault span s' before, .raised ∉ before ∧ ∀ calls log,
      eval o fuel e ⟨depth, calls, log⟩ s =
        some (.raised ⟨fault, span, Event.opened before ++ calls.reverse⟩,
          ⟨depth, calls, log ++ Event.failing before⟩, s') := by
  have hends := eval_follows o fuel depth [] e s
  cases hrun : Eval.eval o fuel depth [] e s with
  | done v s' =>
      rw [hrun] at hends
      obtain ⟨events, -, hvalue⟩ := hends
      refine .inr (.inl ⟨v, s', events, fun calls log => ?_⟩)
      simpa using hvalue calls log
  | failed failure s' =>
      rw [hrun] at hends
      obtain ⟨opened, before, hopened, hcalls, hraised⟩ := hends
      refine .inr (.inr ⟨failure.fault, failure.span, s', before, hopened.quiet, ?_⟩)
      intro calls log
      rw [hopened.opened_eq]
      simpa [hcalls] using hraised calls log
  | unfinished =>
      rw [hrun] at hends
      refine .inl fun calls log => ?_
      simpa using hends calls log

/-- A division by zero two calls deep, under a call that was active before. -/
example :
    let symbol (name : String) : Expr := .symbol .zero (utf8 name)
    let divide : Expr := .form .zero [symbol "/", .int .zero 1, .int .zero 0]
    let s := ((Scope.root .empty).define (utf8 "f") ⟨utf8 "f", [], [.form .zero [symbol "g"]]⟩).define
      (utf8 "g") ⟨utf8 "g", [], [divide]⟩
    ((eval .standard 9 (.form .zero [symbol "f"]) ⟨3, [utf8 "h"], []⟩ s).map fun r => r.2.1) =
      some ⟨3, [utf8 "h"], [.entered (utf8 "f"), .entered (utf8 "g"), .raised, .left, .left]⟩ := by
  with_unfolding_all rfl

/-- An interpreter that is at rest does a whole evaluation and is at rest again. -/
theorem evaluate_eq (o : Options) (e : Expr) (log : List Event) (s : Scope) :
    ∃ log', evaluate o e ⟨0, [], log⟩ s =
      ((Eval.evaluate o e s).1, ⟨0, [], log'⟩, (Eval.evaluate o e s).2) := by
  have houtcome := outcome_eval o o.fuel e ⟨0, [], log⟩ s
  rw [List.reverse_nil] at houtcome
  unfold evaluate Eval.evaluate Eval.run
  rw [← houtcome]
  rcases eval_cases o o.fuel e 0 s with hnone | ⟨v, s', events, hvalue⟩ |
    ⟨fault, span, s', before, -, hraised⟩
  · rw [hnone]
    exact ⟨log, rfl⟩
  · rw [hvalue]
    exact ⟨log ++ events, rfl⟩
  · rw [hraised]
    exact ⟨log ++ Event.failing before, rfl⟩

end Interpreter

end LineLisp.Eval
