import LineLisp.Proofs.Eval.Checked
import LineLisp.Proofs.Eval.Pairing
import LineLisp.Scope.Forest

/-!
What a depth limit does to evaluation. Under a limit every evaluation ends, whatever the
expression and the functions in scope: each nested evaluation is a level deeper, and the level
after the limit fails at once. So fuel for one level more than the limit never runs out, and no
evaluation starts below that level.

A limit that is not hit is not noticed: options that only fail where others succeed, or fail for
the same reason, give the same outcome everywhere else.
-/

namespace LineLisp.Eval

/-- The contract of runs that end, in any scope. -/
def ending : Contract where
  scope _ := True
  value _ := True
  function _ := True
  failure _ := True
  unfinished := False

theorem ending_sustained {inner : Self} (calls : List Bytes)
    (hinner : ∀ calls e, Run.Keeps ending (fun _ => True) (inner calls e)) :
    ending.Sustained inner calls fun _ => True :=
  ends_sustained (fun _ _ _ => trivial) hinner

/-- Evaluation ends when its fuel lasts for all the levels that the limit leaves. -/
theorem eval_ends {o : Options} {fuel depth : Nat} (hlimit : o.limit ≠ none)
    (hfuel : o.Lasts fuel depth) (calls : List Bytes) (e : Expr) :
    Run.Keeps ending (fun _ => True) (eval o fuel depth calls e) := by
  induction fuel generalizing depth calls e with
  | zero =>
      obtain ⟨n, hn⟩ := Option.ne_none_iff_exists'.mp hlimit
      exact absurd (hfuel n hn).1 (Nat.lt_irrefl 0)
  | succ fuel ih =>
      have hlevel : o.limit.crossed (depth + 1) = none →
          ending.Sustained (eval o fuel (depth + 1)) calls fun _ => True := by
        intro hcrossed
        exact ending_sustained calls fun calls e => ih (hfuel.below hcrossed) calls e
      exact eval_keeps hlevel trivial (fun _ _ => trivial) (fun _ _ _ => trivial) fun _ => trivial

theorem eval_ne_unfinished {o : Options} {fuel depth : Nat} (hlimit : o.limit ≠ none)
    (hfuel : o.Lasts fuel depth) (calls : List Bytes) (e : Expr) (s : Scope) :
    eval o fuel depth calls e s ≠ .unfinished := by
  intro hrun
  have hends := eval_ends hlimit hfuel calls e s trivial
  unfold Run.Ensures at hends
  rw [hrun] at hends
  exact hends

theorem evaluate_ne_unfinished {o : Options} (hlimit : o.limit ≠ none) (e : Expr) (s : Scope) :
    (evaluate o e s).1 ≠ .unfinished := by
  have hends := eval_ends hlimit o.lasts_fuel [] e
  exact (evaluate_keeps (c := ending) hends trivial).2.2

/-- Evaluation in which whatever would start more than `bound` levels deep is left to `deeper`. -/
def evalWithin (o : Options) (bound : Nat) (deeper : Self) : (fuel depth : Nat) → Self
  | 0, _, _, _ => Run.stop
  | fuel + 1, depth, calls, e =>
      if bound < depth + 1 then deeper calls e
      else
        match o.limit.crossed (depth + 1) with
        | some n => Run.fail calls (.tooDeep n) e.span
        | none =>
            match e with
            | .int _ n => pure (.int n)
            | .symbol span name => symbol o.strict calls span name
            | .form span elems => form (evalWithin o bound deeper fuel (depth + 1)) calls span elems
            | .absent => Run.fail calls .noExpression e.span

/-- Nothing is left to `deeper` one level below the limit: what starts there fails at once, so
nothing starts from it. -/
theorem evalWithin_eq {o : Options} {n : Nat} (hlimit : o.limit = some n) (deeper : Self)
    (fuel : Nat) {depth : Nat} (hdepth : depth ≤ n) :
    evalWithin o (n + 1) deeper fuel depth = eval o fuel depth := by
  induction fuel generalizing depth with
  | zero => rfl
  | succ fuel ih =>
      funext calls e
      have hwithin : ¬ n + 1 < depth + 1 := by omega
      unfold evalWithin eval
      rw [if_neg hwithin]
      cases hcrossed : o.limit.crossed (depth + 1) with
      | some m => rfl
      | none =>
          have hnext : depth + 1 ≤ n := DepthLimit.crossed_eq_none_iff.mp hcrossed n hlimit
          cases e with
          | form span elems => exact congrArg (form · calls span elems) (ih hnext)
          | int span value => rfl
          | symbol span name => rfl
          | absent => rfl

/-- Whether evaluation under `o` fails for an excused kind wherever it differs from evaluation
under `o'`. -/
structure Options.Extends (excused : Diagnostic.Kind → Prop) (o o' : Options) : Prop where
  within : ∀ {depth}, o.limit.crossed depth = none → o'.limit.crossed depth = none
  beyond : ∀ {depth n}, o.limit.crossed depth = some n →
    excused .stackLimitExceeded ∨ o'.limit.crossed depth = some n
  strict : o.strict = true → excused .unboundVariable ∨ o'.strict = true
  lax : o.strict = false → o'.strict = false

/-- The pairing of runs that do the same in the same scope, excused failures apart. -/
def Pairing.identity (excused : Diagnostic.Kind → Prop) : Pairing where
  scope := Eq
  function := Eq
  failure := Eq
  excused failure := excused failure.fault.kind
  lenient := True

theorem identity_alike (e : Expr) : e.Alike Eq e := by
  cases e with
  | int span n => exact .int span span n
  | symbol span name => exact .symbol span span name
  | form span elems => exact .form span span (List.forall₂_refl elems)
  | absent => exact .absent

theorem identity_sustained {excused : Diagnostic.Kind → Prop} {lenient : Prop}
    {inner inner' : Self} (calls : List Bytes)
    (hinner : ∀ calls e, Run.Matches { Pairing.identity excused with lenient }
      (inner calls e) (inner' calls e)) :
    Pairing.Sustained { Pairing.identity excused with lenient } inner inner' calls Eq where
  alike := by
    rintro e _ rfl
    exact identity_alike e
  eval := by
    rintro e _ rfl
    exact hinner calls e
  data := by
    rintro e _ rfl
    rfl
  failure := by
    rintro fault fault' e _ hfault rfl
    rw [hfault.eq id]
    rfl
  value := by
    rintro span span' name s _ - rfl
    rfl
  function := by
    rintro span span' name s _ - - rfl
    cases s.function? name with
    | none => exact .none
    | some f => exact .some rfl
  unbound := by
    rintro span _ name s _ ⟨⟩ rfl
    rfl
  assign := by
    rintro span span' name v s _ - rfl
    rfl
  define := by
    rintro span span' name names body body' s _ - hbody rfl
    rw [List.forall₂_eq_eq_eq] at hbody
    rw [hbody]
    rfl
  signature := by
    rintro f _ rfl
    exact ⟨rfl, rfl⟩
  call := by
    rintro f _ rfl vs
    refine Run.Matches.inside fun s t hst => ⟨{ Pairing.identity excused with lenient }, ?_, ?_, ?_,
      fun _ _ => id, fun _ => id, id⟩
    · exact body_matches (List.forall₂_same.mpr fun e _ => hinner _ e) .nil
    · exact congrArg (Scope.enter · _) hst
    · rintro s' _ rfl
      rfl

/-- The same fuel and, where a run may be left unfinished, more fuel give the same outcome under
options that extend others. -/
theorem Options.Extends.eval_matches {excused : Diagnostic.Kind → Prop} {lenient : Prop}
    {o o' : Options} (h : o.Extends excused o') {fuel fuel' : Nat}
    (hfuel : fuel = fuel' ∨ lenient ∧ fuel ≤ fuel') (depth : Nat) (calls : List Bytes) (e : Expr) :
    Run.Matches { Pairing.identity excused with lenient } (eval o fuel depth calls e)
      (eval o' fuel' depth calls e) := by
  induction fuel generalizing fuel' depth calls e with
  | zero =>
      rcases hfuel with rfl | ⟨hlenient, -⟩
      · exact fun _ _ _ => .inr rfl
      · exact .stop hlenient
  | succ fuel ih =>
      obtain ⟨more, rfl, hmore⟩ : ∃ more, fuel' = more + 1 ∧
          (fuel = more ∨ lenient ∧ fuel ≤ more) := by
        rcases hfuel with rfl | ⟨hlenient, hle⟩
        · exact ⟨fuel, rfl, .inl rfl⟩
        · exact ⟨fuel' - 1, by omega, .inr ⟨hlenient, by omega⟩⟩
      refine Eval.eval_matches Eq rfl ?_ ?_ (fun _ _ => h.strict) h.lax
      · intro hcrossed
        refine ⟨h.within hcrossed, identity_sustained calls fun calls e => ?_⟩
        exact ih hmore (depth + 1) calls e
      · intro n hcrossed
        rcases h.beyond hcrossed with hexcused | hcrossed'
        · exact .inl hexcused
        · exact .inr ⟨hcrossed', rfl⟩

theorem Options.Extends.eval_eq {excused : Diagnostic.Kind → Prop} {o o' : Options}
    (h : o.Extends excused o') {fuel fuel' : Nat} (hfuel : fuel ≤ fuel') {depth : Nat}
    {calls : List Bytes} {e : Expr} {s : Scope}
    (hends : eval o fuel depth calls e s ≠ .unfinished)
    (hfails : ∀ failure s', eval o fuel depth calls e s = .failed failure s' →
      ¬ excused failure.fault.kind) :
    eval o' fuel' depth calls e s = eval o fuel depth calls e s := by
  have hmatches : (eval o fuel depth calls e s).Matches (.identity excused) _ :=
    h.eval_matches (.inr ⟨trivial, hfuel⟩) depth calls e s s rfl
  cases hrun : eval o fuel depth calls e s with
  | done v s' =>
      rw [hrun] at hmatches
      obtain ⟨t, hsecond, rfl⟩ := hmatches
      exact hsecond
  | failed failure s' =>
      rw [hrun] at hmatches
      rcases hmatches with hexcused | ⟨failure', t, hsecond, rfl, rfl⟩
      · exact absurd hexcused (hfails failure s' hrun)
      · exact hsecond
  | unfinished => exact absurd hrun hends

/-- A whole evaluation that ends without an excused failure ends the same way under options that
extend its own. -/
theorem Options.Extends.evaluate_eq {excused : Diagnostic.Kind → Prop} {o o' : Options}
    (h : o.Extends excused o') (hfuel : o.fuel ≤ o'.fuel) {e : Expr} {s : Scope}
    (hends : (evaluate o e s).1 ≠ .unfinished)
    (hfails : ∀ d, (evaluate o e s).1 = .failure d → ¬ excused d.kind) :
    evaluate o' e s = evaluate o e s := by
  have hrun : run o' e s = run o e s := by
    apply h.eval_eq hfuel
    · intro hrun
      have hresult : (evaluate o e s).1 = .unfinished := by
        simp only [evaluate, run, hrun]
      exact hends hresult
    · intro failure s' hrun
      have hresult : (evaluate o e s).1 = .failure failure.diagnostic := by
        simp only [evaluate, run, hrun]
      exact hfails _ hresult
  unfold evaluate
  rw [hrun]

/-- A greater limit, and no limit, extend a limit that is not hit. -/
theorem Options.extends_of_greater_limit (strict : Bool) {n m : Int} (hn : 0 < n)
    (hm : n ≤ m ∨ m ≤ 0) :
    Options.Extends (· = .stackLimitExceeded) ⟨strict, .ofInt n⟩ ⟨strict, .ofInt m⟩ where
  within := by
    intro depth hcrossed
    rw [DepthLimit.crossed_ofInt_eq_none_iff hn] at hcrossed
    rcases hm with hle | hoff
    · rw [DepthLimit.crossed_ofInt_eq_none_iff (by omega)]
      omega
    · exact DepthLimit.crossed_ofInt_of_nonpos hoff depth
  beyond _ := .inl rfl
  strict := .inr
  lax := id

theorem Options.extends_self (o : Options) : o.Extends (fun _ => False) o where
  within := id
  beyond := .inr
  strict := .inr
  lax := id

theorem Options.fuel_ofInt (strict : Bool) {n : Int} (hn : 0 < n) :
    Options.fuel ⟨strict, .ofInt n⟩ = n.toNat + 1 := by
  simp [Options.fuel, DepthLimit.ofInt, hn]

/-- Without a limit there is as much fuel as under any limit of 64 bits. -/
theorem Options.fuel_le_of_greater_limit (strict : Bool) {n m : Int64} (hn : 0 < n.toInt)
    (hm : n.toInt ≤ m.toInt ∨ m.toInt ≤ 0) :
    Options.fuel ⟨strict, .ofInt n.toInt⟩ ≤ Options.fuel ⟨strict, .ofInt m.toInt⟩ := by
  rw [Options.fuel_ofInt strict hn]
  rcases hm with hle | hoff
  · rw [Options.fuel_ofInt strict (by omega)]
    omega
  · have hbound := n.toInt_lt
    have hoff' : ¬ 0 < m.toInt := by omega
    simp only [Options.fuel, DepthLimit.ofInt, hoff', if_false]
    omega

end LineLisp.Eval

namespace LineLisp.Forest

open Eval (Checked Options Self eval evalWithin)

/-- An evaluation in a frame of a forest that a limit lets pass, with a value or with a failure of
another kind, ends with the same result and leaves the same forest behind under every greater
limit and without one. -/
theorem evaluate_under_greater_limit (strict : Bool) (f : Forest) (i : Nat) (e : Expr) {n : Int64}
    (hn : 0 < n)
    (hpasses : ∀ d, (f.evaluate ⟨strict, .ofInt n.toInt⟩ i e).1 = .failure d →
      d.kind ≠ .stackLimitExceeded) :
    (f.evaluate ⟨strict, .ofInt n.toInt⟩ i e).1 ≠ .unfinished ∧
      ∀ m : Int64, n ≤ m ∨ m ≤ 0 →
        f.evaluate ⟨strict, .ofInt m.toInt⟩ i e = f.evaluate ⟨strict, .ofInt n.toInt⟩ i e := by
  have hpos : 0 < n.toInt := by simpa using Int64.lt_iff_toInt_lt.mp hn
  have hlimit : (⟨strict, .ofInt n.toInt⟩ : Options).limit ≠ none := by
    simp [DepthLimit.ofInt, hpos]
  have hends := Eval.evaluate_ne_unfinished hlimit e (f.scope i)
  refine ⟨hends, fun m hm => ?_⟩
  have hm' : n.toInt ≤ m.toInt ∨ m.toInt ≤ 0 := by
    simpa [Int64.le_iff_toInt_le] using hm
  have hsame := (Options.extends_of_greater_limit strict hpos hm').evaluate_eq
    (Options.fuel_le_of_greater_limit strict hpos hm') hends hpasses
  unfold Forest.evaluate
  rw [hsame]

/-- A function that counts down to a division by zero, two calls deep, fails the same way under a
limit that just lets it pass, under a greater one and under none. -/
theorem evaluate_under_greater_limit_countdown :
    let symbol (name : String) : Expr := .symbol .zero (utf8 name)
    let form (elems : List Expr) : Expr := .form .zero elems
    let one : Expr := .int .zero 1
    let body := form [symbol "cond",
      form [form [symbol "<", symbol "x", one], form [symbol "/", one, symbol "x"]],
      form [symbol "true", form [symbol "f", form [symbol "-", symbol "x", one]]]]
    let f := Forest.empty.addRoot.define 0 (utf8 "f") ⟨utf8 "f", [utf8 "x"], [body]⟩
    let call := form [symbol "f", one]
    let under (n : Int64) := f.evaluate ⟨true, .ofInt n.toInt⟩ 0 call
    (∃ d, (under 6).1 = .failure d ∧ d.kind = .divisionByZero) ∧
      under 7 = under 6 ∧ under 0 = under 6 := by
  intro symbol form one body f call under
  have hkind : (match (under 6).1 with
      | .failure d => some d.kind
      | _ => none) = some Diagnostic.Kind.divisionByZero := by decide +kernel
  cases hresult : (under 6).1 with
  | value v => simp [hresult] at hkind
  | unfinished => simp [hresult] at hkind
  | failure d =>
      have hd : d.kind = .divisionByZero := by simpa [hresult] using hkind
      have hpasses : ∀ d, (under 6).1 = .failure d → d.kind ≠ .stackLimitExceeded := by
        intro d' hd'
        obtain rfl : d = d' := by simpa [hresult] using hd'
        simp [hd]
      obtain ⟨-, hsame⟩ := evaluate_under_greater_limit true f 0 call (n := 6) (by decide) hpasses
      exact ⟨⟨d, rfl, hd⟩, hsame 7 (by decide), hsame 0 (by decide)⟩

/-- Under a limit every evaluation in a frame of a forest ends, whatever functions it calls and
redefines. With nothing absent in the expression and in the frames that are seen, no step springs a
trap and the end is a whole value or a diagnostic. Fuel for one level more than the limit never runs
out, and no nested evaluation starts below that level, so it does not matter what would be done with
one. -/
theorem limited_evaluation_ends (strict : Bool) (f : Forest) (i : Nat) (e : Expr) {n : Int}
    (hn : 0 < n) :
    let o : Options := ⟨strict, .ofInt n⟩
    let depth := n.toNat + 1
    (e.isWhole → (f.scope i).Whole →
      Checked.evaluate o e (f.scope i) = .ok (Eval.evaluate o e (f.scope i)) ∧
        ((∃ v, (f.evaluate o i e).1 = .value v ∧ v.isWhole) ∨
          ∃ d, (f.evaluate o i e).1 = .failure d)) ∧
      (∀ fuel, depth ≤ fuel →
        eval o fuel 0 [] e (f.scope i) ≠ .unfinished ∧
          eval o fuel 0 [] e (f.scope i) = eval o depth 0 [] e (f.scope i)) ∧
      ∀ (deeper : Self) (fuel : Nat),
        evalWithin o depth deeper fuel 0 [] e = eval o fuel 0 [] e := by
  intro o depth
  have hlimit : o.limit = some n.toNat := by simp [o, DepthLimit.ofInt, hn]
  have hsome : o.limit ≠ none := by simp [hlimit]
  refine ⟨?_, ?_, ?_⟩
  · intro he hs
    have hends := Eval.evaluate_ne_unfinished hsome e (f.scope i)
    have hvalue := (Eval.evaluate_keeps (Eval.eval_whole o o.fuel 0 [] he) hs).2.1
    refine ⟨Checked.evaluate_eq o he hs, ?_⟩
    change (∃ v, (Eval.evaluate o e (f.scope i)).1 = .value v ∧ v.isWhole) ∨
      ∃ d, (Eval.evaluate o e (f.scope i)).1 = .failure d
    cases hresult : (Eval.evaluate o e (f.scope i)).1 with
    | value v => exact .inl ⟨v, rfl, hvalue v hresult⟩
    | failure d => exact .inr ⟨d, rfl⟩
    | unfinished => exact absurd hresult hends
  · intro fuel hfuel
    have hlasts : ∀ fuel, depth ≤ fuel → o.Lasts fuel 0 := by
      intro fuel hfuel m hm
      rw [hlimit, Option.some.injEq] at hm
      omega
    have hshort := Eval.eval_ne_unfinished hsome (hlasts depth (Nat.le_refl _)) [] e (f.scope i)
    refine ⟨Eval.eval_ne_unfinished hsome (hlasts fuel hfuel) [] e (f.scope i), ?_⟩
    exact o.extends_self.eval_eq hfuel hshort (by simp)
  · intro deeper fuel
    rw [Eval.evalWithin_eq hlimit deeper fuel (Nat.zero_le _)]

/-- Two functions that call each other for ever, one of which defines the other anew each time, are
stopped by a limit of three levels. -/
theorem limited_evaluation_ends_runaway :
    let symbol (name : String) : Expr := .symbol .zero (utf8 name)
    let form (elems : List Expr) : Expr := .form .zero elems
    let first : Function := ⟨utf8 "f", [],
      [form [symbol "defun", symbol "g", form [], form [symbol "f"]], form [symbol "g"]]⟩
    let second : Function := ⟨utf8 "g", [], [form [symbol "f"]]⟩
    let f := (Forest.empty.addRoot.define 0 first.name first).define 0 second.name second
    let call := form [symbol "g"]
    let o : Options := ⟨false, .ofInt 3⟩
    (0 : Int) < 3 ∧ call.isWhole ∧ (f.scope 0).Whole ∧
      (∃ d, (f.evaluate o 0 call).1 = .failure d) ∧
      eval o 4 0 [] call (f.scope 0) ≠ .unfinished ∧
      ∀ deeper, evalWithin o 4 deeper 4 0 [] call = eval o 4 0 [] call := by
  intro symbol form first second f call o
  have hscope : f.scope 0 =
      ((Scope.root .empty).define first.name first).define second.name second := by
    with_unfolding_all rfl
  have hwhole : (f.scope 0).Whole := by
    rw [hscope]
    exact Scope.Each.define (Scope.Each.define (Scope.Each.root .empty)
      (Expr.areWhole_iff.mp rfl)) (Expr.areWhole_iff.mp rfl)
  obtain ⟨hends, hfuel, hwithin⟩ := limited_evaluation_ends false f 0 call (n := 3) (by decide)
  have hnot : (f.evaluate o 0 call).1.isValue = false := by decide +kernel
  refine ⟨by decide, rfl, hwhole, ?_, (hfuel 4 (by decide)).1, fun deeper => hwithin deeper 4⟩
  rcases (hends rfl hwhole).2 with ⟨v, hv, -⟩ | hfailure
  · have hvalue : (f.evaluate o 0 call).1 = .value v := hv
    rw [hvalue] at hnot
    cases hnot
  · exact hfailure

end LineLisp.Forest
