import LineLisp.Proofs.Eval.Contract
import LineLisp.Proofs.Scope.Sound

/-!
Evaluation keeps scopes sound. In a sound scope a sound expression has a sound value, fails for
no absent expression, and leaves the scope sound, failing or not; under a depth limit it always
ends. Scopes that are whole it keeps whole, without regard to names.
-/

namespace LineLisp.Eval

/-- The contract of sound evaluation. Only without a limit may a run be left unfinished. -/
def soundness (o : Options) : Contract where
  scope := Scope.Sound
  value := Value.Sound
  function := Function.Sound
  failure f := f.fault ≠ .noExpression
  unfinished := o.limit = none

/-- The frame of a call holds the arguments under the names of the parameters. -/
theorem arguments_each {var : Bytes → Value → Prop} {func : Bytes → Function → Prop}
    {params : List Bytes} {vs : List Value} (h : ∀ x ∈ params, ∀ v ∈ vs, var x v) :
    (arguments params vs).Each var func := by
  have hfold : ∀ (pairs : List (Bytes × Value)) (b : Bindings Value),
      (∀ p ∈ pairs, var p.1 p.2) → Frame.Each var func ⟨b, .empty⟩ →
      Frame.Each var func ⟨pairs.foldl (fun b p => b.insert p.1 p.2) b, .empty⟩ := by
    intro pairs
    induction pairs with
    | nil => exact fun b _ hb => hb
    | cons p pairs ih =>
        intro b hpairs hb
        exact ih _ (fun q hq => hpairs q (by simp [hq])) (hb.insertVar (hpairs p (by simp)))
  apply hfold _ _ _ Frame.Each.empty
  intro p hp
  exact h p.1 (List.of_mem_zip hp).1 p.2 (List.of_mem_zip hp).2

theorem soundness_sustained (o : Options) {inner : Self} (calls : List Bytes)
    (hinner : ∀ calls e, e.Sound → Run.Keeps (soundness o) Value.Sound (inner calls e)) :
    (soundness o).Sustained inner calls Expr.Sound where
  elem hform he := Expr.sound_form_iff.mp hform _ he
  eval he := hinner calls _ he
  data he := he.ofExpr
  int := Value.sound_int
  bool := Value.sound_bool
  nil := Value.sound_nil
  list := Value.sound_list
  failure hfault _ := by
    rintro rfl
    cases hfault
  value hs hv := (Scope.Each.value hs hv).2
  function hs hf := (Scope.Each.function hs hf).2.2
  assign hform hv hs := by
    rw [Expr.sound_form_iff, List.forall_mem_cons, List.forall_mem_cons] at hform
    exact Scope.Each.assign hs ⟨Expr.sound_symbol_iff.mp hform.2.1, hv⟩
  define hform hnames hbody hs := by
    simp only [Expr.sound_form_iff, List.forall_mem_cons, Expr.sound_symbol_iff] at hform
    obtain ⟨-, hname, hparams, hrest⟩ := hform
    refine Scope.Each.define hs ⟨hname, rfl, ?_, hbody, hrest⟩
    intro x hx
    obtain ⟨place, hplace⟩ := hnames x hx
    exact Expr.sound_symbol_iff.mp (hparams _ hplace)
  call hf hvs _ := Run.Keeps.inside fun s hs => ⟨soundness o,
    body_keeps (fun e he => hinner _ e (hf.body e he)) Value.sound_nil,
    Scope.Each.enter hs (arguments_each fun x hx v hv => ⟨hf.params x hx, hvs v hv⟩),
    fun _ => Scope.Each.leave, fun _ => id, id⟩

/-- Whether fuel lasts for all the levels that a limit leaves from a depth on. -/
def Options.Lasts (o : Options) (fuel depth : Nat) : Prop :=
  ∀ n, o.limit = some n → 0 < fuel ∧ n < fuel + depth

theorem Options.lasts_fuel (o : Options) : o.Lasts o.fuel 0 := by
  intro n hlimit
  simp [Options.fuel, hlimit]

/-- Where the last unit of fuel would be spent, the limit is crossed first. -/
theorem Options.Lasts.below {o : Options} {fuel depth : Nat} (h : o.Lasts (fuel + 1) depth)
    (hcrossed : o.limit.crossed (depth + 1) = none) : o.Lasts fuel (depth + 1) := by
  intro n hlimit
  have hless := (h n hlimit).2
  have hdepth := DepthLimit.crossed_eq_none_iff.mp hcrossed n hlimit
  omega

theorem eval_sound (o : Options) (fuel depth : Nat) (calls : List Bytes) {e : Expr}
    (hfuel : o.Lasts fuel depth) (he : e.Sound) :
    Run.Keeps (soundness o) Value.Sound (eval o fuel depth calls e) := by
  induction fuel generalizing depth calls e with
  | zero =>
      apply Run.Keeps.stop
      cases hlimit : o.limit with
      | none => exact hlimit
      | some n => exact absurd (hfuel n hlimit).1 (Nat.lt_irrefl 0)
  | succ fuel ih =>
      refine eval_keeps ?_ he (by simp [soundness]) (by simp [soundness])
        (fun habsent => absurd (habsent ▸ he) Expr.not_sound_absent)
      intro hcrossed
      exact soundness_sustained o calls fun calls e he =>
        ih (depth + 1) calls (hfuel.below hcrossed) he

/-- The contract of evaluation in a whole scope. -/
def wholeness : Contract where
  scope := Scope.Whole
  value v := v.isWhole
  function := Function.Whole
  failure _ := True
  unfinished := True

theorem wholeness_sustained {inner : Self} (calls : List Bytes)
    (hinner : ∀ calls e, e.isWhole → Run.Keeps wholeness (fun v => v.isWhole) (inner calls e)) :
    wholeness.Sustained inner calls fun e => e.isWhole where
  elem hform he := Expr.areWhole_iff.mp hform _ he
  eval he := hinner calls _ he
  data _ := Value.isWhole_ofExpr _
  int _ := rfl
  bool _ := rfl
  nil := rfl
  list hvs := Value.areWhole_iff.mpr hvs
  failure _ _ := trivial
  value hs hv := Scope.Each.value hs hv
  function hs hf := Scope.Each.function hs hf
  assign _ hv hs := Scope.Each.assign hs hv
  define hform _ _ hs := by
    apply Scope.Each.define hs
    intro e he
    apply Expr.areWhole_iff.mp hform e
    simp [he]
  call hf hvs _ := Run.Keeps.inside fun s hs => ⟨wholeness,
    body_keeps (c := wholeness) (fun e he => hinner _ e (hf e he)) rfl,
    Scope.Each.enter hs (arguments_each fun _ _ v hv => hvs v hv), fun _ => Scope.Each.leave,
    fun _ => id, id⟩

theorem eval_whole (o : Options) (fuel depth : Nat) (calls : List Bytes) {e : Expr}
    (he : e.isWhole) :
    Run.Keeps wholeness (fun v => v.isWhole) (eval o fuel depth calls e) := by
  induction fuel generalizing depth calls e with
  | zero => exact Run.Keeps.stop trivial
  | succ fuel ih =>
      have hlevel : wholeness.Sustained (eval o fuel (depth + 1)) calls fun e => e.isWhole :=
        wholeness_sustained calls fun calls e he => ih (depth + 1) calls he
      exact eval_keeps (fun _ => hlevel) he (fun _ _ => trivial) (fun _ _ _ => trivial)
        fun _ => trivial

/-- What a whole evaluation of a sound expression in a sound scope comes to. -/
theorem evaluate_sound (o : Options) {e : Expr} (he : e.Sound) {s : Scope} (hs : s.Sound) :
    (evaluate o e s).2.Sound ∧
      (∀ v, (evaluate o e s).1 = .value v → v.Sound) ∧
      ((evaluate o e s).1 = .unfinished → o.limit = none) :=
  evaluate_keeps (c := soundness o) (eval_sound o o.fuel 0 [] o.lasts_fuel he) hs

end LineLisp.Eval
