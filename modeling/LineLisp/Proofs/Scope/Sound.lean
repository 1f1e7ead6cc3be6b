import LineLisp.Proofs.Expr.Sound
import LineLisp.Proofs.Scope.Each

/-!
Sound values, functions and frames, as sound expressions are: nothing in them is absent and all
their names can be read from a line. A function is also stored under its own name and has a body.
Where names do not matter, it is enough that a scope is whole.
-/

namespace LineLisp

namespace Value

mutual

/-- The names of the symbols in a value. -/
def names : Value → List Bytes
  | .symbol name => [name]
  | .list elems => namesAll elems
  | .int _ | .bool _ | .nil | .absent => []

def namesAll : List Value → List Bytes
  | [] => []
  | v :: vs => names v ++ namesAll vs

end

structure Sound (v : Value) : Prop where
  whole : v.isWhole
  names : ∀ x ∈ v.names, Scan.IsName x

theorem mem_namesAll {x : Bytes} {vs : List Value} :
    x ∈ namesAll vs ↔ ∃ v ∈ vs, x ∈ v.names := by
  induction vs with
  | nil => simp [namesAll]
  | cons v vs ih => simp [namesAll, ih]

theorem areWhole_iff {vs : List Value} : areWhole vs ↔ ∀ v ∈ vs, v.isWhole := by
  induction vs with
  | nil => simp [areWhole]
  | cons v vs ih => simp [areWhole, ih]

theorem sound_int (n : Int64) : (int n).Sound :=
  ⟨rfl, by simp [names]⟩

theorem sound_bool (b : Bool) : (bool b).Sound :=
  ⟨rfl, by simp [names]⟩

theorem sound_nil : nil.Sound :=
  ⟨rfl, by simp [names]⟩

theorem sound_symbol {name : Bytes} (h : Scan.IsName name) : (symbol name).Sound :=
  ⟨rfl, by simpa [names] using h⟩

theorem sound_list {vs : List Value} (h : ∀ v ∈ vs, v.Sound) : (list vs).Sound := by
  refine ⟨areWhole_iff.mpr fun v hv => (h v hv).whole, ?_⟩
  intro x hx
  obtain ⟨v, hv, hxv⟩ := mem_namesAll.mp hx
  exact (h v hv).names x hxv

theorem Sound.ne_absent {v : Value} (h : v.Sound) : v ≠ .absent := by
  rintro rfl
  exact absurd h.whole (by simp [isWhole])

theorem ofExprs_eq (done : List Value) (es : List Expr) :
    ofExprs done es = done.reverse ++ es.map ofExpr := by
  induction es generalizing done with
  | nil => simp [ofExprs]
  | cons e es ih => simp [ofExprs, ih]

end Value

/-- Nothing is absent in an expression that is taken as data, since what is absent becomes `nil`. -/
theorem Value.isWhole_ofExpr (e : Expr) : (ofExpr e).isWhole := by
  induction e using Expr.induct with
  | form span elems ih =>
      rw [ofExpr, ofExprs_eq, List.reverse_nil, List.nil_append, isWhole, areWhole_iff,
        List.forall_mem_map]
      exact ih
  | _ => rfl

/-- A sound expression taken as data is sound. -/
theorem Expr.Sound.ofExpr {e : Expr} (h : e.Sound) : (Value.ofExpr e).Sound := by
  induction e using Expr.induct with
  | int span n =>
      rw [Value.ofExpr]
      exact Value.sound_int n
  | symbol span name =>
      rw [Value.ofExpr]
      exact Value.sound_symbol (Expr.sound_symbol_iff.mp h)
  | form span elems ih =>
      rw [Value.ofExpr, Value.ofExprs_eq]
      apply Value.sound_list
      intro v hv
      obtain ⟨e, he, rfl⟩ : ∃ e ∈ elems, Value.ofExpr e = v := by simpa using hv
      exact ih e he (Expr.sound_form_iff.mp h e he)
  | absent => exact absurd h Expr.not_sound_absent

structure Function.Sound (f : Function) : Prop where
  params : ∀ x ∈ f.params, Scan.IsName x
  nonempty : f.body ≠ []
  body : ∀ e ∈ f.body, e.Sound

/-- A frame is sound when its bindings are, with their names. -/
def Frame.Sound (f : Frame) : Prop :=
  f.Each (fun x v => Scan.IsName x ∧ v.Sound) fun x fn => Scan.IsName x ∧ fn.name = x ∧ fn.Sound

/-- A scope is sound when all its frames are. -/
def Scope.Sound (s : Scope) : Prop :=
  s.Each (fun x v => Scan.IsName x ∧ v.Sound) fun x fn => Scan.IsName x ∧ fn.name = x ∧ fn.Sound

/-- Whether nothing in the body of a function is absent. -/
def Function.Whole (f : Function) : Prop :=
  ∀ e ∈ f.body, e.isWhole

/-- Whether nothing that is bound in a frame is absent. -/
def Frame.Whole (f : Frame) : Prop :=
  f.Each (fun _ v => v.isWhole) fun _ fn => fn.Whole

/-- A scope is whole when all its frames are. -/
def Scope.Whole (s : Scope) : Prop :=
  s.Each (fun _ v => v.isWhole) fun _ fn => fn.Whole

theorem Scope.Sound.whole {s : Scope} (h : s.Sound) : s.Whole :=
  Scope.Each.imp h (fun _ _ hv => hv.2.whole) fun _ _ hfn e he => (hfn.2.2.body e he).whole

end LineLisp
