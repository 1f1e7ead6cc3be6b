import LineLisp.Eval
import LineLisp.Proofs.Expr.Unplaced

/-!
Values behind a quote mark. The text of a sound value is the text of a sound expression too, and a
quote mark before it makes a line that evaluates to the value again, except that booleans and `nil`
come back as the symbols that they are written as. So the text of a value tells all of it that is
no boolean and not `nil`.
-/

namespace LineLisp

namespace Value

/-- Induction over values, with the hypothesis for every element of a list. -/
@[elab_as_elim]
theorem induct {motive : Value → Prop}
    (int : ∀ n, motive (.int n))
    (bool : ∀ b, motive (.bool b))
    (symbol : ∀ name, motive (.symbol name))
    (list : ∀ elems, (∀ v ∈ elems, motive v) → motive (.list elems))
    (nil : motive .nil)
    (absent : motive .absent) (v : Value) : motive v :=
  @Value.rec motive (fun vs => ∀ v ∈ vs, motive v) int bool symbol list nil absent
    (by simp)
    (by
      intro v vs hv hvs x hx
      rcases List.mem_cons.mp hx with rfl | hx
      · exact hv
      · exact hvs x hx)
    v

/-- The name that a boolean is written as. -/
def boolName (b : Bool) : Bytes :=
  if b then utf8 "true" else utf8 "false"

mutual

/-- The value with each boolean and each `nil` replaced by the symbol that it is written as. -/
def spelled : Value → Value
  | .bool b => .symbol (boolName b)
  | .nil => .symbol (utf8 "nil")
  | .list elems => .list (spelledAll elems)
  | .int n => .int n
  | .symbol name => .symbol name
  | .absent => .absent

def spelledAll : List Value → List Value
  | [] => []
  | v :: vs => spelled v :: spelledAll vs

end

mutual

/-- Whether a value has neither a boolean nor `nil` in it. -/
def isPlain : Value → Bool
  | .bool _ | .nil => false
  | .list elems => arePlain elems
  | .int _ | .symbol _ | .absent => true

def arePlain : List Value → Bool
  | [] => true
  | v :: vs => isPlain v && arePlain vs

end

mutual

/-- The expression with the text of a value. -/
def quotation : Value → Expr
  | .bool b => .symbol .zero (boolName b)
  | .nil => .symbol .zero (utf8 "nil")
  | .list elems => .form .zero (quotations elems)
  | .int n => .int .zero n
  | .symbol name => .symbol .zero name
  | .absent => .absent

def quotations : List Value → List Expr
  | [] => []
  | v :: vs => quotation v :: quotations vs

end

theorem spelledAll_eq_map (vs : List Value) : spelledAll vs = vs.map spelled := by
  induction vs with
  | nil => rfl
  | cons v vs ih => rw [spelledAll, ih, List.map_cons]

theorem quotations_eq_map (vs : List Value) : quotations vs = vs.map quotation := by
  induction vs with
  | nil => rfl
  | cons v vs ih => rw [quotations, ih, List.map_cons]

theorem arePlain_iff {vs : List Value} : arePlain vs ↔ ∀ v ∈ vs, v.isPlain := by
  induction vs with
  | nil => simp [arePlain]
  | cons v vs ih => simp [arePlain, ih]

theorem spelled_eq_self {v : Value} (h : v.isPlain) : v.spelled = v := by
  induction v using induct with
  | bool b => cases h
  | nil => cases h
  | list elems ih =>
      have helems : elems.map spelled = elems.map id :=
        List.map_congr_left fun v hv => ih v hv (arePlain_iff.mp h v hv)
      rw [spelled, spelledAll_eq_map, helems, List.map_id]
  | _ => rfl

theorem sameAll_self {vs : List Value} (h : ∀ v ∈ vs, v.same v) : sameAll vs vs := by
  induction vs with
  | nil => rfl
  | cons v vs ih =>
      have hrest : sameAll vs vs := ih fun u hu => h u (by simp [hu])
      rw [sameAll, h v (by simp), hrest, Bool.and_self]

/-- A value without an absent part is shown as its text. -/
theorem shown_of_whole {v : Value} (h : v.isWhole) : v.shown = v.text := by
  cases v with
  | absent => cases h
  | _ => simp [shown, h]

/-- A value without an absent part equals itself. -/
theorem same_self {v : Value} (h : v.isWhole) : v.same v := by
  induction v using induct with
  | absent => cases h
  | list elems ih =>
      rw [same]
      apply sameAll_self
      intro v hv
      exact ih v hv (areWhole_iff.mp h v hv)
  | _ => simp [same]

theorem ofExpr_quotation {v : Value} (h : v.isWhole) : ofExpr v.quotation = v.spelled := by
  induction v using induct with
  | absent => cases h
  | list elems ih =>
      have helems : elems.map (ofExpr ∘ quotation) = elems.map spelled :=
        List.map_congr_left fun v hv => ih v hv (areWhole_iff.mp h v hv)
      rw [quotation, ofExpr, ofExprs_eq, quotations_eq_map, List.map_map, helems, spelled,
        spelledAll_eq_map, List.reverse_nil, List.nil_append]
  | _ => rfl

theorem pushRest_quotations {vs : List Value}
    (h : ∀ v ∈ vs, ∀ written, Expr.push written v.quotation = push written v) (written : Bytes) :
    Expr.pushRest written (quotations vs) = pushRest written vs := by
  induction vs generalizing written with
  | nil => rfl
  | cons v vs ih =>
      rw [quotations, Expr.pushRest, pushRest, h v (by simp), ih fun u hu => h u (by simp [hu])]

/-- A value and its quotation are written alike. -/
theorem push_quotation (written : Bytes) (v : Value) :
    Expr.push written v.quotation = push written v := by
  induction v using induct generalizing written with
  | bool b => cases b <;> rfl
  | list elems ih =>
      cases elems with
      | nil => rfl
      | cons v vs =>
          have hrest : ∀ u ∈ vs, ∀ written, Expr.push written u.quotation = push written u :=
            fun u hu => ih u (by simp [hu])
          rw [quotation, quotations, Expr.push, push, ih v (by simp),
            pushRest_quotations hrest]
  | _ => rfl

theorem text_quotation (v : Value) : v.quotation.text = v.text := by
  rw [Expr.text, push_quotation, text]

theorem isName_boolName (b : Bool) : Scan.IsName (boolName b) := by
  cases b with
  | true => exact Scan.isName_of_isLexeme (.inl rfl) (by decide +kernel) (by decide +kernel)
  | false => exact Scan.isName_of_isLexeme (.inl rfl) (by decide +kernel) (by decide +kernel)

theorem Sound.quotation {v : Value} (h : v.Sound) : v.quotation.Sound := by
  induction v using induct with
  | int n => exact Expr.sound_int _ _
  | bool b => exact Expr.sound_symbol_iff.mpr (isName_boolName b)
  | symbol name => exact Expr.sound_symbol_iff.mpr (h.names name (by simp [Value.names]))
  | nil =>
      apply Expr.sound_symbol_iff.mpr
      exact Scan.isName_of_isLexeme (.inl rfl) (by decide +kernel) (by decide +kernel)
  | absent => exact absurd rfl h.ne_absent
  | list elems ih =>
      rw [Value.quotation, quotations_eq_map, Expr.sound_form_iff, List.forall_mem_map]
      intro v hv
      apply ih v hv
      refine ⟨areWhole_iff.mp h.whole v hv, ?_⟩
      intro x hx
      exact h.names x (mem_namesAll.mpr ⟨v, hv, hx⟩)

end Value

/-- After a quote mark a text is found as it is by itself. -/
theorem Scan.Scans.mark {text : Bytes} {lexemes : List (Token.Kind × Bytes)}
    (h : Scans text lexemes) : Scans (0x27 :: text) ((.quote, Token.quoteName) :: lexemes) := by
  intro s hs
  have hmark := read_single s .quote Token.quoteName true
  rw [flush_of_gap hs] at hmark
  obtain ⟨hmode, hread⟩ := h (s.single .quote Token.quoteName true) rfl
  rw [List.foldl_cons, step_mark hs]
  refine ⟨hmode, ?_⟩
  rw [hread, hmark, List.append_assoc, List.singleton_append]

/-- A quote mark and the text of a sound expression are read as the same expression, quoted. -/
theorem Read.one_mark {e : Expr} (h : e.Sound) (line : Int) :
    ∃ mark e', Read.one none (Scan.tokens line (0x27 :: e.text)) = .ok (Read.quoted mark e') ∧
      e.same e' := by
  obtain ⟨lexemes, hscans, hderived⟩ := h.spells.exists_derivation
  obtain ⟨mark, rest, hbody, hmark, hrest⟩ :=
    List.map_eq_cons_iff.mp (hscans.mark.body_tokens line)
  obtain ⟨d, htokens, hsame⟩ := hderived rest hrest
  have hkind : mark.kind = .quote := congrArg Prod.fst hmark
  refine ⟨mark.span, d.expr, Read.one_eq_ok_iff.mpr ⟨.quote mark hkind d, ?_, rfl, rfl⟩, hsame⟩
  rw [hbody, Derivation.tokens, ← htokens]

/-- A limit that is on allows one level at least. -/
theorem DepthLimit.crossed_one_ofInt (n : Int) : (DepthLimit.ofInt n).crossed 1 = none := by
  rw [DepthLimit.crossed_eq_none_iff]
  intro m hm
  unfold DepthLimit.ofInt at hm
  split at hm
  · cases hm
    omega
  · cases hm

/-- A quoted expression evaluates to itself as data and leaves the scope as it is. -/
theorem Eval.evaluate_quoted {o : Options} (h : o.limit.crossed 1 = none) (mark : Span) (e : Expr)
    (s : Scope) : evaluate o (Read.quoted mark e) s = (.value (.ofExpr e), s) := by
  obtain ⟨fuel, hfuel⟩ : ∃ fuel, o.fuel = fuel + 1 := by
    unfold Options.fuel
    cases o.limit with
    | some n => exact ⟨n, rfl⟩
    | none => exact ⟨0x7FFFFFFFFFFFFFFF, rfl⟩
  have hop : Operator.ofName? Token.quoteName = some .quote := by decide +kernel
  have hrun : run o (Read.quoted mark e) s = .done (.ofExpr e) s := by
    unfold run
    rw [hfuel]
    simp only [eval, h, Read.quoted, form, apply, hop, operate]
    rfl
  rw [evaluate, hrun]

/-- A quote mark and the text of a sound value evaluate to the value as it is spelled. -/
theorem Value.Sound.exists_read {v : Value} (h : v.Sound) (line : Int) :
    ∃ e, Read.one none (Scan.tokens line (0x27 :: v.text)) = .ok e ∧
      ∀ (o : Eval.Options) (s : Scope), o.limit.crossed 1 = none →
        Eval.evaluate o e s = (.value v.spelled, s) := by
  obtain ⟨mark, e, hread, hsame⟩ := Read.one_mark h.quotation line
  rw [text_quotation] at hread
  refine ⟨_, hread, ?_⟩
  intro o s hlimit
  have hdata : ofExpr e = v.spelled := by
    have hplaces := (Expr.same_iff_unplaced.mp hsame).2
    rw [← Expr.ofExpr_unplaced, ← hplaces, Expr.ofExpr_unplaced, ofExpr_quotation h.whole]
  rw [Eval.evaluate_quoted hlimit, hdata]

/-- Sound values that are written alike are spelled alike. -/
theorem Value.Sound.spelled_eq {u v : Value} (hu : u.Sound) (hv : v.Sound)
    (htext : u.text = v.text) : u.spelled = v.spelled := by
  obtain ⟨e, hread, heval⟩ := hu.exists_read 1
  obtain ⟨e', hread', heval'⟩ := hv.exists_read 1
  rw [htext, hread', Except.ok.injEq] at hread
  subst hread
  have hvalue := heval ⟨false, none⟩ (.root .empty) rfl
  rw [heval' ⟨false, none⟩ (.root .empty) rfl, Prod.mk.injEq, Eval.Result.value.injEq] at hvalue
  exact hvalue.1.symm

end LineLisp
