import LineLisp.Expr.Read

/-!
The grammar of expressions,

    E ::= ATOM | '(' E* ')' | QUOTE E

where an atom is any token that is no parenthesis, no quote mark and no end of line. A
derivation holds the tokens that it derives; the main statement is that no token list has two,
so the grammar is unambiguous also for sequences of expressions.
-/

namespace LineLisp

/-- Whether a token is an expression by itself. -/
def Token.isAtom (t : Token) : Bool :=
  match t.kind with
  | .eof | .lparen | .rparen | .quote => false
  | .operator | .word | .other _ => true

inductive Derivation where
  | atom (t : Token) (h : t.isAtom)
  | form (opened closed : Token) (hopened : opened.kind = .lparen) (hclosed : closed.kind = .rparen)
      (elems : List Derivation)
  | quote (mark : Token) (hmark : mark.kind = .quote) (inner : Derivation)

namespace Derivation

/-- Induction over derivations, with the hypothesis for every element of a form. -/
@[elab_as_elim]
theorem induct {motive : Derivation → Prop}
    (atom : ∀ t h, motive (.atom t h))
    (form : ∀ opened closed hopened hclosed elems, (∀ d ∈ elems, motive d) →
      motive (.form opened closed hopened hclosed elems))
    (quote : ∀ mark hmark inner, motive inner → motive (.quote mark hmark inner))
    (d : Derivation) : motive d :=
  @Derivation.rec motive (fun ds => ∀ d ∈ ds, motive d) atom form quote
    (by simp)
    (by
      intro d ds hd hds x hx
      rcases List.mem_cons.mp hx with rfl | hx
      · exact hd
      · exact hds x hx)
    d

mutual

/-- The tokens that a derivation derives. -/
def tokens : Derivation → List Token
  | .atom t _ => [t]
  | .form opened closed _ _ elems => opened :: (tokensAll elems ++ [closed])
  | .quote mark _ inner => mark :: tokens inner

def tokensAll : List Derivation → List Token
  | [] => []
  | d :: ds => tokens d ++ tokensAll ds

end

mutual

/-- The expression that a derivation stands for. A quote mark gives the form of the symbol
`quote` and the expression after it. -/
def expr : Derivation → Expr
  | .atom t _ => Read.atom t
  | .form opened closed _ _ elems => .form (opened.span.cover closed.span) (exprs elems)
  | .quote mark _ inner =>
      .form (mark.span.cover (expr inner).span) [.symbol mark.span Token.quoteName, expr inner]

def exprs : List Derivation → List Expr
  | [] => []
  | d :: ds => expr d :: exprs ds

end

theorem tokensAll_append (ds ds' : List Derivation) :
    tokensAll (ds ++ ds') = tokensAll ds ++ tokensAll ds' := by
  induction ds with
  | nil => rfl
  | cons d ds ih => simp [tokensAll, ih]

@[simp]
theorem tokensAll_singleton (d : Derivation) : tokensAll [d] = d.tokens := by
  simp [tokensAll]

theorem exprs_eq_map (ds : List Derivation) : exprs ds = ds.map expr := by
  induction ds with
  | nil => rfl
  | cons d ds ih => simp [exprs, ih]

/-- A derivation begins with a token that ends nothing. -/
theorem tokens_eq_cons (d : Derivation) :
    ∃ t rest, d.tokens = t :: rest ∧ t.kind ≠ .rparen ∧ t.kind ≠ .eof := by
  cases d with
  | atom t h =>
      refine ⟨t, [], rfl, ?_, ?_⟩
      · intro hkind
        simp [Token.isAtom, hkind] at h
      · intro hkind
        simp [Token.isAtom, hkind] at h
  | form opened closed hopened hclosed elems =>
      exact ⟨opened, _, rfl, by simp [hopened], by simp [hopened]⟩
  | quote mark hmark inner =>
      exact ⟨mark, _, rfl, by simp [hmark], by simp [hmark]⟩

/-- Whether derivations are read off the front of their tokens in one way, whatever follows. -/
private def Determined (d : Derivation) : Prop :=
  ∀ d' rest rest', d.tokens ++ rest = d'.tokens ++ rest' → d = d' ∧ rest = rest'

/-- Elements are determined up to the parenthesis that closes them. -/
private theorem elems_determined {ds ds' : List Derivation} (h : ∀ d ∈ ds, Determined d)
    {closed closed' : Token} {rest rest' : List Token}
    (hclosed : closed.kind = .rparen) (hclosed' : closed'.kind = .rparen)
    (heq : tokensAll ds ++ closed :: rest = tokensAll ds' ++ closed' :: rest') :
    ds = ds' ∧ closed = closed' ∧ rest = rest' := by
  induction ds generalizing ds' with
  | nil =>
      cases ds' with
      | nil => simpa [tokensAll] using heq
      | cons d' ds' =>
          obtain ⟨t, more, htokens, hkind, -⟩ := d'.tokens_eq_cons
          simp only [tokensAll, htokens, List.nil_append, List.cons_append, List.cons.injEq] at heq
          exact absurd (heq.1 ▸ hclosed) hkind
  | cons d ds ih =>
      cases ds' with
      | nil =>
          obtain ⟨t, more, htokens, hkind, -⟩ := d.tokens_eq_cons
          simp only [tokensAll, htokens, List.nil_append, List.cons_append, List.cons.injEq] at heq
          exact absurd (heq.1 ▸ hclosed') hkind
      | cons d' ds' =>
          simp only [tokensAll, List.append_assoc] at heq
          obtain ⟨rfl, htail⟩ := h d (by simp) d' _ _ heq
          obtain ⟨rfl, hends⟩ := ih (fun d hd => h d (by simp [hd])) htail
          exact ⟨rfl, hends⟩

private theorem determined (d : Derivation) : Determined d := by
  induction d using induct with
  | atom t h =>
      intro d' rest rest' heq
      cases d' with
      | atom t' h' =>
          simp only [tokens, List.singleton_append, List.cons.injEq] at heq
          obtain ⟨rfl, rfl⟩ := heq
          exact ⟨rfl, rfl⟩
      | form opened closed hopened hclosed elems =>
          simp only [tokens, List.cons_append, List.cons.injEq] at heq
          obtain ⟨rfl, -⟩ := heq
          simp [Token.isAtom, hopened] at h
      | quote mark hmark inner =>
          simp only [tokens, List.cons_append, List.cons.injEq] at heq
          obtain ⟨rfl, -⟩ := heq
          simp [Token.isAtom, hmark] at h
  | form opened closed hopened hclosed elems ih =>
      intro d' rest rest' heq
      cases d' with
      | atom t' h' =>
          simp only [tokens, List.cons_append, List.cons.injEq] at heq
          obtain ⟨rfl, -⟩ := heq
          simp [Token.isAtom, hopened] at h'
      | form opened' closed' hopened' hclosed' elems' =>
          simp only [tokens, List.cons_append, List.append_assoc, List.nil_append,
            List.cons.injEq] at heq
          obtain ⟨rfl, heq⟩ := heq
          obtain ⟨rfl, rfl, rfl⟩ := elems_determined ih hclosed hclosed' heq
          exact ⟨rfl, rfl⟩
      | quote mark hmark inner =>
          simp only [tokens, List.cons_append, List.cons.injEq] at heq
          obtain ⟨rfl, -⟩ := heq
          simp [hopened] at hmark
  | quote mark hmark inner ih =>
      intro d' rest rest' heq
      cases d' with
      | atom t' h' =>
          simp only [tokens, List.cons_append, List.cons.injEq] at heq
          obtain ⟨rfl, -⟩ := heq
          simp [Token.isAtom, hmark] at h'
      | form opened closed hopened hclosed elems =>
          simp only [tokens, List.cons_append, List.cons.injEq] at heq
          obtain ⟨rfl, -⟩ := heq
          simp [hopened] at hmark
      | quote mark' hmark' inner' =>
          simp only [tokens, List.cons_append, List.cons.injEq] at heq
          obtain ⟨rfl, heq⟩ := heq
          obtain ⟨rfl, rfl⟩ := ih inner' rest rest' heq
          exact ⟨rfl, rfl⟩

/-- The grammar is unambiguous: tokens have at most one derivation as a sequence of
expressions. -/
theorem tokensAll_injective {ds ds' : List Derivation} (h : tokensAll ds = tokensAll ds') :
    ds = ds' := by
  induction ds generalizing ds' with
  | nil =>
      cases ds' with
      | nil => rfl
      | cons d' ds' =>
          obtain ⟨t, more, htokens, -⟩ := d'.tokens_eq_cons
          simp [tokensAll, htokens] at h
  | cons d ds ih =>
      cases ds' with
      | nil =>
          obtain ⟨t, more, htokens, -⟩ := d.tokens_eq_cons
          simp [tokensAll, htokens] at h
      | cons d' ds' =>
          obtain ⟨rfl, htail⟩ := determined d d' _ _ h
          rw [ih htail]

theorem tokens_injective {d d' : Derivation} (h : d.tokens = d'.tokens) : d = d' := by
  have hlists : [d] = [d'] := tokensAll_injective (by simpa using h)
  simpa using hlists

end Derivation

end LineLisp
