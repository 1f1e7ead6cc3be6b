import LineLisp.Proofs.Expr.Derivation
import LineLisp.Proofs.Text.Decimal

/-!
Reading is deriving. The reader succeeds exactly on the token lists that the grammar derives,
with the expressions that their derivations stand for, as long as the depth limit is at least
the height of each; beyond that it fails for the limit and nothing else.
-/

namespace LineLisp

namespace DepthLimit

theorem crossed_eq_none_iff {limit : DepthLimit} {depth : Nat} :
    limit.crossed depth = none ↔ ∀ n, limit = some n → depth ≤ n := by
  cases limit with
  | none => simp [crossed]
  | some n => simp [crossed]

theorem eq_some_of_crossed {limit : DepthLimit} {depth n : Nat}
    (h : limit.crossed depth = some n) : limit = some n := by
  cases limit with
  | none => cases h
  | some m =>
      simp only [crossed, Option.ite_none_right_eq_some] at h
      exact h.2

theorem crossed_mono {limit : DepthLimit} {depth depth' n : Nat} (h : depth ≤ depth')
    (hcrossed : limit.crossed depth = some n) : limit.crossed depth' = some n := by
  cases limit with
  | none => simp [crossed] at hcrossed
  | some m =>
      simp only [crossed, Option.ite_none_right_eq_some, Option.some.injEq] at hcrossed ⊢
      exact ⟨by omega, hcrossed.2⟩

theorem crossed_ofInt_of_nonpos {n : Int} (h : n ≤ 0) (depth : Nat) :
    (ofInt n).crossed depth = none := by
  simp [ofInt, Int.not_lt.mpr h, crossed]

theorem crossed_ofInt_of_pos {n : Int} (h : 0 < n) (depth : Nat) :
    (ofInt n).crossed depth = if n < depth then some n.toNat else none := by
  have hlt : n.toNat < depth ↔ n < depth := by omega
  simp [ofInt, h, crossed, hlt]

theorem crossed_ofInt_eq_none_iff {n : Int} (h : 0 < n) {depth : Nat} :
    (ofInt n).crossed depth = none ↔ depth ≤ n := by
  rw [crossed_ofInt_of_pos h]
  simp

theorem not_crossed_mono {limit : DepthLimit} {depth depth' : Nat} (h : depth ≤ depth')
    (hfree : limit.crossed depth' = none) : limit.crossed depth = none := by
  rw [crossed_eq_none_iff] at hfree ⊢
  intro n hn
  exact Nat.le_trans h (hfree n hn)

end DepthLimit

theorem Expr.height_pos (e : Expr) : 0 < e.height := by
  cases e <;> simp [Expr.height]

theorem Expr.height_quoted (mark : Span) (e : Expr) :
    (Read.quoted mark e).height = e.height + 1 := by
  have hpos := e.height_pos
  simp only [Read.quoted, Expr.height, Expr.heightAll]
  omega

theorem Derivation.expr_quote (mark : Token) (hmark : mark.kind = .quote) (inner : Derivation) :
    (Derivation.quote mark hmark inner).expr = Read.quoted mark.span inner.expr := rfl

theorem Read.height_atom (t : Token) : (Read.atom t).height = 1 := by
  unfold Read.atom
  split <;> rfl

namespace Read

/-- A run that succeeds in two parts has succeeded in the first. -/
theorem exists_ok_of_bind {α β : Type} {x : Except Diagnostic α} {f : α → Except Diagnostic β}
    {b : β} (h : x >>= f = .ok b) : ∃ a, x = .ok a ∧ f a = .ok b := by
  cases x with
  | error d => cases h
  | ok a => exact ⟨a, rfl, h⟩

/-- Hands a finished expression to what waits for it in a state. -/
def State.take (s : State) (e : Expr) : State :=
  put s.done e s.pending s.depth s.depth_eq

section steps

variable (limit : DepthLimit) (s : State) {t : Token}

theorem step_eq_enter (ht : t.kind ≠ .rparen) : step limit s t = enter limit s t := by
  obtain ⟨kind, lexeme, span⟩ := t
  cases kind with
  | rparen => exact absurd rfl ht
  | _ => rfl

theorem step_close (opened : Span) (elems : List Expr) (ht : t.kind = .rparen) :
    step limit (s.begin (.form opened elems)) t =
      .ok (s.take (.form (opened.cover t.span) elems.reverse)) := by
  obtain ⟨kind, lexeme, span⟩ := t
  subst ht
  rfl

theorem enter_tooDeep {n : Nat} (h : limit.crossed (s.depth + 1) = some n) :
    enter limit s t = .error ((Fault.tooDeep n).diagnostic t.span) := by
  simp [enter, h]

theorem enter_open (h : limit.crossed (s.depth + 1) = none) (ht : t.kind = .lparen) :
    enter limit s t = .ok (s.begin (.form t.span [])) := by
  simp [enter, h, ht]

theorem enter_quote (h : limit.crossed (s.depth + 1) = none) (ht : t.kind = .quote) :
    enter limit s t = .ok (s.begin (.quote t.span)) := by
  simp [enter, h, ht]

theorem enter_atom (h : limit.crossed (s.depth + 1) = none) (ht : t.isAtom) :
    enter limit s t = .ok (s.take (atom t)) := by
  obtain ⟨kind, lexeme, span⟩ := t
  cases kind <;> simp_all [enter, Token.isAtom, State.take]

end steps

/-- What a run over the tokens of something of the given height comes to, from a state of the
given depth: the state `next`, or the failure for the limit when it is too high. -/
def Comes (limit : DepthLimit) (depth height : Nat) (run : Except Diagnostic State)
    (next : State) : Prop :=
  (limit.crossed (depth + height) = none → run = .ok next) ∧
  (∀ n, limit.crossed (depth + height) = some n →
    ∃ span, run = .error ((Fault.tooDeep n).diagnostic span))

/-- Comparing with the height of the first of two things read one after the other. -/
theorem Comes.bind {limit : DepthLimit} {depth first second : Nat} {run : Except Diagnostic State}
    {middle next : State} {rest : State → Except Diagnostic State}
    (hfirst : Comes limit depth first run middle)
    (hsecond : Comes limit depth second (rest middle) next) :
    Comes limit depth (max first second) (run >>= rest) next := by
  constructor
  · intro hfree
    rw [hfirst.1 (DepthLimit.not_crossed_mono (by omega) hfree)]
    exact hsecond.1 (DepthLimit.not_crossed_mono (by omega) hfree)
  · intro n hcrossed
    cases hcase : limit.crossed (depth + first) with
    | some m =>
        have hm : limit.crossed (depth + max first second) = some m :=
          DepthLimit.crossed_mono (by omega) hcase
        obtain rfl : m = n := by simpa [hm] using hcrossed
        obtain ⟨span, herror⟩ := hfirst.2 m hcase
        exact ⟨span, by rw [herror]; rfl⟩
    | none =>
        have hmax : max first second = second := by
          rcases Nat.le_total first second with hle | hle
          · exact Nat.max_eq_right hle
          · rw [Nat.max_eq_left hle, hcase] at hcrossed
            cases hcrossed
        rw [hfirst.1 hcase]
        rw [hmax] at hcrossed
        exact hsecond.2 n hcrossed

/-- Opening something costs one level, and what is inside is read a level deeper. -/
theorem Comes.enter {limit : DepthLimit} {s next : State} {t : Token} {opening : Opening}
    {height : Nat} {rest : State → Except Diagnostic State}
    (henter : limit.crossed (s.depth + 1) = none → enter limit s t = .ok (s.begin opening))
    (hrest : limit.crossed (s.depth + 1) = none →
      Comes limit (s.depth + 1) height (rest (s.begin opening)) next) :
    Comes limit s.depth (height + 1) (Read.enter limit s t >>= rest) next := by
  have hdepth : s.depth + (height + 1) = s.depth + 1 + height := by omega
  unfold Comes
  rw [hdepth]
  cases hcase : limit.crossed (s.depth + 1) with
  | some m =>
      have hm : limit.crossed (s.depth + 1 + height) = some m :=
        DepthLimit.crossed_mono (by omega) hcase
      refine ⟨by simp [hm], ?_⟩
      intro n hn
      obtain rfl : m = n := by simpa [hm] using hn
      exact ⟨t.span, by rw [enter_tooDeep limit s hcase]; rfl⟩
  | none =>
      rw [henter hcase]
      exact hrest hcase

section complete

variable (limit : DepthLimit) {go : State → Token → Except Diagnostic State}

/-- Elements are collected in the innermost open form. -/
theorem elems_come (hgo : ∀ s t, s.pending ≠ [] → go s t = step limit s t)
    {ds : List Derivation} {s : State} (opened : Span) (elems : List Expr)
    (hds : ∀ d ∈ ds, ∀ s, (∀ t, go s t = step limit s t) →
      Comes limit s.depth d.expr.height (d.tokens.foldlM go s) (s.take d.expr))
    (hopen : limit.crossed (s.depth + 1) = none) :
    Comes limit (s.depth + 1) (Expr.heightAll (Derivation.exprs ds))
      ((Derivation.tokensAll ds).foldlM go (s.begin (.form opened elems)))
      (s.begin (.form opened ((Derivation.exprs ds).reverse ++ elems))) := by
  induction ds generalizing elems with
  | nil =>
      refine ⟨fun _ => rfl, ?_⟩
      intro n hn
      simp [Derivation.exprs, Expr.heightAll, hopen] at hn
  | cons d ds ih =>
      have hd := hds d (by simp) (s.begin (.form opened elems))
        fun t => hgo _ t (by simp [State.begin])
      have hrest := ih (d.expr :: elems) fun d hd => hds d (by simp [hd])
      simp only [Derivation.tokensAll, Derivation.exprs, Expr.heightAll, List.foldlM_append,
        List.reverse_cons, List.append_assoc, List.singleton_append]
      exact hd.bind hrest

/-- Reading the tokens of a derivation hands its expression to what waits for it. `go` may be any
way to take tokens that agrees with `step` where something is open. -/
theorem derivation_comes (hgo : ∀ s t, s.pending ≠ [] → go s t = step limit s t)
    (d : Derivation) (s : State) (hs : ∀ t, go s t = step limit s t) :
    Comes limit s.depth d.expr.height (d.tokens.foldlM go s) (s.take d.expr) := by
  induction d using Derivation.induct generalizing s with
  | atom t h =>
      have hkind : t.kind ≠ .rparen := by
        intro hkind
        simp [Token.isAtom, hkind] at h
      simp only [Derivation.tokens, Derivation.expr, List.foldlM_cons, List.foldlM_nil, bind_pure,
        height_atom, hs t, step_eq_enter limit s hkind]
      exact ⟨fun hfree => enter_atom limit s hfree h,
        fun n hcrossed => ⟨t.span, enter_tooDeep limit s hcrossed⟩⟩
  | form opened closed hopened hclosed elems ih =>
      have hkind : opened.kind ≠ .rparen := by simp [hopened]
      simp only [Derivation.tokens, Derivation.expr, List.foldlM_cons, hs opened,
        step_eq_enter limit s hkind, Expr.height]
      refine Comes.enter (fun hfree => enter_open limit s hfree hopened) fun hfree => ?_
      have helems := elems_come limit hgo opened.span [] ih hfree
      have hclose : Comes limit (s.depth + 1) 0
          ([closed].foldlM go (s.begin (.form opened.span (Derivation.exprs elems).reverse)))
          (s.take (.form (opened.span.cover closed.span) (Derivation.exprs elems))) := by
        refine ⟨fun _ => ?_, fun n hn => by simp [hfree] at hn⟩
        rw [List.foldlM_cons, hgo _ _ (by simp [State.begin]), step_close limit s _ _ hclosed,
          List.reverse_reverse]
        rfl
      rw [List.append_nil] at helems
      rw [List.foldlM_append, ← Nat.max_zero (Expr.heightAll _)]
      exact helems.bind hclose
  | quote mark hmark inner ih =>
      have hkind : mark.kind ≠ .rparen := by simp [hmark]
      simp only [Derivation.tokens, Derivation.expr_quote, List.foldlM_cons, hs mark,
        step_eq_enter limit s hkind, Expr.height_quoted]
      refine Comes.enter (fun hfree => enter_quote limit s hfree hmark) fun _ => ?_
      exact ih (s.begin (.quote mark.span)) fun t => hgo _ t (by simp [State.begin])

end complete

/-- The tokens that something open has taken so far. -/
def Opening.Holds : Opening → List Token → Prop
  | .form opened elems, taken => ∃ t ds, t.kind = .lparen ∧ t.span = opened ∧
      Derivation.exprs ds = elems.reverse ∧ taken = t :: Derivation.tokensAll ds
  | .quote mark, taken => ∃ t, t.kind = .quote ∧ t.span = mark ∧ taken = [t]

/-- The tokens that all open things have taken, outermost first. -/
def HoldsPending : List Opening → List Token → Prop
  | [], taken => taken = []
  | opening :: outer, taken => ∃ before own,
      HoldsPending outer before ∧ opening.Holds own ∧ taken = before ++ own

/-- Whether a state accounts for the tokens taken: those of derivations for what is finished,
then those of what is open. -/
def State.Holds (s : State) (taken : List Token) : Prop :=
  ∃ ds waiting, Derivation.exprs ds = s.done.reverse ∧ HoldsPending s.pending waiting ∧
    taken = Derivation.tokensAll ds ++ waiting

theorem put_holds {done : List Expr} {pending : List Opening} {depth : Nat}
    (hdepth : depth = pending.length) {ds : List Derivation} {waiting : List Token}
    (hdone : Derivation.exprs ds = done.reverse) (hpending : HoldsPending pending waiting)
    (d : Derivation) :
    (put done d.expr pending depth hdepth).Holds
      (Derivation.tokensAll ds ++ waiting ++ d.tokens) := by
  induction pending generalizing d depth waiting with
  | nil =>
      obtain rfl : waiting = [] := hpending
      refine ⟨ds ++ [d], [], ?_, rfl, ?_⟩
      · simp only [Derivation.exprs_eq_map] at hdone ⊢
        simp [put, hdone]
      · simp [Derivation.tokensAll_append]
  | cons opening outer ih =>
      obtain ⟨before, own, houter, hown, rfl⟩ := hpending
      cases opening with
      | quote mark =>
          obtain ⟨t, hkind, rfl, rfl⟩ := hown
          have hlength : depth - 1 = outer.length := by simp [hdepth]
          have hquoted := ih hlength houter (.quote t hkind d)
          simpa [put, Derivation.expr_quote, Derivation.tokens] using hquoted
      | form opened elems =>
          obtain ⟨t, inner, hkind, hspan, helems, rfl⟩ := hown
          refine ⟨ds, before ++ t :: (Derivation.tokensAll inner ++ d.tokens), hdone, ?_, by simp⟩
          refine ⟨before, _, houter, ⟨t, inner ++ [d], hkind, hspan, ?_, ?_⟩, rfl⟩
          · simp only [Derivation.exprs_eq_map] at helems ⊢
            simp [helems]
          · simp [Derivation.tokensAll_append]

theorem begin_holds {s : State} {taken own : List Token} {opening : Opening}
    (h : s.Holds taken) (hown : opening.Holds own) : (s.begin opening).Holds (taken ++ own) := by
  obtain ⟨ds, waiting, hdone, hpending, rfl⟩ := h
  exact ⟨ds, waiting ++ own, hdone, ⟨waiting, own, hpending, hown, rfl⟩, by simp⟩

theorem enter_holds {limit : DepthLimit} {s next : State} {t : Token} {taken : List Token}
    (h : s.Holds taken) (ht : t.isEof = false) (hstep : enter limit s t = .ok next) :
    next.Holds (taken ++ [t]) := by
  unfold enter at hstep
  split at hstep
  · cases hstep
  · split at hstep
    · rename_i hkind
      cases hstep
      exact begin_holds h ⟨t, [], hkind, rfl, rfl, rfl⟩
    · rename_i hkind
      cases hstep
      exact begin_holds h ⟨t, hkind, rfl, rfl⟩
    · cases hstep
    · rename_i hopen hquote hclose
      cases hstep
      have hatom : t.isAtom := by
        unfold Token.isAtom
        split <;> simp_all [Token.isEof]
      obtain ⟨ds, waiting, hdone, hpending, rfl⟩ := h
      exact put_holds s.depth_eq hdone hpending (.atom t hatom)

theorem step_holds {limit : DepthLimit} {s next : State} {t : Token} {taken : List Token}
    (h : s.Holds taken) (ht : t.isEof = false) (hstep : step limit s t = .ok next) :
    next.Holds (taken ++ [t]) := by
  unfold step at hstep
  split at hstep
  · rename_i opened elems outer hkind hpending
    cases hstep
    obtain ⟨ds, waiting, hdone, hholds, rfl⟩ := h
    rw [hpending] at hholds
    obtain ⟨before, own, houter, ⟨t', inner, hkind', rfl, helems, rfl⟩, rfl⟩ := hholds
    have hlength : s.depth - 1 = outer.length := by simp [s.depth_eq, hpending]
    have hform := put_holds hlength hdone houter (.form t' t hkind' hkind inner)
    simpa [Derivation.expr, Derivation.tokens, helems] using hform
  · exact enter_holds h ht hstep

theorem foldlM_step_holds {limit : DepthLimit} {tokens : List Token} {s next : State}
    {taken : List Token} (h : s.Holds taken) (ht : ∀ t ∈ tokens, t.isEof = false)
    (hrun : tokens.foldlM (step limit) s = .ok next) : next.Holds (taken ++ tokens) := by
  induction tokens generalizing s taken with
  | nil =>
      cases hrun
      simpa using h
  | cons t rest ih =>
      rw [List.foldlM_cons] at hrun
      obtain ⟨middle, hstep, hrest⟩ := exists_ok_of_bind hrun
      have hmiddle := step_holds h (ht t (by simp)) hstep
      simpa using ih hmiddle (fun t ht' => ht t (by simp [ht'])) hrest

theorem isEof_of_mem_body {tokens : List Token} {t : Token} (h : t ∈ Token.body tokens) :
    t.isEof = false := by
  have hall := List.all_eq_true.mp (List.all_takeWhile (p := fun t => !t.isEof) (l := tokens))
  simpa using hall t h

/-- Whatever is read from the start and leaves nothing open is derived. -/
theorem derived_of_finished {limit : DepthLimit} {tokens : List Token} {s : State}
    (hrun : (Token.body tokens).foldlM (step limit) .empty = .ok s) (hpending : s.pending = []) :
    ∃ ds, Derivation.tokensAll ds = Token.body tokens ∧ Derivation.exprs ds = s.done.reverse := by
  have hempty : State.empty.Holds [] := ⟨[], [], rfl, rfl, rfl⟩
  obtain ⟨ds, waiting, hdone, hwaiting, htaken⟩ :=
    foldlM_step_holds hempty (fun t ht => isEof_of_mem_body ht) hrun
  rw [hpending] at hwaiting
  obtain rfl : waiting = [] := hwaiting
  exact ⟨ds, by simpa using htaken.symm, hdone⟩

/-- The state in which nothing is open. -/
def State.finished (done : List Expr) : State :=
  { State.empty with done := done }

theorem sequence_comes (limit : DepthLimit) (ds : List Derivation) (done : List Expr) :
    Comes limit 0 (Expr.heightAll (Derivation.exprs ds))
      ((Derivation.tokensAll ds).foldlM (step limit) (.finished done))
      (.finished ((Derivation.exprs ds).reverse ++ done)) := by
  induction ds generalizing done with
  | nil =>
      refine ⟨fun _ => rfl, ?_⟩
      intro n hn
      cases limit <;> simp [Derivation.exprs, Expr.heightAll, DepthLimit.crossed] at hn
  | cons d ds ih =>
      have hd := derivation_comes limit (fun _ _ _ => rfl) d (.finished done)
        fun _ => rfl
      simp only [Derivation.tokensAll, Derivation.exprs, Expr.heightAll, List.foldlM_append,
        List.reverse_cons, List.append_assoc, List.singleton_append]
      exact hd.bind (ih (d.expr :: done))

theorem finish_eq_ok_iff {stop : Span} {s : State} {es : List Expr} :
    finish stop s = .ok es ↔ s.pending = [] ∧ s.done.reverse = es := by
  unfold finish
  split <;> rename_i hpending <;> simp [hpending]

/-- Reading everything succeeds exactly on derived token lists within the limit. -/
theorem all_eq_ok_iff {limit : DepthLimit} {tokens : List Token} {es : List Expr} :
    all limit tokens = .ok es ↔ ∃ ds, Derivation.tokensAll ds = Token.body tokens ∧
      Derivation.exprs ds = es ∧ limit.crossed (Expr.heightAll es) = none := by
  constructor
  · intro h
    obtain ⟨s, hrun, hfinish⟩ := exists_ok_of_bind h
    obtain ⟨hpending, hdone⟩ := finish_eq_ok_iff.mp hfinish
    obtain ⟨ds, htokens, hexprs⟩ := derived_of_finished hrun hpending
    rw [hdone] at hexprs
    refine ⟨ds, htokens, hexprs, ?_⟩
    have hcomes := sequence_comes limit ds []
    rw [htokens, hexprs] at hcomes
    cases hcase : limit.crossed (Expr.heightAll es) with
    | none => rfl
    | some n =>
        obtain ⟨span, herror⟩ := hcomes.2 n (by simpa using hcase)
        have hok : (Token.body tokens).foldlM (step limit) (.finished []) = .ok s := hrun
        rw [herror] at hok
        cases hok
  · rintro ⟨ds, htokens, rfl, hfree⟩
    have hcomes := (sequence_comes limit ds []).1 (by simpa using hfree)
    unfold all
    rw [← htokens]
    change (Derivation.tokensAll ds).foldlM (step limit) (.finished []) >>= _ = _
    rw [hcomes]
    simp [State.finished, State.empty, finish, bind, Except.bind]

theorem all_tooDeep {limit : DepthLimit} {tokens : List Token} {ds : List Derivation} {n : Nat}
    (htokens : Derivation.tokensAll ds = Token.body tokens)
    (hdeep : limit.crossed (Expr.heightAll (Derivation.exprs ds)) = some n) :
    ∃ span, all limit tokens = .error ((Fault.tooDeep n).diagnostic span) := by
  obtain ⟨span, herror⟩ := (sequence_comes limit ds []).2 n (by simpa using hdeep)
  refine ⟨span, ?_⟩
  unfold all
  rw [← htokens]
  change (Derivation.tokensAll ds).foldlM (step limit) (.finished []) >>= _ = _
  rw [herror]
  rfl

theorem stepOne_eq_step {limit : DepthLimit} {s : State} (h : s.isComplete = false) (t : Token) :
    stepOne limit s t = step limit s t := by
  simp [stepOne, h]

theorem put_done (done : List Expr) (e : Expr) (pending : List Opening) (depth : Nat)
    (hdepth : depth = pending.length) :
    (put done e pending depth hdepth).done = done ∨
      ((put done e pending depth hdepth).pending = [] ∧
        ∃ last, (put done e pending depth hdepth).done = last :: done) := by
  induction pending generalizing e depth with
  | nil => exact .inr ⟨rfl, e, rfl⟩
  | cons opening outer ih =>
      cases opening with
      | form opened elems => exact .inl rfl
      | quote mark => exact ih (quoted mark e) (depth - 1) (by simp [hdepth])

theorem step_done {limit : DepthLimit} {s next : State} {t : Token}
    (h : step limit s t = .ok next) :
    next.done = s.done ∨ (next.pending = [] ∧ ∃ last, next.done = last :: s.done) := by
  unfold step at h
  split at h
  · cases h
    exact put_done ..
  · unfold enter at h
    split at h
    · cases h
    · split at h
      · cases h
        exact .inl rfl
      · cases h
        exact .inl rfl
      · cases h
      · cases h
        exact put_done ..

/-- Reading one expression takes the same steps as reading all of them, and at most one gets
finished. -/
theorem foldlM_stepOne {limit : DepthLimit} {tokens : List Token} {s next : State}
    (hs : s.done = [] ∨ (s.pending = [] ∧ s.done.length = 1))
    (h : tokens.foldlM (stepOne limit) s = .ok next) :
    tokens.foldlM (step limit) s = .ok next ∧
      (next.done = [] ∨ (next.pending = [] ∧ next.done.length = 1)) := by
  induction tokens generalizing s with
  | nil =>
      cases h
      exact ⟨rfl, hs⟩
  | cons t rest ih =>
      rw [List.foldlM_cons] at h ⊢
      cases hcomplete : s.isComplete with
      | true =>
          simp only [stepOne, hcomplete, if_true] at h
          cases h
      | false =>
          rw [stepOne_eq_step hcomplete] at h
          have hnone : s.done = [] := by
            rcases hs with hs | ⟨hpending, hlength⟩
            · exact hs
            · cases hdone : s.done with
              | nil => rfl
              | cons e es => simp [State.isComplete, hpending, hdone] at hcomplete
          obtain ⟨middle, hstep, hrest⟩ := exists_ok_of_bind h
          rw [hstep]
          refine ih ?_ hrest
          rcases step_done hstep with hdone | ⟨hpending, last, hdone⟩
          · exact .inl (hdone.trans hnone)
          · exact .inr ⟨hpending, by simp [hdone, hnone]⟩

/-- The single expression of a line is all that the line holds. -/
theorem all_eq_ok_of_one {limit : DepthLimit} {tokens : List Token} {e : Expr}
    (h : one limit tokens = .ok e) : all limit tokens = .ok [e] := by
  obtain ⟨s, hrun, h⟩ := exists_ok_of_bind h
  obtain ⟨es, hfinish, h⟩ := exists_ok_of_bind h
  obtain ⟨hstep, hshape⟩ := foldlM_stepOne (.inl rfl) hrun
  obtain ⟨-, hdone⟩ := finish_eq_ok_iff.mp hfinish
  unfold all
  rw [hstep]
  change finish (endSpan tokens) s = .ok [e]
  rw [hfinish]
  cases es with
  | nil => cases h
  | cons first more =>
      cases h
      have hlength : s.done.length = more.length + 1 := by
        rw [← List.length_reverse, hdone, List.length_cons]
      rcases hshape with hnone | ⟨-, hone⟩
      · simp [hnone] at hlength
      · obtain rfl : more = [] := List.eq_nil_of_length_eq_zero (by omega)
        rfl

/-- Reading one expression from the start, by the steps that refuse anything after it. -/
theorem one_comes (limit : DepthLimit) (d : Derivation) :
    Comes limit 0 d.expr.height (d.tokens.foldlM (stepOne limit) .empty)
      (.finished [d.expr]) := by
  refine derivation_comes limit (fun s t hpending => ?_) d .empty fun t => stepOne_eq_step rfl t
  apply stepOne_eq_step
  cases hcase : s.pending with
  | nil => exact absurd hcase hpending
  | cons opening outer => simp [State.isComplete, hcase]

/-- Reading one expression succeeds exactly on its derived token lists within the limit. -/
theorem one_eq_ok_iff {limit : DepthLimit} {tokens : List Token} {e : Expr} :
    one limit tokens = .ok e ↔ ∃ d : Derivation, d.tokens = Token.body tokens ∧ d.expr = e ∧
      limit.crossed e.height = none := by
  constructor
  · intro h
    obtain ⟨ds, htokens, hexprs, hfree⟩ := all_eq_ok_iff.mp (all_eq_ok_of_one h)
    match ds with
    | [] => simp [Derivation.exprs] at hexprs
    | [d] =>
        refine ⟨d, by simpa using htokens, by simpa [Derivation.exprs] using hexprs, ?_⟩
        simpa [Expr.heightAll] using hfree
    | _ :: _ :: _ => simp [Derivation.exprs] at hexprs
  · rintro ⟨d, htokens, rfl, hfree⟩
    have hrun := (one_comes limit d).1 (by simpa using hfree)
    unfold one
    rw [← htokens, hrun]
    rfl

theorem one_tooDeep {limit : DepthLimit} {tokens : List Token} {d : Derivation} {n : Nat}
    (htokens : d.tokens = Token.body tokens) (hdeep : limit.crossed d.expr.height = some n) :
    ∃ span, one limit tokens = .error ((Fault.tooDeep n).diagnostic span) := by
  obtain ⟨span, herror⟩ := (one_comes limit d).2 n (by simpa using hdeep)
  refine ⟨span, ?_⟩
  unfold one
  rw [← htokens, herror]
  rfl

theorem body_append_eof (tokens rest : List Token) {t : Token} (ht : t.isEof) :
    Token.body (tokens ++ t :: rest) = Token.body (tokens ++ [t]) := by
  induction tokens with
  | nil => simp [Token.body, ht]
  | cons first more ih =>
      simp only [Token.body, List.cons_append, List.takeWhile_cons] at ih ⊢
      rw [ih]

theorem endSpan_append_eof (tokens rest : List Token) {t : Token} (ht : t.isEof) :
    endSpan (tokens ++ t :: rest) = endSpan (tokens ++ [t]) := by
  have hfind : (tokens ++ t :: rest).find? Token.isEof = (tokens ++ [t]).find? Token.isEof := by
    simp [List.find?_append, ht]
  have hsome : ((tokens ++ [t]).find? Token.isEof).isSome := by simp [ht]
  unfold endSpan
  rw [hfind]
  obtain ⟨eof, heof⟩ := Option.isSome_iff_exists.mp hsome
  simp only [heof]

end Read

theorem Expr.heightAll_le_iff {es : List Expr} {n : Nat} :
    Expr.heightAll es ≤ n ↔ ∀ e ∈ es, e.height ≤ n := by
  induction es with
  | nil => simp [Expr.heightAll]
  | cons e es ih => rw [List.forall_mem_cons, ← ih, Expr.heightAll, Nat.max_le]

theorem Expr.heightAll_le_int_iff {es : List Expr} {n : Int} (hn : 0 < n) :
    Expr.heightAll es ≤ n ↔ ∀ e ∈ es, e.height ≤ n := by
  obtain ⟨m, rfl⟩ := Int.eq_ofNat_of_zero_le (Int.le_of_lt hn)
  simp only [Int.ofNat_le, Expr.heightAll_le_iff]

section limited

variable {n : Int} {tokens : List Token}

theorem Read.one_ofInt_eq_ok_iff (hn : 0 < n) {e : Expr} :
    Read.one (.ofInt n) tokens = .ok e ↔
      (∃ d : Derivation, d.tokens = Token.body tokens ∧ d.expr = e) ∧ e.height ≤ n := by
  rw [Read.one_eq_ok_iff, DepthLimit.crossed_ofInt_eq_none_iff hn]
  constructor
  · rintro ⟨d, htokens, hexpr, hheight⟩
    exact ⟨⟨d, htokens, hexpr⟩, hheight⟩
  · rintro ⟨⟨d, htokens, hexpr⟩, hheight⟩
    exact ⟨d, htokens, hexpr, hheight⟩

theorem Read.all_ofInt_eq_ok_iff (hn : 0 < n) {es : List Expr} :
    Read.all (.ofInt n) tokens = .ok es ↔
      (∃ ds, Derivation.tokensAll ds = Token.body tokens ∧ Derivation.exprs ds = es) ∧
        ∀ e ∈ es, e.height ≤ n := by
  rw [Read.all_eq_ok_iff, DepthLimit.crossed_ofInt_eq_none_iff hn, Expr.heightAll_le_int_iff hn]
  constructor
  · rintro ⟨ds, htokens, hexprs, hheights⟩
    exact ⟨⟨ds, htokens, hexprs⟩, hheights⟩
  · rintro ⟨⟨ds, htokens, hexprs⟩, hheights⟩
    exact ⟨ds, htokens, hexprs, hheights⟩

theorem Read.one_fails_of_height (hn : 0 < n) {d : Derivation}
    (hd : d.tokens = Token.body tokens) (hheight : n < d.expr.height) :
    ∃ failure, Read.one (.ofInt n) tokens = .error failure ∧
      failure.kind = .stackLimitExceeded := by
  have hcrossed : (DepthLimit.ofInt n).crossed d.expr.height = some n.toNat := by
    rw [DepthLimit.crossed_ofInt_of_pos hn, if_pos hheight]
  obtain ⟨span, herror⟩ := Read.one_tooDeep hd hcrossed
  exact ⟨_, herror, rfl⟩

theorem Read.all_fails_of_height (hn : 0 < n) {ds : List Derivation}
    (hds : Derivation.tokensAll ds = Token.body tokens) {d : Derivation} (hd : d ∈ ds)
    (hheight : n < d.expr.height) :
    ∃ failure, Read.all (.ofInt n) tokens = .error failure ∧
      failure.kind = .stackLimitExceeded := by
  have hhigh : n < Expr.heightAll (Derivation.exprs ds) := by
    apply Int.not_le.mp
    intro hle
    have hmember : d.expr ∈ Derivation.exprs ds := by
      rw [Derivation.exprs_eq_map]
      exact List.mem_map_of_mem hd
    have hlow := (Expr.heightAll_le_int_iff hn).mp hle d.expr hmember
    omega
  have hcrossed : (DepthLimit.ofInt n).crossed (Expr.heightAll (Derivation.exprs ds)) =
      some n.toNat := by
    rw [DepthLimit.crossed_ofInt_of_pos hn, if_pos hhigh]
  obtain ⟨span, herror⟩ := Read.all_tooDeep hds hcrossed
  exact ⟨_, herror, rfl⟩

end limited

theorem Read.atom_eq_int_iff {t : Token} {k : Int64} :
    Read.atom t = .int t.span k ↔ Decimal.Denotes t.lexeme k.toInt := by
  rw [← Decimal.toInt64?_eq_some_iff]
  unfold Read.atom
  split <;> rename_i h <;> simp [h]

theorem Read.atom_eq_symbol {t : Token} (h : ∀ k : Int64, ¬ Decimal.Denotes t.lexeme k.toInt) :
    Read.atom t = .symbol t.span t.lexeme := by
  unfold Read.atom
  split
  · rename_i k hk
    exact absurd (Decimal.toInt64?_eq_some_iff.mp hk) (h k)
  · rfl

/-- The reader accepts exactly what the grammar derives, where `w` are the tokens before the
first end of line. Without a limit, it reads one expression, or a list of them, exactly when `w`
has a derivation, of which there is only one, and gives the expressions of that derivation. With
a limit it gives the same as long as no expression is higher, and otherwise fails for the limit.
Tokens after an end of line never matter. An atom is an integer exactly when its text denotes
one of 64 bits, and a symbol otherwise. -/
theorem reads_exactly_the_derived (tokens : List Token) :
    let w := Token.body tokens
    (∀ n : Int, n ≤ 0 →
      (∀ e, Read.one (.ofInt n) tokens = .ok e ↔
        ∃ d : Derivation, d.tokens = w ∧ d.expr = e) ∧
      (∀ es, Read.all (.ofInt n) tokens = .ok es ↔
        ∃ ds, Derivation.tokensAll ds = w ∧ Derivation.exprs ds = es)) ∧
    (∀ d d' : Derivation, d.tokens = w → d'.tokens = w → d = d') ∧
    (∀ ds ds', Derivation.tokensAll ds = w → Derivation.tokensAll ds' = w → ds = ds') ∧
    (∀ n : Int, 0 < n →
      (∀ e, Read.one (.ofInt n) tokens = .ok e ↔
        (∃ d : Derivation, d.tokens = w ∧ d.expr = e) ∧ e.height ≤ n) ∧
      (∀ es, Read.all (.ofInt n) tokens = .ok es ↔
        (∃ ds, Derivation.tokensAll ds = w ∧ Derivation.exprs ds = es) ∧
          ∀ e ∈ es, e.height ≤ n) ∧
      (∀ d : Derivation, d.tokens = w → n < d.expr.height →
        ∃ failure, Read.one (.ofInt n) tokens = .error failure ∧
          failure.kind = .stackLimitExceeded) ∧
      (∀ ds, Derivation.tokensAll ds = w → (∃ d ∈ ds, n < d.expr.height) →
        ∃ failure, Read.all (.ofInt n) tokens = .error failure ∧
          failure.kind = .stackLimitExceeded)) ∧
    (∀ limit t rest, t.isEof →
      Read.one limit (tokens ++ t :: rest) = Read.one limit (tokens ++ [t]) ∧
      Read.all limit (tokens ++ t :: rest) = Read.all limit (tokens ++ [t])) ∧
    (∀ t : Token,
      (∀ k, Read.atom t = .int t.span k ↔ Decimal.Denotes t.lexeme k.toInt) ∧
      ((∀ k : Int64, ¬ Decimal.Denotes t.lexeme k.toInt) →
        Read.atom t = .symbol t.span t.lexeme)) := by
  intro w
  refine ⟨?_, ?_, ?_, ?_, ?_, ?_⟩
  · intro n hn
    constructor
    · intro e
      simp [Read.one_eq_ok_iff, DepthLimit.crossed_ofInt_of_nonpos hn, w]
    · intro es
      simp [Read.all_eq_ok_iff, DepthLimit.crossed_ofInt_of_nonpos hn, w]
  · intro d d' hd hd'
    exact Derivation.tokens_injective (hd.trans hd'.symm)
  · intro ds ds' hds hds'
    exact Derivation.tokensAll_injective (hds.trans hds'.symm)
  · intro n hn
    refine ⟨fun e => Read.one_ofInt_eq_ok_iff hn, fun es => Read.all_ofInt_eq_ok_iff hn, ?_, ?_⟩
    · intro d hd hheight
      exact Read.one_fails_of_height hn hd hheight
    · rintro ds hds ⟨d, hd, hheight⟩
      exact Read.all_fails_of_height hn hds hd hheight
  · intro limit t rest ht
    unfold Read.one Read.all
    rw [Read.body_append_eof tokens rest ht, Read.endSpan_append_eof tokens rest ht]
    exact ⟨rfl, rfl⟩
  · intro t
    exact ⟨fun k => Read.atom_eq_int_iff, Read.atom_eq_symbol⟩

/-- A quoted empty form has height two: it is read under a limit of two, and a limit of one is
crossed inside it. -/
theorem reads_exactly_the_derived_quoted_form :
    let mark : Token := ⟨.quote, Token.quoteName, .of 1 0 1⟩
    let opened : Token := ⟨.lparen, [0x28], .of 1 1 2⟩
    let closed : Token := ⟨.rparen, [0x29], .of 1 2 3⟩
    (∃ e, Read.one (.ofInt 2) [mark, opened, closed] = .ok e ∧ e.height = 2) ∧
      ∃ failure, Read.one (.ofInt 1) [mark, opened, closed] = .error failure ∧
        failure.kind = .stackLimitExceeded := by
  intro mark opened closed
  obtain ⟨-, -, -, hlimited, -⟩ := reads_exactly_the_derived [mark, opened, closed]
  let d : Derivation := .quote mark rfl (.form opened closed rfl rfl [])
  have htokens : d.tokens = Token.body [mark, opened, closed] := by decide
  have hheight : d.expr.height = 2 := by decide
  constructor
  · exact ⟨d.expr, ((hlimited 2 (by decide)).1 d.expr).mpr ⟨⟨d, htokens, rfl⟩, by simp [hheight]⟩,
      hheight⟩
  · exact (hlimited 1 (by decide)).2.2.1 d htokens (by simp [hheight])

end LineLisp
