import LineLisp.Diagnostic.Trace
import LineLisp.Proofs.Text.Decimal
import Mathlib.Data.List.Chain

/-!
What a shortened trace shows. A list of names falls into maximal runs of equal neighbours in just one
way, and a trace has an entry for each of the first twenty and a count of the others. As long as no
run is left out and no name has a space in it, the names can be read off the entries again: the first
space ends the name, and the digits behind it are the length of the run.
-/

namespace LineLisp.Trace

/-- The names that runs stand for. -/
def spelled (rs : List (Bytes × Nat)) : List Bytes :=
  rs.flatMap fun r => List.replicate r.2 r.1

/-- Whether runs are the maximal runs of equal neighbours in a list. -/
structure MaximalRuns (calls : List Bytes) (rs : List (Bytes × Nat)) : Prop where
  spelled_eq : spelled rs = calls
  pos : ∀ r ∈ rs, 0 < r.2
  apart : rs.IsChain fun r next => r.1 ≠ next.1

section runs

variable {calls : List Bytes} {name : Bytes} {n : Nat} {rs : List (Bytes × Nat)}

theorem runsFrom_eq (done : List (Bytes × Nat)) (name : Bytes) (n : Nat) (calls : List Bytes) :
    runsFrom done name n calls = done.reverse ++ runsFrom [] name n calls := by
  induction calls generalizing done name n with
  | nil => simp [runsFrom]
  | cons next rest ih =>
      by_cases h : next = name
      · simp only [runsFrom, if_pos h]
        exact ih done name (n + 1)
      · simp only [runsFrom, if_neg h]
        rw [ih ((name, n) :: done), ih [(name, n)]]
        simp

theorem runsFrom_cons_ne {next : Bytes} (h : next ≠ name) (rest : List Bytes) :
    runsFrom [] name n (next :: rest) = (name, n) :: runs (next :: rest) := by
  rw [runsFrom, if_neg h, runsFrom_eq]
  rfl

/-- The run in progress grows with its name and is followed by the runs of the rest. -/
theorem maximalRuns_runsFrom (name : Bytes) (hn : 0 < n) (calls : List Bytes) :
    MaximalRuns (List.replicate n name ++ calls) (runsFrom [] name n calls) ∧
      ∃ m rest, runsFrom [] name n calls = (name, m) :: rest := by
  induction calls generalizing name n with
  | nil => exact ⟨⟨by simp [runsFrom, spelled], by simpa [runsFrom], by simp [runsFrom]⟩, n, [], rfl⟩
  | cons next rest ih =>
      by_cases h : next = name
      · subst h
        have hmore := ih next (Nat.succ_pos n)
        rw [List.replicate_succ', List.append_assoc] at hmore
        simpa [runsFrom] using hmore
      · obtain ⟨hruns, m, others, hfirst⟩ := ih next Nat.one_pos
        have heq : runsFrom [] name n (next :: rest) = (name, n) :: runsFrom [] next 1 rest :=
          runsFrom_cons_ne h rest
        refine ⟨⟨?_, ?_, ?_⟩, n, _, heq⟩
        · rw [heq, spelled, List.flatMap_cons, ← spelled, hruns.spelled_eq]
          rfl
        · rw [heq]
          exact List.forall_mem_cons.mpr ⟨hn, hruns.pos⟩
        · rw [heq, List.isChain_cons]
          refine ⟨?_, hruns.apart⟩
          rw [hfirst]
          rintro r ⟨⟩
          exact Ne.symm h

theorem maximalRuns_runs (calls : List Bytes) : MaximalRuns calls (runs calls) := by
  cases calls with
  | nil => exact ⟨rfl, by simp [runs], by simp [runs]⟩
  | cons name rest => exact (maximalRuns_runsFrom name Nat.one_pos rest).1

theorem runsFrom_replicate (k : Nat) (calls : List Bytes) :
    runsFrom [] name n (List.replicate k name ++ calls) = runsFrom [] name (n + k) calls := by
  induction k generalizing n with
  | zero => rfl
  | succ k ih =>
      rw [List.replicate_succ, List.cons_append, runsFrom, if_pos rfl, ih]
      congr 1
      omega

theorem MaximalRuns.tail {r : Bytes × Nat} (h : MaximalRuns calls (r :: rs)) :
    MaximalRuns (spelled rs) rs :=
  ⟨rfl, fun x hx => h.pos x (List.mem_cons_of_mem _ hx), (List.isChain_cons.mp h.apart).2⟩

/-- What comes behind a run begins with another name. -/
theorem MaximalRuns.head_ne (h : MaximalRuns calls ((name, n) :: rs)) :
    spelled rs = [] ∨ ∃ next rest, spelled rs = next :: rest ∧ next ≠ name := by
  cases rs with
  | nil => exact .inl rfl
  | cons r others =>
      obtain ⟨next, m⟩ := r
      have hm : 0 < m := h.pos (next, m) (by simp)
      obtain ⟨k, rfl⟩ : ∃ k, m = k + 1 := ⟨m - 1, by omega⟩
      have hne : name ≠ next := (List.isChain_cons_cons.mp h.apart).1
      refine .inr ⟨next, List.replicate k next ++ spelled others, ?_, hne.symm⟩
      rw [spelled, List.flatMap_cons, List.replicate_succ]
      rfl

/-- A list has only one list of maximal runs. -/
theorem MaximalRuns.eq_runs (h : MaximalRuns calls rs) : rs = runs calls := by
  induction rs generalizing calls with
  | nil =>
      rw [← h.spelled_eq]
      rfl
  | cons r rs ih =>
      obtain ⟨name, n⟩ := r
      have hn : 0 < n := h.pos (name, n) (by simp)
      obtain ⟨k, rfl⟩ : ∃ k, n = 1 + k := ⟨n - 1, by omega⟩
      have hcalls : calls = name :: (List.replicate k name ++ spelled rs) := by
        rw [← h.spelled_eq, Nat.add_comm]
        simp [spelled, List.replicate_succ]
      have hrest : runsFrom [] name (1 + k) (spelled rs) = (name, 1 + k) :: runs (spelled rs) := by
        rcases h.head_ne with hempty | ⟨next, rest, heq, hne⟩
        · rw [hempty]
          rfl
        · rw [heq, runsFrom_cons_ne hne]
      rw [hcalls, runs, runsFrom_replicate, hrest, ← ih h.tail]

theorem MaximalRuns.fst_mem (h : MaximalRuns calls rs) {r : Bytes × Nat} (hr : r ∈ rs) :
    r.1 ∈ calls := by
  rw [← h.spelled_eq]
  refine List.mem_flatMap.mpr ⟨r, hr, ?_⟩
  exact List.mem_replicate.mpr ⟨Nat.ne_of_gt (h.pos r hr), rfl⟩

end runs

/-- The run that an entry stands for. The first space ends the name; behind it the count stands
between `(x` and `)`. -/
def runOf (text : Bytes) : Bytes × Nat :=
  let name := Bytes.before 0x20 text
  let suffix := text.drop name.length
  (name, if suffix = [] then 1 else Decimal.valueFrom 0 (suffix.drop 3).dropLast)

/-- The names that the entries of a trace stand for. -/
def restored (entries : List Bytes) : List Bytes :=
  spelled (entries.map runOf)

/-- Whether a trace shows all there is: no name has a space in it, and no run is left out. -/
structure Legible (calls : List Bytes) : Prop where
  spaceless : ∀ name ∈ calls, 0x20 ∉ name
  few : ∀ rs, MaximalRuns calls rs → rs.length ≤ 20

section entries

variable {calls : List Bytes} {name : Bytes} {n : Nat}

theorem entry_eq (r : Bytes × Nat) :
    entry r = if r.2 = 1 then r.1 else r.1 ++ utf8 " (x" ++ Decimal.ofNat r.2 ++ utf8 ")" := by
  obtain ⟨name, n⟩ := r
  by_cases h : n = 1
  · subst h
    rfl
  · rw [if_neg h, entry]
    exact h

theorem before_append {suffix : Bytes} (hname : 0x20 ∉ name)
    (hsuffix : ∀ b, suffix.head? = some b → b = 0x20) :
    Bytes.before 0x20 (name ++ suffix) = name := by
  have hplain : ∀ b ∈ name, (b != 0x20) = true := by
    intro b hb
    simpa using fun heq : b = 0x20 => hname (heq ▸ hb)
  rw [Bytes.before, List.takeWhile_append_of_pos hplain]
  cases suffix with
  | nil => simp
  | cons b rest => simp [hsuffix b rfl]

/-- An entry is read back, since the name before the count has no space. -/
theorem runOf_entry (hname : 0x20 ∉ name) : runOf (entry (name, n)) = (name, n) := by
  by_cases h : n = 1
  · subst h
    have hbefore : Bytes.before 0x20 (name ++ []) = name := before_append hname (by simp)
    rw [List.append_nil] at hbefore
    simp [entry, runOf, hbefore]
  · have hentry : entry (name, n) = name ++ 0x20 :: ([0x28, 0x78] ++ Decimal.ofNat n ++ [0x29]) := by
      rw [entry_eq, if_neg h, List.append_assoc, List.append_assoc]
      rfl
    rw [hentry, runOf, before_append hname (by simp), List.drop_left]
    simp [Decimal.valueFrom_ofNat]

theorem restored_entries {rs : List (Bytes × Nat)} (h : ∀ r ∈ rs, 0x20 ∉ r.1) :
    restored (rs.map entry) = spelled rs := by
  have hruns : (rs.map entry).map runOf = rs.map id := by
    rw [List.map_map]
    exact List.map_congr_left fun r hr => runOf_entry (h r hr)
  rw [restored, hruns, List.map_id]

theorem shorten_eq (calls : List Bytes) :
    shorten calls = ((runs calls).take 20).map entry ++
      if 20 < (runs calls).length then [more ((runs calls).length - 20)] else [] := by
  simp only [shorten, maxEntries, List.length_map]
  split
  · rw [List.map_take]
  · rename_i hfew
    rw [List.take_of_length_le (by omega), List.append_nil]

theorem Legible.restored_shorten (h : Legible calls) : restored (shorten calls) = calls := by
  have hruns := maximalRuns_runs calls
  have hfew := h.few _ hruns
  rw [shorten_eq, List.take_of_length_le hfew, if_neg (by omega), List.append_nil, restored_entries,
    hruns.spelled_eq]
  intro r hr
  exact h.spaceless r.1 (hruns.fst_mem hr)

theorem length_shorten_le (calls : List Bytes) : (shorten calls).length ≤ 21 := by
  rw [shorten_eq, List.length_append, List.length_map, List.length_take]
  split
  · rw [List.length_singleton]
    omega
  · rw [List.length_nil]
    omega

/-- A shortened trace shows the maximal runs of a list. Every list has them in just one way; the trace
has an entry for each of the first twenty, in order, and says how many more there are if there are
more, so it never has more than 21 entries. A list with no more runs than that and no space in a name
is restored from its trace, and no other such list has the same trace. -/
theorem shorten_shows_maximal_runs :
    (∀ calls, ∃ rs, MaximalRuns calls rs ∧ (∀ other, MaximalRuns calls other → other = rs) ∧
      shorten calls = (rs.take 20).map (fun (name, n) =>
          if n = 1 then name else name ++ utf8 " (x" ++ Decimal.ofNat n ++ utf8 ")") ++
        (if 20 < rs.length then [utf8 "... " ++ Decimal.ofNat (rs.length - 20) ++ utf8 " more"]
        else []) ∧
      (shorten calls).length ≤ 21) ∧
    (∀ calls, Legible calls → restored (shorten calls) = calls) ∧
    ∀ calls other, Legible calls → Legible other → shorten calls = shorten other →
      calls = other := by
  refine ⟨fun calls => ⟨runs calls, maximalRuns_runs calls, fun _ h => h.eq_runs, ?_,
    length_shorten_le calls⟩, fun _ h => h.restored_shorten, ?_⟩
  · rw [shorten_eq]
    congr 1
    exact List.map_congr_left fun r _ => entry_eq r
  · intro calls other h h' heq
    rw [← h.restored_shorten, heq, h'.restored_shorten]

/-- Two runs of one name with another between them, the first of them long. -/
theorem shorten_shows_maximal_runs_recursion :
    let f := utf8 "f"
    let calls := List.replicate 12 f ++ [utf8 "g", f]
    Legible calls ∧ shorten calls = [utf8 "f (x12)", utf8 "g", f] ∧
      restored [utf8 "f (x12)", utf8 "g", f] = calls := by
  intro f calls
  have hlegible : Legible calls := by
    refine ⟨by decide +kernel, fun rs hrs => ?_⟩
    rw [hrs.eq_runs]
    decide +kernel
  have hshorten : shorten calls = [utf8 "f (x12)", utf8 "g", f] := by decide +kernel
  refine ⟨hlegible, hshorten, ?_⟩
  rw [← hshorten]
  exact shorten_shows_maximal_runs.2.1 calls hlegible

/-- A space in a name may be taken for the end of it. -/
example : shorten [utf8 "f (x2)"] = shorten [utf8 "f", utf8 "f"] := by decide +kernel

end entries

end LineLisp.Trace
