import LineLisp.Proofs.Token.Spacing
import Mathlib.Data.List.TakeWhile

/-!
Lines without their first word. Where the scanner takes up the line, behind the word, there is white
space or nothing at all, so no sign there can look back at the word, and whatever the word holds is
as good as blanks. The tokens are those of the line with the word blanked out; by the grammar they
are also what the line itself, with the word as it is, has from the end of the word on.
-/

namespace LineLisp

namespace Lexical

/-- Whether a line is blanks, then its first run of anything else, then the rest. The run ends only
at a blank or at the end of the line, and it is empty only in a line of blanks. -/
structure FirstWord (source lead word rest : Bytes) : Prop where
  eq_append : source = lead ++ word ++ rest
  lead_blank : ∀ b ∈ lead, b ∈ blanks
  word_plain : ∀ b ∈ word, b ∉ blanks
  rest_blank : ∀ b, rest.head? = some b → b ∈ blanks
  rest_eq_nil : word = [] → rest = []

theorem exists_firstWord (source : Bytes) : ∃ lead word rest, FirstWord source lead word rest := by
  let blank := fun b => decide (b ∈ blanks)
  let behind := source.dropWhile blank
  refine ⟨source.takeWhile blank, behind.takeWhile (!blank ·), behind.dropWhile (!blank ·), ?_, ?_,
    ?_, ?_, ?_⟩
  · rw [List.append_assoc, List.takeWhile_append_dropWhile, List.takeWhile_append_dropWhile]
  · intro b hb
    simpa [blank] using List.mem_takeWhile_imp hb
  · intro b hb
    simpa [blank] using List.mem_takeWhile_imp hb
  · intro b hb
    have hhead := List.head?_dropWhile_not (!blank ·) behind
    rw [hb] at hhead
    simpa [blank] using hhead
  · intro hempty
    -- The first byte that is no blank belongs to the run.
    cases hbehind : behind with
    | nil => rfl
    | cons b tail =>
        have hhead := List.head?_dropWhile_not blank source
        rw [show source.dropWhile blank = b :: tail from hbehind] at hhead
        simp [hbehind, show blank b = false from hhead] at hempty

end Lexical

namespace Scan

open Lexical

variable {line : Int} {source lead word rest : Bytes}

private theorem dropWhile_append {p : UInt8 → Bool} (hfirst : ∀ b ∈ lead, p b = true)
    (hrest : ∀ b, rest.head? = some b → p b = false) : (lead ++ rest).dropWhile p = rest := by
  rw [List.dropWhile_append_of_pos hfirst]
  cases rest with
  | nil => rfl
  | cons b tail => simp [hrest b rfl]

theorem dropWord_eq (h : FirstWord source lead word rest) : dropWord source = rest := by
  have hbehind : ∀ b, (word ++ rest).head? = some b → Blank.isSpace b = false := by
    intro b hb
    have hmem : b ∈ word := by
      cases hcase : word with
      | nil => simp [hcase, h.rest_eq_nil hcase] at hb
      | cons c tail =>
          obtain rfl : c = b := by simpa [hcase] using hb
          exact List.mem_cons_self
    exact isSpace_eq_false_iff.mpr (h.word_plain b hmem)
  rw [dropWord, h.eq_append, List.append_assoc, dropWhile_append ?_ hbehind, dropWhile_append]
  · intro b hb
    rw [isSpace_eq_false_iff.mpr (h.word_plain b hb)]
    rfl
  · intro b hb
    rw [isSpace_iff.mpr (h.rest_blank b hb)]
    rfl
  · intro b hb
    exact isSpace_iff.mpr (h.lead_blank b hb)

/-- Blanks at the start of a line leave the scanner where it began, only further along. -/
theorem foldl_initial_blanks {gap : Bytes} (hgap : ∀ b ∈ gap, Blank.isSpace b) :
    gap.foldl State.step (initial line 0 (.gap true)) = initial line gap.length (.gap true) := by
  by_cases hempty : gap = []
  · subst hempty
    rfl
  · have hmode : (initial line 0 (.gap true)).mode = .gap true := rfl
    rw [foldl_blanks (by simp [hmode]) hempty hgap, flush_of_gap hmode]
    simp [initial]

/-- In front of a blank it makes no difference whether a sign might have begun a number. -/
theorem step_initial_blank (n : Nat) (fresh : Bool) {b : UInt8} (hb : Blank.isSpace b) :
    (initial line n (.gap fresh)).step b = initial line (n + 1) (.gap true) := by
  have hmode : (initial line n (.gap fresh)).mode = .gap fresh := rfl
  rw [step_blank_eq (by simp [hmode]) hb, flush_of_gap hmode]
  rfl

/-- Nor does it make a difference at the end of the line. -/
theorem finish_foldl_initial (hrest : ∀ b, rest.head? = some b → b ∈ blanks) (n : Nat)
    (fresh : Bool) :
    (rest.foldl State.step (initial line n (.gap fresh))).finish =
      (rest.foldl State.step (initial line n (.gap true))).finish := by
  cases rest with
  | nil => rfl
  | cons b tail =>
      have hb : Blank.isSpace b := isSpace_iff.mpr (hrest b rfl)
      rw [List.foldl_cons, List.foldl_cons, step_initial_blank n fresh hb,
        step_initial_blank n true hb]

theorem tokensAfterWord_eq_finish (line : Int) (h : FirstWord source lead word rest) :
    tokensAfterWord line source =
      (rest.foldl State.step (initial line (lead ++ word).length (.gap true))).finish := by
  have hoffset : source.length - rest.length = (lead ++ word).length := by
    rw [h.eq_append, List.length_append, Nat.add_sub_cancel]
  simp only [tokensAfterWord, dropWord_eq h, hoffset]
  exact finish_foldl_initial h.rest_blank ..

/-- Passing over the first word is the same as blanking it out. -/
theorem tokensAfterWord_eq_tokens (line : Int) (h : FirstWord source lead word rest) :
    tokensAfterWord line source =
      tokens line (lead ++ List.replicate word.length 0x20 ++ rest) := by
  have hblank : ∀ b ∈ lead ++ List.replicate word.length 0x20, Blank.isSpace b := by
    intro b hb
    rcases List.mem_append.mp hb with hb | hb
    · exact isSpace_iff.mpr (h.lead_blank b hb)
    · rw [List.eq_of_mem_replicate hb]
      decide
  rw [tokensAfterWord_eq_finish line h, tokens, List.foldl_append, foldl_initial_blanks hblank,
    List.length_append, List.length_append, List.length_replicate]

/-- Where a line goes on with a blank, the scanner that starts there finds what the line has there by
the grammar, which looks back at the byte before. -/
theorem exists_tokens_behind (line : Int) {front : Bytes} (hsource : source = front ++ rest)
    (hrest : ∀ b, rest.head? = some b → b ∈ blanks) :
    ∃ ts, Tokens line source front.length ts ∧
      (rest.foldl State.step (initial line front.length (.gap true))).finish =
        ts ++ [⟨.eof, [], .of line source.length source.length⟩] := by
  have hdrop : source.drop front.length = rest := by rw [hsource, List.drop_left]
  have hend : (rest.foldl State.step (initial line front.length (.gap true))).line = line ∧
      (rest.foldl State.step (initial line front.length (.gap true))).offset = source.length := by
    rw [foldl_line, foldl_offset, hsource, List.length_append]
    exact ⟨rfl, rfl⟩
  rw [State.finish_eq_found, hend.1, hend.2]
  cases rest with
  | nil => exact ⟨[], ⟨[], by simp, .inl hdrop⟩, rfl⟩
  | cons b tail =>
      have hb := hrest b rfl
      have hat : (initial line (front.length + 1) (.gap true)).At line source (front.length + 1) := by
        refine ⟨rfl, rfl, true, rfl, ?_⟩
        rw [atBoundary_succ_iff (Bytes.getElem?_of_drop hdrop)]
        simp [hb]
      obtain ⟨ts, hts⟩ := exists_tokens line source (front.length + 1)
      have hfound := hat.found_eq hts
      rw [Bytes.drop_succ_of_drop hdrop] at hfound
      refine ⟨ts, hts.blank hdrop hb, ?_⟩
      rw [List.foldl_cons, step_initial_blank _ true (isSpace_iff.mpr hb), hfound]
      rfl

/-- The first word of a line counts for as many blanks. Every line has a first word, if only an empty
one, and passing over it gives the tokens, places and the end of the line included, that the line has
with each byte of the word replaced by a space, whatever the word holds. They are the tokens by the
grammar from the end of the word on, where a sign looks back at the line as it is. -/
theorem first_word_counts_as_blanks (line : Int) (source : Bytes) :
    (∃ lead word rest, FirstWord source lead word rest) ∧
    ∀ lead word rest, FirstWord source lead word rest →
      tokensAfterWord line source =
        tokens line (lead ++ List.replicate word.length 0x20 ++ rest) ∧
      ∃ ts, Tokens line source (lead ++ word).length ts ∧
        tokensAfterWord line source = ts ++ [⟨.eof, [], .of line source.length source.length⟩] := by
  refine ⟨exists_firstWord source, fun lead word rest h => ?_⟩
  refine ⟨tokensAfterWord_eq_tokens line h, ?_⟩
  rw [tokensAfterWord_eq_finish line h]
  exact exists_tokens_behind line h.eq_append h.rest_blank

/-- A word with a parenthesis, a semicolon, a quote mark and a stray byte hides nothing of the number
behind it. -/
theorem first_word_counts_as_blanks_number :
    let word := utf8 "(f;" ++ [0xFF, 0x27]
    let source := utf8 "\t" ++ word ++ utf8 " -1 x-2"
    FirstWord source (utf8 "\t") word (utf8 " -1 x-2") ∧
      tokensAfterWord 7 source = tokens 7 (utf8 "\t      -1 x-2") := by
  intro word source
  have hfirst : FirstWord source (utf8 "\t") word (utf8 " -1 x-2") := by
    refine ⟨rfl, by decide +kernel, by decide +kernel, ?_, ?_⟩
    · rintro b ⟨⟩
      decide
    · intro hempty
      exact absurd hempty (by decide +kernel)
  exact ⟨hfirst, ((first_word_counts_as_blanks 7 source).2 _ _ _ hfirst).1⟩

end Scan

end LineLisp
