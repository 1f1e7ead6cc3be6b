import LineLisp.Line

/-!
A line with a parenthesis is no request. Trimming takes only white space off a line, and lower
case keeps every character of ASCII that is no capital, so the parenthesis is still there when the
line is compared with the words of the requests.
-/

namespace LineLisp

namespace Blank

variable {encodings : List Bytes} {c : UInt8}

theorem not_mem_take_leading (hc : isSpace c = false) (hwide : ∀ e ∈ encodings, c ∉ e)
    (text : Bytes) : c ∉ text.take (leading encodings text) := by
  cases text with
  | nil => simp
  | cons b rest =>
      simp only [leading]
      split
      · rename_i hspace
        have hne : c ≠ b := by
          rintro rfl
          simp [hc] at hspace
        simpa using hne
      split
      · simp
      split
      · rename_i encoding hfind
        have hstart : encoding.isPrefixOf (b :: rest) = true := by
          simpa using List.find?_some hfind
        rw [← List.prefix_iff_eq_take.mp (List.isPrefixOf_iff_prefix.mp hstart)]
        exact hwide encoding (List.mem_of_find?_eq_some hfind)
      · simp

/-- What is no white space stays. -/
theorem mem_dropFrom (hc : isSpace c = false) (hwide : ∀ e ∈ encodings, c ∉ e) {skip : Nat}
    {text : Bytes} (hskip : c ∉ text.take skip) (h : c ∈ text) :
    c ∈ dropFrom encodings skip text := by
  induction text generalizing skip with
  | nil => simp at h
  | cons b rest ih =>
      have hrest : ∀ n, c ∉ (b :: rest).take (n + 1) → c ∈ dropFrom encodings n rest := by
        intro n hn
        rw [List.take_succ_cons, List.mem_cons, not_or] at hn
        have hlater : c ∈ rest := (List.mem_cons.mp h).resolve_left hn.1
        exact ih hn.2 hlater
      cases skip with
      | succ skip => exact hrest skip hskip
      | zero =>
          have hleading := not_mem_take_leading hc hwide (b :: rest)
          cases hn : leading encodings (b :: rest) with
          | zero => simpa [dropFrom, hn] using h
          | succ n =>
              rw [hn] at hleading
              simpa [dropFrom, hn] using hrest n hleading

theorem mem_trim (hc : isSpace c = false) (hwide : ∀ e ∈ wide, c ∉ e) {text : Bytes}
    (h : c ∈ text) : c ∈ trim text := by
  have hreversed : ∀ e ∈ wide.map List.reverse, c ∉ e := by
    intro e he
    obtain ⟨e, hwidth, rfl⟩ := List.mem_map.mp he
    rw [List.mem_reverse]
    exact hwide e hwidth
  have hstart : c ∈ trimStart text := mem_dropFrom hc hwide (by simp) h
  have hend : c ∈ dropFrom (wide.map List.reverse) 0 (trimStart text).reverse :=
    mem_dropFrom hc hreversed (by simp) (List.mem_reverse.mpr hstart)
  exact List.mem_reverse.mpr hend

end Blank

namespace Utf8

variable {c : UInt8}

theorem le_of_isSecond {first : UInt8} (h : isSecond first c) : 0x80 ≤ c := by
  simp only [isSecond, Bool.and_eq_true, decide_eq_true_eq] at h
  have hrange : 0x80 ≤ (secondRange first).1 := by
    unfold secondRange
    repeat' split
    all_goals decide
  exact UInt8.le_trans hrange h.1

theorem le_of_isTail (h : isTail c) : 0x80 ≤ c := by
  simp only [isTail, Bool.and_eq_true, decide_eq_true_eq] at h
  exact h.1

/-- A longer character has no byte of ASCII after its first. -/
theorem not_mem_take_first (hc : c < 0x80) (b : UInt8) (rest : Bytes) :
    c ∉ rest.take ((first b rest).bytes.length - 1) := by
  have hne : ∀ d, 0x80 ≤ d → c ≠ d := by
    rintro d hd rfl
    exact absurd hc (UInt8.not_lt.mpr hd)
  unfold first
  split
  · simp [Piece.bytes]
  split
  · split
    · split
      · rename_i hd
        simp [Piece.bytes, hne _ (le_of_isTail hd)]
      · simp [Piece.bytes]
    · simp [Piece.bytes]
  split
  · split
    · split
      · rename_i hd
        rw [Bool.and_eq_true] at hd
        simp [Piece.bytes, hne _ (le_of_isSecond hd.1), hne _ (le_of_isTail hd.2)]
      · simp [Piece.bytes]
    · simp [Piece.bytes]
  split
  · split
    · split
      · rename_i hd
        rw [Bool.and_eq_true, Bool.and_eq_true] at hd
        simp [Piece.bytes, hne _ (le_of_isSecond hd.1.1), hne _ (le_of_isTail hd.1.2),
          hne _ (le_of_isTail hd.2)]
      · simp [Piece.bytes]
    · simp [Piece.bytes]
  · simp [Piece.bytes]

theorem mem_cut_of_done {piece : Piece} {done : List Piece} (h : piece ∈ done) (skip : Nat)
    (text : Bytes) : piece ∈ cut skip done text := by
  induction text generalizing skip done with
  | nil => simpa [cut] using h
  | cons b rest ih =>
      cases skip with
      | succ skip => exact ih h skip
      | zero => exact ih (List.mem_cons_of_mem _ h) _

/-- A byte of ASCII is a character by itself wherever it stands. -/
theorem char_mem_cut (hc : c < 0x80) {skip : Nat} {done : List Piece} {text : Bytes}
    (hskip : c ∉ text.take skip) (h : c ∈ text) : .char c.toNat [c] ∈ cut skip done text := by
  induction text generalizing skip done with
  | nil => simp at h
  | cons b rest ih =>
      cases skip with
      | succ skip =>
          rw [List.take_succ_cons, List.mem_cons, not_or] at hskip
          exact ih hskip.2 ((List.mem_cons.mp h).resolve_left hskip.1)
      | zero =>
          rcases List.mem_cons.mp h with rfl | hlater
          · have hfirst : first c rest = .char c.toNat [c] := if_pos hc
            exact mem_cut_of_done (by simp [hfirst]) _ rest
          · exact ih (not_mem_take_first hc b rest) hlater

end Utf8

theorem LetterCase.mem_lower {text : Bytes} (h : 0x28 ∈ text) : 0x28 ∈ lower text := by
  have hpiece : .char 0x28 [0x28] ∈ Utf8.pieces text :=
    Utf8.char_mem_cut (c := 0x28) (by decide) (by simp) h
  exact List.mem_flatMap.mpr ⟨_, hpiece, by decide⟩

/-- A line with a parenthesis neither ends a session nor lists its bindings. -/
theorem Line.not_request_of_mem {line : Bytes} (h : 0x28 ∈ line) :
    isExit line = false ∧ isListing line = false := by
  have htrim : 0x28 ∈ Blank.trim line := Blank.mem_trim (by decide) (by decide) h
  have hlower : 0x28 ∈ LetterCase.lower (Blank.trim line) := LetterCase.mem_lower htrim
  constructor
  · cases hexit : isExit line with
    | false => rfl
    | true =>
        have hword : LetterCase.lower (Blank.trim line) ∈ exitWords := by
          simpa [isExit] using hexit
        have hwords : ∀ word ∈ exitWords, 0x28 ∉ word := by decide
        exact absurd hlower (hwords _ hword)
  · cases hlisting : isListing line with
    | false => rfl
    | true =>
        have hword : Blank.trim line = utf8 ":env" := by
          simpa [isListing] using hlisting
        rw [hword] at htrim
        exact absurd htrim (by decide)

end LineLisp
