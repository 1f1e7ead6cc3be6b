import LineLisp.Text.Decimal

/-!
What decimal texts mean. Reading gives exactly the number that a text denotes when it has 64
signed bits, whatever signs and leading zeros it has, and what is written is read back.
-/

namespace LineLisp.Decimal

/-- The value of the digits of `n` and the given ones after them, most significant first. -/
def valueFrom (n : Nat) (digits : Bytes) : Nat :=
  digits.foldl (fun n d => 10 * n + (d - 0x30).toNat) n

/-- A text denotes a number when it is an optional sign and at least one digit. -/
inductive Denotes : Bytes → Int → Prop where
  | unsigned {digits : Bytes} (hne : digits ≠ []) (hdigits : ∀ d ∈ digits, isDigit d) :
      Denotes digits (valueFrom 0 digits)
  | plus {digits : Bytes} (hne : digits ≠ []) (hdigits : ∀ d ∈ digits, isDigit d) :
      Denotes (0x2B :: digits) (valueFrom 0 digits)
  | minus {digits : Bytes} (hne : digits ≠ []) (hdigits : ∀ d ∈ digits, isDigit d) :
      Denotes (0x2D :: digits) (-valueFrom 0 digits)

theorem le_valueFrom (n : Nat) (digits : Bytes) : n ≤ valueFrom n digits := by
  induction digits generalizing n with
  | nil => exact Nat.le_refl n
  | cons d rest ih =>
      have hrest := ih (10 * n + (d - 0x30).toNat)
      change n ≤ valueFrom (10 * n + (d - 0x30).toNat) rest
      omega

/-- Stopping early loses nothing, since the value never gets smaller. -/
theorem magnitude?_eq_some_iff {n m : Nat} {digits : Bytes} (hn : n ≤ 0x8000000000000000) :
    magnitude? n digits = some m ↔
      (∀ d ∈ digits, isDigit d) ∧ valueFrom n digits = m ∧ m ≤ 0x8000000000000000 := by
  induction digits generalizing n with
  | nil =>
      simp only [magnitude?, valueFrom, List.foldl_nil, Option.some.injEq]
      constructor
      · rintro rfl
        exact ⟨by simp, rfl, hn⟩
      · rintro ⟨-, rfl, -⟩
        rfl
  | cons d rest ih =>
      have hvalue : valueFrom n (d :: rest) = valueFrom (10 * n + (d - 0x30).toNat) rest := rfl
      have hle := le_valueFrom (10 * n + (d - 0x30).toNat) rest
      simp only [magnitude?, List.forall_mem_cons, hvalue]
      by_cases hd : isDigit d
      · by_cases hnext : 10 * n + (d - 0x30).toNat ≤ 0x8000000000000000
        · simp only [hd, hnext, decide_true, Bool.and_true, if_true, true_and]
          exact ih hnext
        · simp only [hd, hnext, decide_false, Bool.and_false, Bool.false_eq_true, if_false]
          constructor
          · rintro ⟨⟩
          · rintro ⟨-, rfl, hm⟩
            omega
      · simp [hd]

/-- A magnitude with its sign, when it has 64 signed bits. -/
theorem signed_eq_some_iff {negative : Bool} {digits : Bytes} {k : Int64} :
    (do
      let magnitude ← magnitude? 0 digits
      let n : Int := if negative then -magnitude else magnitude
      if fits n then some (Int64.ofInt n) else none) = some k ↔
      (∀ d ∈ digits, isDigit d) ∧
        k.toInt = if negative then -(valueFrom 0 digits : Int) else valueFrom 0 digits := by
  have hlow := k.le_toInt
  have hhigh := k.toInt_lt
  simp only [Option.bind_eq_bind, Option.bind_eq_some_iff, Option.ite_none_right_eq_some,
    Option.some.injEq, fits, Bool.and_eq_true, decide_eq_true_eq]
  constructor
  · rintro ⟨m, hm, ⟨hge, hlt⟩, rfl⟩
    obtain ⟨hdigits, rfl, -⟩ := (magnitude?_eq_some_iff (by decide)).mp hm
    exact ⟨hdigits, Int64.toInt_ofInt_of_le hge hlt⟩
  · rintro ⟨hdigits, hk⟩
    refine ⟨valueFrom 0 digits, (magnitude?_eq_some_iff (by decide)).mpr ⟨hdigits, rfl, ?_⟩, ?_, ?_⟩
    · cases negative <;> simp at hk <;> omega
    · rw [← hk]
      exact ⟨hlow, hhigh⟩
    · rw [← hk]
      exact k.ofInt_toInt

theorem splitSign_cases {text digits : Bytes} {negative : Bool}
    (h : splitSign text = (negative, digits)) :
    (text = 0x2D :: digits ∧ negative = true) ∨ (text = 0x2B :: digits ∧ negative = false) ∨
      (text = digits ∧ negative = false) := by
  unfold splitSign at h
  split at h <;> simp_all

theorem splitSign_of_digit {b : UInt8} {rest : Bytes} (h : isDigit b) :
    splitSign (b :: rest) = (false, b :: rest) := by
  have hminus : b ≠ 0x2D := by rintro rfl; revert h; decide
  have hplus : b ≠ 0x2B := by rintro rfl; revert h; decide
  unfold splitSign
  split <;> simp_all

private theorem toInt64?_of_splitSign {text digits : Bytes} {negative : Bool} {k : Int64}
    (h : splitSign text = (negative, digits)) :
    toInt64? text = some k ↔ digits ≠ [] ∧ (∀ d ∈ digits, isDigit d) ∧
      k.toInt = if negative then -(valueFrom 0 digits : Int) else valueFrom 0 digits := by
  unfold toInt64?
  rw [h]
  cases digits with
  | nil => simp
  | cons d rest =>
      simp only [ne_eq, reduceCtorEq, not_false_eq_true, true_and]
      exact signed_eq_some_iff

/-- Reading succeeds exactly on the texts that denote a number of 64 signed bits. -/
theorem toInt64?_eq_some_iff {text : Bytes} {k : Int64} :
    toInt64? text = some k ↔ Denotes text k.toInt := by
  constructor
  · intro h
    cases hsplit : splitSign text with
    | mk negative digits =>
        obtain ⟨hne, hdigits, hk⟩ := (toInt64?_of_splitSign hsplit).mp h
        rw [hk]
        rcases splitSign_cases hsplit with ⟨rfl, rfl⟩ | ⟨rfl, rfl⟩ | ⟨rfl, rfl⟩
        · exact .minus hne hdigits
        · exact .plus hne hdigits
        · exact .unsigned hne hdigits
  · intro h
    generalize hn : k.toInt = n at h
    cases h with
    | minus hne hdigits =>
        exact (toInt64?_of_splitSign rfl).mpr ⟨hne, hdigits, hn⟩
    | plus hne hdigits =>
        exact (toInt64?_of_splitSign rfl).mpr ⟨hne, hdigits, hn⟩
    | unsigned hne hdigits =>
        cases text with
        | nil => exact absurd rfl hne
        | cons b rest =>
            have hsplit : splitSign (b :: rest) = (false, b :: rest) :=
              splitSign_of_digit (hdigits b (by simp))
            exact (toInt64?_of_splitSign hsplit).mpr ⟨hne, hdigits, hn⟩

/-- A digit character keeps its value as a byte. -/
private theorem digit_byte {c : Char} (h : c.isDigit) :
    isDigit c.toNat.toUInt8 ∧ (c.toNat.toUInt8 - 0x30).toNat = c.toNat - '0'.toNat := by
  have hrange : 48 ≤ c.toNat ∧ c.toNat ≤ 57 := by
    simpa [Char.isDigit, Char.le_def, UInt32.le_iff_toNat_le] using h
  have hbyte : ∀ n : Fin 58, 48 ≤ n.val →
      isDigit n.val.toUInt8 ∧ (n.val.toUInt8 - 0x30).toNat = n.val - '0'.toNat := by decide
  exact hbyte ⟨c.toNat, by omega⟩ hrange.1

theorem isDigit_of_mem_ofNat {n : Nat} {d : UInt8} (h : d ∈ ofNat n) : isDigit d := by
  obtain ⟨c, hc, rfl⟩ := List.mem_map.mp h
  exact (digit_byte (Nat.isDigit_of_mem_toDigits (by decide) (by decide) hc)).1

theorem ofNat_ne_nil (n : Nat) : ofNat n ≠ [] := by
  simp [ofNat, Nat.toDigits_ne_nil]

private theorem valueFrom_map_digits {cs : List Char} (n : Nat) (h : ∀ c ∈ cs, c.isDigit) :
    valueFrom n (cs.map fun c => c.toNat.toUInt8) = Nat.ofDigitChars 10 cs n := by
  induction cs generalizing n with
  | nil => simp [valueFrom]
  | cons c cs ih =>
      rw [List.map_cons, Nat.ofDigitChars_cons, ← (digit_byte (h c (by simp))).2]
      exact ih _ fun c hc => h c (by simp [hc])

theorem valueFrom_ofNat (n : Nat) : valueFrom 0 (ofNat n) = n := by
  unfold ofNat
  rw [valueFrom_map_digits 0 fun c hc => Nat.isDigit_of_mem_toDigits (by decide) (by decide) hc]
  exact Nat.ofDigitChars_ten_toDigits

theorem denotes_ofInt (n : Int) : Denotes (ofInt n) n := by
  cases n with
  | ofNat n =>
      have h := Denotes.unsigned (ofNat_ne_nil n) fun d hd => isDigit_of_mem_ofNat hd
      rwa [valueFrom_ofNat] at h
  | negSucc n =>
      have h := Denotes.minus (ofNat_ne_nil (n + 1)) fun d hd => isDigit_of_mem_ofNat hd
      rwa [valueFrom_ofNat] at h

/-- What is written is read back. -/
theorem toInt64?_ofInt64 (n : Int64) : toInt64? (ofInt64 n) = some n :=
  toInt64?_eq_some_iff.mpr (denotes_ofInt n.toInt)

end LineLisp.Decimal
