import PackageAudit.Json.Reader
import PackageAudit.Json.Writer
import PackageAudit.Proofs.Text.Utf8

/-! # Strings of JSON documents

A string is read back from its written form (`readString_writeString`), if no high surrogate stands
right in front of a low one in it (`PairFree`): written, such a pair is the code point that it
encodes. What is read is always free of them (`pairFree_of_readString`).
-/

namespace PackageAudit

/-! ## Escapes -/

theorem Text.hex_four {n : Nat} (h : n < 0x10000) :
    Text.hex 4 n =
      [n / 4096, n / 256 % 16, n / 16 % 16, n % 16].map fun d => CodePoint.ofChar d.digitChar := by
  have hsmall : ∀ {m : Nat}, m < 16 → Nat.toDigits 16 m = [m.digitChar] := Nat.toDigits_of_lt_base
  have hlarge : ∀ {m : Nat}, 16 ≤ m →
      Nat.toDigits 16 m = Nat.toDigits 16 (m / 16) ++ [(m % 16).digitChar] :=
    Nat.toDigits_of_base_le (by decide)
  have hzero : CodePoint.ofChar '0' = CodePoint.ofChar (Nat.digitChar 0) := rfl
  unfold Text.hex Text.zeros
  by_cases h₁ : n < 16
  · rw [hsmall h₁, hzero, show n / 4096 = 0 by omega, show n / 256 % 16 = 0 by omega,
      show n / 16 % 16 = 0 by omega, show n % 16 = n by omega]
    rfl
  · by_cases h₂ : n / 16 < 16
    · rw [hlarge (by omega), hsmall h₂, hzero, show n / 4096 = 0 by omega,
        show n / 256 % 16 = 0 by omega, show n / 16 % 16 = n / 16 by omega]
      rfl
    · by_cases h₃ : n / 16 / 16 < 16
      · rw [hlarge (by omega), hlarge (by omega), hsmall h₃, hzero, show n / 4096 = 0 by omega,
          show n / 256 % 16 = n / 16 / 16 by omega]
        rfl
      · rw [hlarge (by omega), hlarge (by omega), hlarge (by omega), hsmall (by omega),
          show n / 4096 = n / 16 / 16 / 16 by omega, show n / 256 % 16 = n / 16 / 16 % 16 by omega]
        rfl

theorem CodePoint.hexDigit?_digitChar :
    ∀ d < 16, (CodePoint.ofChar d.digitChar).hexDigit? = some d := by
  decide

namespace Json

open Utf8 (ofNat_val val_ofNat)

theorem hexUnit?_digits {n : Nat} (h : n < 0x10000) :
    hexUnit? (CodePoint.ofChar (n / 4096).digitChar) (CodePoint.ofChar (n / 256 % 16).digitChar)
      (CodePoint.ofChar (n / 16 % 16).digitChar) (CodePoint.ofChar (n % 16).digitChar) =
        some (CodePoint.ofNat n) := by
  have hdigit := CodePoint.hexDigit?_digitChar
  unfold hexUnit?
  rw [hdigit _ (by omega), hdigit _ (by omega), hdigit _ (by omega), hdigit _ (by omega)]
  show some (CodePoint.ofNat ((((n / 4096) * 16 + n / 256 % 16) * 16 + n / 16 % 16) * 16 + n % 16)) = _
  rw [show (((n / 4096) * 16 + n / 256 % 16) * 16 + n / 16 % 16) * 16 + n % 16 = n by omega]

/-- A numeric escape is read as its unit, if the string goes on behind it. -/
theorem readString_unitEscape (opened done : Text) {n : Nat} (h : n < 0x10000) {rest : Text}
    (hrest : rest ≠ []) : readString opened done (unitEscape n ++ rest) =
      readString opened (CodePoint.ofNat n :: done) rest := by
  have hform : unitEscape n ++ rest = CodePoint.ofChar '\\' :: CodePoint.ofChar 'u' ::
      CodePoint.ofChar (n / 4096).digitChar :: CodePoint.ofChar (n / 256 % 16).digitChar ::
      CodePoint.ofChar (n / 16 % 16).digitChar :: CodePoint.ofChar (n % 16).digitChar :: rest := by
    unfold unitEscape
    rw [Text.hex_four h]
    rfl
  have hempty : rest.isEmpty = false := by simpa using hrest
  rw [hform]
  conv => lhs; unfold readString
  rw [if_neg (by decide), if_pos (by decide)]
  simp only [if_pos, hempty, hexUnit?_digits h]

/-- The units that a code point is written as: itself, or the two of a pair. -/
def units (c : CodePoint) : Text :=
  if c.val < 0x10000 then [c]
  else
    [CodePoint.ofNat (0xd800 + (c.val - 0x10000) / 0x400),
      CodePoint.ofNat (0xdc00 + (c.val - 0x10000) % 0x400)]

theorem units_of_lt {c : CodePoint} (h : c.val < 0x10000) : units c = [c] := if_pos h

theorem units_of_not_lt {c : CodePoint} (h : ¬ c.val < 0x10000) :
    units c = [CodePoint.ofNat (0xd800 + (c.val - 0x10000) / 0x400),
      CodePoint.ofNat (0xdc00 + (c.val - 0x10000) % 0x400)] := if_neg h

/-- The forms of a code point inside a string. -/
inductive Escape (c : CodePoint) : Text → Prop
  | short {e : CodePoint} (he : e ≠ CodePoint.ofChar 'u') (hx : escaped? e = some c)
    (hc : c.val < 0x10000) : Escape c [CodePoint.ofChar '\\', e]
  | plain (h34 : c.val ≠ 34) (h92 : c.val ≠ 92) (hc : 32 ≤ c.val ∧ c.val ≤ 126) : Escape c [c]
  | unit (hc : c.val < 0x10000) : Escape c (unitEscape c.val)
  | pair (hc : ¬ c.val < 0x10000) : Escape c
    (unitEscape (0xd800 + (c.val - 0x10000) / 0x400) ++
      unitEscape (0xdc00 + (c.val - 0x10000) % 0x400))

theorem escape_form (c : CodePoint) : Escape c (escape c) := by
  have hshort : ∀ (n : Nat) (e : CodePoint), c.val = n → n < 0x10000 →
      e ≠ CodePoint.ofChar 'u' → escaped? e = some (CodePoint.ofNat n) →
      Escape c [CodePoint.ofChar '\\', e] := by
    intro n e hc hn he hx
    rw [← hc, ofNat_val] at hx
    exact .short he hx (hc ▸ hn)
  unfold escape
  split
  · next h => exact hshort 34 _ h (by decide) (by decide) (by decide)
  split
  · next h => exact hshort 92 _ h (by decide) (by decide) (by decide)
  split
  · next h => exact hshort 10 _ h (by decide) (by decide) (by decide)
  split
  · next h => exact hshort 13 _ h (by decide) (by decide) (by decide)
  split
  · next h => exact hshort 9 _ h (by decide) (by decide) (by decide)
  split
  · next h => exact hshort 12 _ h (by decide) (by decide) (by decide)
  split
  · next h => exact hshort 8 _ h (by decide) (by decide) (by decide)
  split
  · next h34 h92 _ _ _ _ _ h => exact .plain h34 h92 h
  split
  · next h => exact .unit h
  · next h => exact .pair h

theorem unitEscape_ne_nil (n : Nat) : unitEscape n ≠ [] := List.cons_ne_nil _ _

/-- **A written code point is read as its units.** -/
theorem readString_escape (opened done : Text) (c : CodePoint) {rest : Text} (hrest : rest ≠ []) :
    readString opened done (escape c ++ rest) =
      readString opened ((units c).reverse ++ done) rest := by
  have hform := escape_form c
  generalize escape c = written at hform
  cases hform with
  | short he hx hc =>
    rw [units_of_lt hc, List.cons_append, List.singleton_append]
    conv => lhs; unfold readString
    rw [if_neg (by decide), if_pos (by decide)]
    simp only [if_neg he, hx]
    rfl
  | plain h34 h92 hc =>
    rw [units_of_lt (by omega)]
    conv => lhs; unfold readString
    simp only [List.singleton_append, if_neg h34, if_neg h92,
      if_neg (show ¬ c.val ≤ 0x1f by omega)]
    rfl
  | unit hc =>
    rw [readString_unitEscape opened done hc hrest, units_of_lt hc, ofNat_val]
    rfl
  | pair hc =>
    have hlt := c.isLt
    rw [List.append_assoc, readString_unitEscape opened done (by omega) (by simp [unitEscape_ne_nil]),
      readString_unitEscape _ _ (by omega) hrest, units_of_not_lt hc]
    rfl

/-! ## Pairs of surrogates -/

/-- No high surrogate stands right in front of a low one. -/
inductive PairFree : Text → Prop
  | nil : PairFree []
  | cons {c : CodePoint} {t : Text}
    (h : ∀ d ∈ t.head?, ¬ (c.isHighSurrogate = true ∧ d.isLowSurrogate = true)) (ht : PairFree t) :
    PairFree (c :: t)

theorem pairFree_of_not_high {t : Text} (h : t.any CodePoint.isHighSurrogate = false) :
    PairFree t := by
  induction t with
  | nil => exact .nil
  | cons c rest ih =>
    rw [List.any_cons, Bool.or_eq_false_iff] at h
    exact .cons (fun d _ hpair => by rw [h.1] at hpair; cases hpair.1) (ih h.2)

theorem joinPairs_cons {c : CodePoint} {t : Text}
    (h : ∀ d ∈ t.head?, ¬ (c.isHighSurrogate = true ∧ d.isLowSurrogate = true)) :
    joinPairs (c :: t) = c :: joinPairs t := by
  cases t with
  | nil => rfl
  | cons d rest =>
    have hnot : (c.isHighSurrogate && d.isLowSurrogate) = false := by
      simpa using h d rfl
    conv => lhs; unfold joinPairs
    rw [hnot]
    rfl

theorem head?_units {t : Text} {d : CodePoint} (h : d ∈ (t.flatMap units).head?)
    (hd : d.isLowSurrogate = true) : d ∈ t.head? := by
  cases t with
  | nil => cases h
  | cons c rest =>
    have hlt := c.isLt
    rw [List.flatMap_cons] at h
    by_cases hc : c.val < 0x10000
    · rwa [units_of_lt hc] at h
    · rw [units_of_not_lt hc] at h
      obtain rfl := Option.some.inj h
      rw [CodePoint.isLowSurrogate, val_ofNat (by omega)] at hd
      simp only [Bool.and_eq_true, decide_eq_true_eq] at hd
      omega

/-- **Units are joined to the text that they came from.** -/
theorem joinPairs_units {t : Text} (h : PairFree t) : joinPairs (t.flatMap units) = t := by
  induction h with
  | nil => rfl
  | @cons c t h ht ih =>
    have hlt := c.isLt
    rw [List.flatMap_cons]
    by_cases hc : c.val < 0x10000
    · rw [units_of_lt hc, List.singleton_append, joinPairs_cons, ih]
      exact fun d hd hpair => h d (head?_units hd hpair.2) hpair
    · rw [units_of_not_lt hc]
      have hhigh := val_ofNat (show 0xd800 + (c.val - 0x10000) / 0x400 < 0x110000 by omega)
      have hlow := val_ofNat (show 0xdc00 + (c.val - 0x10000) % 0x400 < 0x110000 by omega)
      have hpair : (CodePoint.isHighSurrogate (CodePoint.ofNat (0xd800 + (c.val - 0x10000) / 0x400)) &&
          CodePoint.isLowSurrogate (CodePoint.ofNat (0xdc00 + (c.val - 0x10000) % 0x400))) = true := by
        rw [CodePoint.isHighSurrogate, CodePoint.isLowSurrogate, hhigh, hlow]
        simp only [Bool.and_eq_true, decide_eq_true_eq]
        omega
      rw [List.cons_append, List.cons_append, List.nil_append]
      conv => lhs; unfold joinPairs
      rw [if_pos hpair, ih, hhigh, hlow]
      rw [show 0x10000 + (0xd800 + (c.val - 0x10000) / 0x400 - 0xd800) * 0x400 +
        (0xdc00 + (c.val - 0x10000) % 0x400 - 0xdc00) = c.val by omega, ofNat_val]

theorem head?_joinPairs {t : Text} {d : CodePoint} (h : d ∈ (joinPairs t).head?)
    (hd : d.isLowSurrogate = true) : d ∈ t.head? := by
  unfold joinPairs at h
  split at h
  · cases h
  · exact h
  · next c e rest =>
    split at h
    · next hpair =>
      obtain rfl := Option.some.inj h
      simp only [CodePoint.isHighSurrogate, CodePoint.isLowSurrogate, Bool.and_eq_true,
        decide_eq_true_eq] at hpair hd
      rw [val_ofNat (by omega)] at hd
      omega
    · exact h

/-- **What is joined is free of pairs.** -/
theorem pairFree_joinPairs (t : Text) : PairFree (joinPairs t) := by
  fun_induction joinPairs t with
  | case1 => exact .nil
  | case2 c => exact .cons nofun .nil
  | case3 c d rest hpair ih =>
    refine .cons (fun e _ ⟨hhigh, _⟩ => ?_) ih
    simp only [CodePoint.isHighSurrogate, CodePoint.isLowSurrogate, Bool.and_eq_true,
      decide_eq_true_eq] at hpair hhigh
    rw [val_ofNat (by omega)] at hhigh
    omega
  | case4 c d rest hnot ih =>
    refine .cons (fun e he ⟨hhigh, hlow⟩ => ?_) ih
    obtain rfl : d = e := by simpa using head?_joinPairs he hlow
    exact hnot (by rw [hhigh, hlow]; rfl)

/-! ## Whole strings -/

theorem readString_escapes (opened rest : Text) : ∀ (t done : Text),
    readString opened done (t.flatMap escape ++ CodePoint.ofChar '"' :: rest) =
      .ok (joinPairs (done.reverse ++ t.flatMap units), rest)
  | [], done => by
    rw [List.flatMap_nil, List.nil_append]
    unfold readString
    rw [if_pos (by decide), List.flatMap_nil, List.append_nil]
  | c :: t, done => by
    rw [List.flatMap_cons, List.append_assoc, readString_escape opened done c (by simp),
      readString_escapes opened rest t, List.flatMap_cons]
    simp

/-- **A string is read back from its written form.** -/
theorem readString_writeString {t : Text} (h : PairFree t) (opened rest : Text) :
    readString opened [] (t.flatMap escape ++ CodePoint.ofChar '"' :: rest) = .ok (t, rest) := by
  rw [readString_escapes opened rest t []]
  simp [joinPairs_units h]

theorem pairFree_of_readString {opened done t left behind : Text}
    (h : readString opened done left = .ok (t, behind)) : PairFree t := by
  fun_induction readString opened done left <;> simp_all
  exact h.1 ▸ pairFree_joinPairs _

end Json

end PackageAudit
