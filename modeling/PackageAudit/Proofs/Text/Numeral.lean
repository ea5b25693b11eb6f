import PackageAudit.Text.Basic
import Mathlib.Algebra.Group.Nat.Defs

/-! # Decimal numerals

A number is read back from its decimal digits, with zeros in front of them or not. The digits do not
begin with a zero, and there are as many as the size of the number asks for.
-/

namespace PackageAudit

theorem CodePoint.val_of_isDigit {c : CodePoint} (h : c.isDigit = true) :
    48 ≤ c.val ∧ c.val ≤ 57 := by
  unfold isDigit digit? at h
  split at h
  · assumption
  · cases h

namespace Text

theorem digit?_ofChar {c : Char} (h : c.isDigit = true) :
    (CodePoint.ofChar c).digit? = some (c.toNat - 48) := by
  have hc : 48 ≤ c.toNat ∧ c.toNat ≤ 57 := by
    simp only [Char.isDigit, Bool.and_eq_true, decide_eq_true_eq] at h
    exact ⟨h.1, h.2⟩
  exact if_pos hc

theorem foldl_ofChar {cs : List Char} (h : ∀ c ∈ cs, c.isDigit = true) (n : Nat) :
    (cs.map CodePoint.ofChar).foldl (fun n c => 10 * n + c.digit?.getD 0) n =
      Nat.ofDigitChars 10 cs n := by
  induction cs generalizing n with
  | nil => simp
  | cons c cs ih =>
    rw [List.map_cons, List.foldl_cons, ih fun x hx => h x (List.mem_cons_of_mem c hx),
      Nat.ofDigitChars_cons, digit?_ofChar (h c List.mem_cons_self)]
    rfl

/-- **A number is read back from its digits.** -/
theorem toNat_ofNat (n : Nat) : toNat (ofNat n) = n := by
  have hd : ∀ c ∈ Nat.toDigits 10 n, c.isDigit = true := fun c =>
    Nat.isDigit_of_mem_toDigits (by decide) (by decide)
  rw [toNat, ofNat, foldl_ofChar hd, Nat.ofDigitChars_ten_toDigits]

theorem toNat_zeros_append (k : Nat) (digits : Text) : toNat (zeros k ++ digits) = toNat digits := by
  induction k with
  | zero => rfl
  | succ k ih => exact ih

theorem isDigit_of_mem_ofNat {n : Nat} {c : CodePoint} (h : c ∈ ofNat n) : c.isDigit = true := by
  obtain ⟨d, hd, rfl⟩ := List.mem_map.mp h
  have := Nat.isDigit_of_mem_toDigits (by decide) (by decide) hd
  rw [CodePoint.isDigit, digit?_ofChar this]
  rfl

theorem ofNat_ne_nil (n : Nat) : ofNat n ≠ [] := by
  unfold ofNat
  exact fun h => Nat.toDigits_ne_nil (List.map_eq_nil_iff.mp h)

theorem exists_ofNat_eq_cons (n : Nat) : ∃ c digits, ofNat n = c :: digits ∧ c.isDigit = true := by
  obtain ⟨c, digits, h⟩ := List.exists_cons_of_ne_nil (ofNat_ne_nil n)
  exact ⟨c, digits, h, isDigit_of_mem_ofNat (h ▸ List.mem_cons_self)⟩

theorem ofNat_of_lt {n : Nat} (h : n < 10) : ofNat n = [CodePoint.ofChar n.digitChar] := by
  rw [ofNat, Nat.toDigits_of_lt_base h]
  rfl

theorem ofNat_of_le {n : Nat} (h : 10 ≤ n) :
    ofNat n = ofNat (n / 10) ++ [CodePoint.ofChar (n % 10).digitChar] := by
  rw [ofNat, Nat.toDigits_of_base_le (by decide) h, List.map_append]
  rfl

/-- The digits of a number begin with a zero only if the number is zero. -/
theorem head?_ofNat {n : Nat} (h : 0 < n) : (ofNat n).head? ≠ some (CodePoint.ofChar '0') := by
  induction n using Nat.strongRecOn with
  | _ n ih =>
    by_cases hn : n < 10
    · have hdigit : ∀ d < 10, 0 < d → CodePoint.ofChar d.digitChar ≠ CodePoint.ofChar '0' := by
        decide
      rw [ofNat_of_lt hn]
      exact fun hc => hdigit n hn h (Option.some.inj hc)
    · have hne := ofNat_ne_nil (n / 10)
      have hrest := ih (n / 10) (by omega) (by omega)
      rw [ofNat_of_le (by omega)]
      cases hd : ofNat (n / 10) with
      | nil => exact absurd hd hne
      | cons c digits => rwa [hd] at hrest

theorem length_ofNat_le_iff {n k : Nat} (h : 0 < k) : (ofNat n).length ≤ k ↔ n < 10 ^ k := by
  rw [ofNat, List.length_map, Nat.length_toDigits_le_iff (by decide) h]

/-- A number is below the power of ten for the number of its digits. -/
theorem toNat_lt (digits : Text) : toNat digits < 10 ^ digits.length := by
  have hdigit : ∀ c : CodePoint, c.digit?.getD 0 ≤ 9 := by
    intro c
    unfold CodePoint.digit?
    split
    · simp only [Option.getD_some]
      omega
    · exact Nat.zero_le 9
  have hfold : ∀ (t : Text) (n k : Nat), n < 10 ^ k →
      t.foldl (fun n c => 10 * n + c.digit?.getD 0) n < 10 ^ (k + t.length) := by
    intro t
    induction t with
    | nil => exact fun n k h => h
    | cons c t ih =>
      intro n k h
      have hc := hdigit c
      have hnext := ih (10 * n + c.digit?.getD 0) (k + 1) (by rw [Nat.pow_succ]; omega)
      rwa [Nat.add_right_comm] at hnext
  have hall := hfold digits 0 0 (by decide)
  rwa [Nat.zero_add] at hall

/-! ## Runs of digits -/

/-- The digits at the beginning of a text end where something else follows. -/
theorem takeWhile_digits {digits rest : Text} (hd : ∀ c ∈ digits, c.isDigit = true)
    (hr : ∀ c ∈ rest.head?, c.isDigit = false) :
    (digits ++ rest).takeWhile CodePoint.isDigit = digits ∧
      (digits ++ rest).dropWhile CodePoint.isDigit = rest := by
  have hrest : rest.takeWhile CodePoint.isDigit = [] ∧ rest.dropWhile CodePoint.isDigit = rest := by
    cases rest with
    | nil => exact ⟨rfl, rfl⟩
    | cons c rest => simp [hr c rfl]
  rw [List.takeWhile_append_of_pos hd, List.dropWhile_append_of_pos hd, hrest.1, hrest.2]
  exact ⟨List.append_nil digits, rfl⟩

end Text

end PackageAudit
