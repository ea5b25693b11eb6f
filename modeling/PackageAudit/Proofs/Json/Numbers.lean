import PackageAudit.Json.Reader
import PackageAudit.Json.Writer
import PackageAudit.Proofs.Decimal.Binary64
import PackageAudit.Proofs.Decimal.Shortest

/-! # Numbers of JSON documents

A whole number is read back from its digits (`readNumber_ofInt`). Any other number of the format is
written in a form that is read as some number of the format again (`readNumber_shortestText`), also if
another part of a document follows (`Ends`).
-/

namespace PackageAudit.Json

/-- What can follow a value in an indented document. -/
def Ends (rest : Text) : Prop :=
  ∀ c ∈ rest.head?, c = CodePoint.ofChar ',' ∨ c = CodePoint.ofChar '\n'

theorem ends_nil : Ends [] := nofun

theorem Ends.head {rest : Text} (h : Ends rest) {p : CodePoint → Prop}
    (hcomma : p (CodePoint.ofChar ',')) (hline : p (CodePoint.ofChar '\n')) :
    ∀ c ∈ rest.head?, p c := by
  intro c hc
  rcases h c hc with rfl | rfl
  · exact hcomma
  · exact hline

/-! ## Parts of a number -/

/-- Digits in front of the point. -/
structure Whole (whole : Text) : Prop where
  ne_nil : whole ≠ []
  digit : ∀ c ∈ whole, c.isDigit = true
  head : whole.head? = some (CodePoint.ofChar '0') → whole = [CodePoint.ofChar '0']

theorem whole_ofNat (n : Nat) : Whole (Text.ofNat n) := by
  refine ⟨Text.ofNat_ne_nil n, fun c hc => Text.isDigit_of_mem_ofNat hc, fun h => ?_⟩
  rcases Nat.eq_zero_or_pos n with rfl | hn
  · rfl
  · exact absurd h (Text.head?_ofNat hn)

section
variable {whole places rest : Text}

theorem wholePart?_append (hw : Whole whole) (hr : ∀ c ∈ rest.head?, c.isDigit = false) :
    wholePart? (whole ++ rest) = some (whole, rest) := by
  cases whole with
  | nil => exact absurd rfl hw.ne_nil
  | cons c digits =>
    have hc : c.isDigit = true := hw.digit c List.mem_cons_self
    have hspan : spanDigits (c :: digits ++ rest) = (c :: digits, rest) := by
      obtain ⟨htake, hdrop⟩ := Text.takeWhile_digits hw.digit hr
      rw [spanDigits, htake, hdrop]
    rw [List.cons_append] at hspan ⊢
    unfold wholePart?
    by_cases hzero : c.val = 48
    · have hz : c = CodePoint.ofChar '0' := Fin.ext hzero
      have hnil : digits = [] := (List.cons.inj (hw.head (by rw [hz]; rfl))).2
      subst hnil
      simp only [if_pos hzero]
      rfl
    · simp only [if_neg hzero, if_pos hc, hspan]

theorem fraction_none (h : ∀ c ∈ rest.head?, c.val ≠ 46) : fraction rest = ([], rest) := by
  cases rest with
  | nil => rfl
  | cons c behind =>
    unfold fraction
    simp only
    rw [if_neg fun hp => h c rfl hp.1]

theorem fraction_some (hp : ∀ c ∈ places, c.isDigit = true) (hne : places ≠ [])
    (hr : ∀ c ∈ rest.head?, c.isDigit = false) :
    fraction (CodePoint.ofChar '.' :: (places ++ rest)) = (places, rest) := by
  obtain ⟨htake, hdrop⟩ := Text.takeWhile_digits hp hr
  unfold fraction spanDigits
  simp only [htake, hdrop]
  rw [if_pos ⟨rfl, hne⟩]

theorem exponent?_none (h : ∀ c ∈ rest.head?, c ≠ CodePoint.ofChar 'e' ∧ c ≠ CodePoint.ofChar 'E') :
    exponent? rest = none := by
  cases rest with
  | nil => rfl
  | cons c behind =>
    obtain ⟨he, hE⟩ := h c rfl
    unfold exponent?
    simp only
    rw [if_neg (not_or.mpr ⟨he, hE⟩)]

theorem exponentText_eq (e : Int) : ∃ sign digits, Layout.exponentText e =
    CodePoint.ofChar 'e' :: sign :: digits ∧ (sign.val = 45 ∨ sign.val = 43) ∧ digits ≠ [] ∧
      ∀ c ∈ digits, c.isDigit = true := by
  refine ⟨if e < 0 then CodePoint.ofChar '-' else CodePoint.ofChar '+',
    Text.zeros (2 - (Text.ofNat e.natAbs).length) ++ Text.ofNat e.natAbs, ?_, ?_, ?_, ?_⟩
  · unfold Layout.exponentText
    split <;> rfl
  · split
    · exact .inl rfl
    · exact .inr rfl
  · exact List.append_ne_nil_of_right_ne_nil _ (Text.ofNat_ne_nil _)
  · intro c hc
    rcases List.mem_append.mp hc with hc | hc
    · rw [List.eq_of_mem_replicate hc]
      rfl
    · exact Text.isDigit_of_mem_ofNat hc

theorem exponent?_some (e : Int) : ∃ e', ∀ rest, Ends rest →
    exponent? (Layout.exponentText e ++ rest) = some (e', rest) := by
  obtain ⟨sign, digits, htext, hsign, hne, hdigit⟩ := exponentText_eq e
  refine ⟨if sign.val = 45 then -(Text.toNat digits : Int) else Text.toNat digits,
    fun rest hrest => ?_⟩
  obtain ⟨htake, hdrop⟩ :=
    Text.takeWhile_digits hdigit (hrest.head (p := fun c => c.isDigit = false) rfl rfl)
  rw [htext, List.cons_append, List.cons_append]
  unfold exponent? spanDigits
  simp only [true_or, if_true]
  rcases hsign with hs | hs
  · simp [hs, htake, hdrop, hne]
  · simp [hs, htake, hdrop, hne]

/-! ## Whole numbers and others -/

/-- The number of the format that digits stand for. -/
def realOf (negative : Bool) (whole places : Text) (e : Int) : Binary64 :=
  Binary64.ofDecimal negative (Text.toNat (whole ++ places))
    ((whole ++ places).dropWhile (·.val == 48)).length e

theorem readNumber_sign (negative : Bool) (hw : Whole whole)
    (hr : ∀ c ∈ rest.head?, c.isDigit = false) :
    readNumber (Layout.signText negative ++ (whole ++ rest)) =
      match exponent? (fraction rest).2, (fraction rest).1 with
      | none, [] =>
        if maxIntegerDigits < whole.length then .error (.integerTooLong whole.length)
        else
          .ok (.int (if negative then -(Text.toNat whole : Int) else Text.toNat whole),
            (fraction rest).2)
      | none, places =>
        .ok (.real (realOf negative whole places (-(places.length : Int))), (fraction rest).2)
      | some (e, behind), places =>
        .ok (.real (realOf negative whole places (e - places.length)), behind) := by
  have hpart := wholePart?_append hw hr
  cases negative with
  | true =>
    unfold readNumber Layout.signText
    simp only [if_true]
    rw [show Text.ofString "-" ++ (whole ++ rest) = CodePoint.ofChar '-' :: (whole ++ rest) by rfl]
    simp only [if_pos (show (CodePoint.ofChar '-').val = 45 by rfl), hpart]
    generalize fraction rest = parts
    obtain ⟨places, behind⟩ := parts
    cases exponent? behind <;> cases places <;> rfl
  | false =>
    cases whole with
    | nil => exact absurd rfl hw.ne_nil
    | cons c digits =>
      have hc := CodePoint.val_of_isDigit (hw.digit c List.mem_cons_self)
      rw [List.cons_append] at hpart
      unfold readNumber Layout.signText
      simp only [Bool.false_eq_true, if_false]
      rw [show Text.ofString "" ++ (c :: digits ++ rest) = c :: (digits ++ rest) by rfl]
      simp only [if_neg (show ¬ c.val = 45 by omega), hpart]
      generalize fraction rest = parts
      obtain ⟨places, behind⟩ := parts
      cases exponent? behind <;> cases places <;> rfl

end

theorem ofInt_eq (i : Int) :
    Text.ofInt i = Layout.signText (decide (i < 0)) ++ Text.ofNat i.natAbs := by
  cases i with
  | ofNat n => rfl
  | negSucc n =>
    rw [decide_eq_true (Int.negSucc_lt_zero n)]
    rfl

/-- **A whole number is read back from its digits.** -/
theorem readNumber_ofInt {i : Int} (h : i.natAbs < 10 ^ maxIntegerDigits) {rest : Text}
    (hrest : Ends rest) : readNumber (Text.ofInt i ++ rest) = .ok (.int i, rest) := by
  have hlen : ¬ maxIntegerDigits < (Text.ofNat i.natAbs).length :=
    Nat.not_lt.mpr ((Text.length_ofNat_le_iff (by decide)).mpr h)
  have hdigit := hrest.head (p := fun c => c.isDigit = false) rfl rfl
  have hpoint := fraction_none (hrest.head (p := fun c => c.val ≠ 46) (by decide) (by decide))
  have hexp := exponent?_none (hrest.head
    (p := fun c => c ≠ CodePoint.ofChar 'e' ∧ c ≠ CodePoint.ofChar 'E') (by decide) (by decide))
  rw [ofInt_eq, List.append_assoc, readNumber_sign _ (whole_ofNat i.natAbs) hdigit]
  simp only [hpoint, hexp, if_neg hlen, Text.toNat_ofNat]
  have hsign : (if decide (i < 0) = true then -(i.natAbs : Int) else (i.natAbs : Int)) = i := by
    by_cases hi : i < 0
    · rw [if_pos (decide_eq_true hi)]
      omega
    · rw [if_neg (by simpa using hi)]
      omega
  rw [hsign]

/-- The forms of a number that is not whole. -/
inductive RealForm : Text → Prop
  | point {whole places : Text} (hw : Whole whole) (hp : ∀ c ∈ places, c.isDigit = true)
    (hne : places ≠ []) : RealForm (whole ++ CodePoint.ofChar '.' :: places)
  | power {whole : Text} (hw : Whole whole) (e : Int) :
    RealForm (whole ++ Layout.exponentText e)
  | both {whole places : Text} (hw : Whole whole) (hp : ∀ c ∈ places, c.isDigit = true)
    (hne : places ≠ []) (e : Int) :
    RealForm (whole ++ CodePoint.ofChar '.' :: (places ++ Layout.exponentText e))

theorem readNumber_realForm {t : Text} (h : RealForm t) (negative : Bool) :
    ∃ x, ∀ rest, Ends rest →
      readNumber (Layout.signText negative ++ (t ++ rest)) = .ok (.real x, rest) := by
  have hdot : ∀ {t rest : Text}, ∀ c ∈ (CodePoint.ofChar '.' :: t ++ rest).head?,
      c.isDigit = false := by
    intro t rest c hc
    rw [← Option.some.inj hc]
    rfl
  have hexponent : ∀ (e : Int) (rest : Text), (∀ c ∈ (Layout.exponentText e ++ rest).head?,
      c.isDigit = false ∧ c.val ≠ 46) := by
    intro e rest c hc
    obtain ⟨sign, digits, htext, -⟩ := exponentText_eq e
    rw [htext] at hc
    rw [← Option.some.inj hc]
    decide
  cases h with
  | @point whole places hw hp hne =>
    refine ⟨realOf negative whole places (-(places.length : Int)), fun rest hrest => ?_⟩
    have hpoint := fraction_some hp hne (hrest.head (p := fun c => c.isDigit = false) rfl rfl)
    have hexp := exponent?_none (hrest.head
      (p := fun c => c ≠ CodePoint.ofChar 'e' ∧ c ≠ CodePoint.ofChar 'E') (by decide) (by decide))
    rw [List.append_assoc, readNumber_sign negative hw hdot, List.cons_append, hpoint]
    cases places with
    | nil => exact absurd rfl hne
    | cons d places => simp only [hexp]
  | @power whole hw e =>
    obtain ⟨e', he⟩ := exponent?_some e
    refine ⟨realOf negative whole [] (e' - 0), fun rest hrest => ?_⟩
    have hpoint := fraction_none fun c hc => (hexponent e rest c hc).2
    rw [List.append_assoc,
      readNumber_sign negative hw fun c hc => (hexponent e rest c hc).1, hpoint]
    simp only [he rest hrest]
    rfl
  | @both whole places hw hp hne e =>
    obtain ⟨e', he⟩ := exponent?_some e
    refine ⟨realOf negative whole places (e' - places.length), fun rest hrest => ?_⟩
    have hpoint := fraction_some hp hne fun c hc => (hexponent e rest c hc).1
    rw [List.append_assoc, readNumber_sign negative hw hdot, List.cons_append, List.append_assoc,
      hpoint]
    simp only [he rest hrest]

/-! ## Numbers of the format -/

theorem isDigit_of_mem_zeros {n : Nat} {c : CodePoint} (hc : c ∈ Text.zeros n) :
    c.isDigit = true := by
  rw [List.eq_of_mem_replicate hc]
  rfl

section
variable {d : Digits} (hd : d.Proper)

include hd in
theorem whole_of_head {whole : Text} (hdigit : ∀ c ∈ whole, c.isDigit = true)
    (hhead : whole.head? = d.digits.head?) : Whole whole := by
  refine ⟨fun hnil => ?_, hdigit, fun h => absurd (hhead ▸ h) hd.head⟩
  rw [hnil] at hhead
  exact hd.ne_nil (List.head?_eq_none_iff.mp hhead.symm)

include hd in
theorem realForm_power (e : Int) : RealForm (d.digits.take 1 ++
    (if (d.digits.drop 1).isEmpty then [] else CodePoint.ofChar '.' :: d.digits.drop 1) ++
      Layout.exponentText e) := by
  cases hdigits : d.digits with
  | nil => exact absurd hdigits hd.ne_nil
  | cons c rest =>
    have hw : Whole [c] := by
      refine whole_of_head hd (fun x hx => ?_) (by rw [hdigits]; rfl)
      exact hd.digit x (hdigits ▸ List.mem_singleton.mp hx ▸ List.mem_cons_self)
    cases rest with
    | nil => exact .power hw e
    | cons next rest =>
      have hplaces : ∀ x ∈ next :: rest, x.isDigit = true := fun x hx =>
        hd.digit x (hdigits ▸ List.mem_cons_of_mem c hx)
      exact .both hw hplaces (List.cons_ne_nil next rest) e

include hd in
theorem realForm_digitsText : RealForm (Layout.json.digitsText d) := by
  have hkeeps : Layout.json.keepsPoint = true := rfl
  unfold Layout.digitsText
  simp only [hkeeps, if_true]
  split
  · exact realForm_power hd d.exponent
  split
  · have hzero : Whole [CodePoint.ofChar '0'] := whole_ofNat 0
    have hplaces : ∀ c ∈ Text.zeros (-d.exponent - 1).toNat ++ d.digits, c.isDigit = true :=
      fun c hc => (List.mem_append.mp hc).elim isDigit_of_mem_zeros (hd.digit c)
    exact .point hzero hplaces (List.append_ne_nil_of_right_ne_nil _ hd.ne_nil)
  split
  · have hwhole : Whole (d.digits ++ Text.zeros (d.exponent + 1 - d.digits.length).toNat) := by
      refine whole_of_head hd (fun c hc => ?_) ?_
      · exact (List.mem_append.mp hc).elim (hd.digit c) isDigit_of_mem_zeros
      · rw [List.head?_append, List.head?_eq_some_head hd.ne_nil]
        rfl
    exact .point hwhole (fun c hc => isDigit_of_mem_zeros (n := 1) hc) (List.cons_ne_nil _ _)
  · next hneg hfew =>
    refine .point (whole_of_head hd (fun c hc => hd.digit c (List.take_subset _ _ hc)) ?_)
      (fun c hc => hd.digit c (List.drop_subset _ _ hc)) ?_
    · rw [List.head?_take, if_neg (by omega)]
    · rw [Ne, List.drop_eq_nil_iff]
      omega

end

theorem realForm_shortestText {negative : Bool} {s : Nat} {e : Int}
    (hs : (Binary64.finite negative s e).Fits) : ∃ t, RealForm t ∧
      Layout.json.shortestText (.finite negative s e) = Layout.signText negative ++ t := by
  unfold Layout.shortestText Layout.numberText
  cases s with
  | zero =>
    have hzero : ∀ c ∈ [CodePoint.ofChar '0'], c.isDigit = true := fun c hc =>
      List.mem_singleton.mp hc ▸ rfl
    exact ⟨_, .point (whole_ofNat 0) hzero (List.cons_ne_nil _ _), rfl⟩
  | succ s => exact ⟨_, realForm_digitsText (Digits.proper_shortest (Nat.succ_pos s) hs), rfl⟩

/-! ## Numbers as values -/

/-- Does a text of two or more code points begin with no digit, also behind a sign? -/
def unlikeNumber : Text → Bool
  | a :: b :: _ => !a.isDigit && (a != CodePoint.ofChar '-' || !b.isDigit)
  | _ => false

theorem readWord?_number (negative : Bool) {c : CodePoint} (hc : c.isDigit = true) (rest : Text) :
    readWord? (Layout.signText negative ++ c :: rest) = none := by
  have hwords : words.all (fun x => unlikeNumber x.1) = true := by decide
  have hfind : words.find? (fun x => x.1.isPrefixOf (Layout.signText negative ++ c :: rest)) =
      none := by
    refine List.find?_eq_none.mpr fun x hx hprefix => ?_
    obtain ⟨left, happ⟩ := List.isPrefixOf_iff_prefix.mp hprefix
    have hword := List.all_eq_true.mp hwords x hx
    rcases hx : x.1 with _ | ⟨a, _ | ⟨b, word⟩⟩
    · simp [hx, unlikeNumber] at hword
    · simp [hx, unlikeNumber] at hword
    · rw [hx] at happ
      simp only [hx, unlikeNumber, Bool.and_eq_true, Bool.or_eq_true, Bool.not_eq_true', bne_iff_ne] at hword
      cases negative with
      | true =>
        obtain ⟨h₁, h₂⟩ := List.cons.inj happ
        obtain ⟨h₂, -⟩ := List.cons.inj h₂
        rw [← h₂, hword.2.resolve_left (fun hne => hne h₁)] at hc
        cases hc
      | false =>
        obtain ⟨h₁, -⟩ := List.cons.inj happ
        rw [← h₁, hword.1] at hc
        cases hc
  unfold readWord?
  rw [hfind]
  rfl

theorem readValue_number (n : Nat) (negative : Bool) {c : CodePoint} (hc : c.isDigit = true)
    (rest : Text) : readValue (n + 1) (Layout.signText negative ++ c :: rest) =
      readNumber (Layout.signText negative ++ c :: rest) := by
  have hval := CodePoint.val_of_isDigit hc
  have hword := readWord?_number negative hc rest
  cases negative with
  | true =>
    rw [show Layout.signText true ++ c :: rest = CodePoint.ofChar '-' :: c :: rest by rfl] at *
    unfold readValue
    rw [if_neg (by decide), if_neg (by decide), if_neg (by decide), hword]
  | false =>
    rw [show Layout.signText false ++ c :: rest = c :: rest by rfl] at *
    unfold readValue
    rw [if_neg (by omega), if_neg (by omega), if_neg (by omega), hword]

theorem RealForm.exists_digit {t : Text} (h : RealForm t) :
    ∃ c rest, t = c :: rest ∧ c.isDigit = true := by
  have hwhole : ∀ {whole : Text}, Whole whole → ∀ more, ∃ c rest, whole ++ more = c :: rest ∧
      c.isDigit = true := by
    intro whole hw more
    cases whole with
    | nil => exact absurd rfl hw.ne_nil
    | cons c whole => exact ⟨c, whole ++ more, rfl, hw.digit c List.mem_cons_self⟩
  cases h with
  | point hw _ _ => exact hwhole hw _
  | power hw e => exact hwhole hw _
  | both hw _ _ e => exact hwhole hw _

theorem readValue_word (n : Nat) (rest : Text) {word : Text} {v : Json} (h : (word, v) ∈ words) :
    readValue (n + 1) (word ++ rest) = .ok (v, rest) := by
  unfold words at h
  rcases List.mem_cons.mp h with h | h
  · cases h; rfl
  rcases List.mem_cons.mp h with h | h
  · cases h; rfl
  rcases List.mem_cons.mp h with h | h
  · cases h; rfl
  rcases List.mem_cons.mp h with h | h
  · cases h; rfl
  rcases List.mem_cons.mp h with h | h
  · cases h; rfl
  · cases List.mem_singleton.mp h; rfl

/-- **A number of the format is read as one**, be it finite or not. -/
theorem readValue_shortestText {x : Binary64} (hx : x.Fits) : ∃ y, ∀ n rest, Ends rest →
    readValue (n + 1) (Layout.json.shortestText x ++ rest) = .ok (.real y, rest) := by
  cases x with
  | nan =>
    refine ⟨.nan, fun n rest _ => ?_⟩
    exact readValue_word n rest (show (Text.ofString "NaN", Json.real .nan) ∈ words by simp [words])
  | infinite negative =>
    refine ⟨.infinite negative, fun n rest _ => ?_⟩
    cases negative with
    | true =>
      exact readValue_word n rest
        (show (Text.ofString "-Infinity", Json.real (.infinite true)) ∈ words by simp [words])
    | false =>
      exact readValue_word n rest
        (show (Text.ofString "Infinity", Json.real (.infinite false)) ∈ words by simp [words])
  | finite negative s e =>
    obtain ⟨t, hform, htext⟩ := realForm_shortestText hx
    obtain ⟨y, hy⟩ := readNumber_realForm hform negative
    refine ⟨y, fun n rest hrest => ?_⟩
    obtain ⟨c, t, rfl, hc⟩ := hform.exists_digit
    rw [htext, List.append_assoc, List.cons_append, readValue_number n negative hc]
    exact hy rest hrest

theorem readValue_ofInt {i : Int} (h : i.natAbs < 10 ^ maxIntegerDigits) (n : Nat) {rest : Text}
    (hrest : Ends rest) : readValue (n + 1) (Text.ofInt i ++ rest) = .ok (.int i, rest) := by
  have hnumber := readNumber_ofInt h hrest
  rw [ofInt_eq, List.append_assoc] at *
  obtain ⟨c, digits, hdigits, hc⟩ := Text.exists_ofNat_eq_cons i.natAbs
  rw [hdigits, List.cons_append] at hnumber ⊢
  rw [readValue_number n _ hc, hnumber]

end PackageAudit.Json
