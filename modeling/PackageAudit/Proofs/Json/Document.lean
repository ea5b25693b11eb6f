import PackageAudit.Proofs.Json.Values
import PackageAudit.Proofs.Text.Lines
import PackageAudit.Proofs.Text.Utf8

/-! # JSON documents

A document is made of printable ASCII and line feeds (`printed_document`), so that every value can
be written to a file; a value that was read is read back from it (`read_document`).
-/

namespace PackageAudit.Json

/-! ## Code points of a document -/

/-- The code points that documents are made of. -/
def isPrinted (c : CodePoint) : Bool := c.val == 10 || (32 ≤ c.val && c.val ≤ 126)

theorem isPrinted_iff {c : CodePoint} :
    isPrinted c = true ↔ c.val = 10 ∨ (32 ≤ c.val ∧ c.val ≤ 126) := by
  simp [isPrinted]

/-- Only such code points are in a text. -/
def Printed (t : Text) : Prop := ∀ c ∈ t, isPrinted c = true

theorem printed_of_all {t : Text} (h : t.all isPrinted = true) : Printed t := List.all_eq_true.mp h

theorem printed_append {t u : Text} : Printed (t ++ u) ↔ Printed t ∧ Printed u :=
  List.forall_mem_append

theorem printed_cons {c : CodePoint} {t : Text} : Printed (c :: t) ↔ isPrinted c = true ∧ Printed t :=
  List.forall_mem_cons

theorem printed_digits {t : Text} (h : ∀ c ∈ t, c.isDigit = true) : Printed t := by
  intro c hc
  have hval := CodePoint.val_of_isDigit (h c hc)
  exact isPrinted_iff.mpr (by omega)

theorem printed_newLine (depth : Nat) : Printed (newLine depth) := by
  refine printed_cons.mpr ⟨rfl, fun c hc => ?_⟩
  rw [List.eq_of_mem_replicate hc]
  rfl

theorem printed_unitEscape {n : Nat} (h : n < 0x10000) : Printed (unitEscape n) := by
  have hdigit : ∀ d < 16, isPrinted (CodePoint.ofChar d.digitChar) = true := by decide
  unfold unitEscape
  rw [Text.hex_four h, printed_append]
  refine ⟨printed_of_all (by decide), fun c hc => ?_⟩
  obtain ⟨d, hd, rfl⟩ := List.mem_map.mp hc
  refine hdigit d ?_
  simp only [List.mem_cons, List.not_mem_nil, or_false] at hd
  omega

theorem printed_escape (c : CodePoint) : Printed (escape c) := by
  have hform := escape_form c
  generalize escape c = t at hform
  cases hform with
  | @short e he hx hc =>
    have he : isPrinted e = true := by
      unfold escaped? at hx
      rw [isPrinted_iff]
      split at hx
      · omega
      repeat' split at hx
      all_goals first | (next h => rw [h]; decide) | cases hx
    exact printed_cons.mpr ⟨rfl, printed_cons.mpr ⟨he, nofun⟩⟩
  | plain h34 h92 hc => exact printed_cons.mpr ⟨isPrinted_iff.mpr (.inr hc), nofun⟩
  | unit hc => exact printed_unitEscape hc
  | pair hc =>
    have hval := c.isLt
    exact printed_append.mpr
      ⟨printed_unitEscape (by omega), printed_unitEscape (by omega)⟩

theorem printed_writeString (t : Text) : Printed (writeString t) := by
  refine printed_append.mpr ⟨printed_cons.mpr ⟨rfl, fun c hc => ?_⟩, printed_of_all (by decide)⟩
  obtain ⟨d, -, hc⟩ := List.mem_flatMap.mp hc
  exact printed_escape d c hc

theorem printed_signText (negative : Bool) : Printed (Layout.signText negative) := by
  cases negative <;> exact printed_of_all (by decide)

theorem printed_exponentText (e : Int) : Printed (Layout.exponentText e) := by
  obtain ⟨sign, digits, htext, hsign, -, hdigit⟩ := exponentText_eq e
  rw [htext, printed_cons, printed_cons]
  exact ⟨rfl, isPrinted_iff.mpr (by omega), printed_digits hdigit⟩

theorem RealForm.printed {t : Text} (h : RealForm t) : Printed t := by
  cases h with
  | point hw hp _ =>
    exact printed_append.mpr ⟨printed_digits hw.digit, printed_cons.mpr ⟨rfl, printed_digits hp⟩⟩
  | power hw e => exact printed_append.mpr ⟨printed_digits hw.digit, printed_exponentText e⟩
  | both hw hp _ e =>
    exact printed_append.mpr ⟨printed_digits hw.digit, printed_cons.mpr
      ⟨rfl, printed_append.mpr ⟨printed_digits hp, printed_exponentText e⟩⟩⟩

theorem printed_shortestText {x : Binary64} (hx : x.Fits) :
    Printed (Layout.json.shortestText x) := by
  cases x with
  | nan => exact printed_of_all (by decide)
  | infinite negative => cases negative <;> exact printed_of_all (by decide)
  | finite negative s e =>
    obtain ⟨t, hform, htext⟩ := realForm_shortestText hx
    rw [htext]
    exact printed_append.mpr ⟨printed_signText negative, hform.printed⟩

theorem printed_ofInt (i : Int) : Printed (Text.ofInt i) := by
  rw [ofInt_eq]
  exact printed_append.mpr
    ⟨printed_signText _, printed_digits fun c hc => Text.isDigit_of_mem_ofNat hc⟩

mutual

theorem printed_writeIndented : ∀ {v : Json}, Readable v → ∀ depth, Printed (writeIndented depth v)
  | .null, _, _ => printed_of_all rfl
  | .bool true, _, _ => printed_of_all rfl
  | .bool false, _, _ => printed_of_all rfl
  | .int i, _, _ => printed_ofInt i
  | .real _, h, _ => printed_shortestText h
  | .str t, _, _ => printed_writeString t
  | .arr [], _, _ => printed_of_all rfl
  | .obj [], _, _ => printed_of_all rfl
  | .arr (v :: vs), h, depth => by
    simp only [writeIndented, printed_append]
    exact ⟨⟨⟨printed_of_all (by decide), printed_newLine _⟩, printed_writeIndented h.1 _⟩,
      printed_writeIndentedItems h.2 depth⟩
  | .obj ((name, v) :: ms), h, depth => by
    simp only [writeIndented, printed_append]
    exact ⟨⟨⟨⟨⟨printed_of_all (by decide), printed_newLine _⟩, printed_writeString name⟩,
      printed_of_all (by decide)⟩, printed_writeIndented h.2.2.1 _⟩,
      printed_writeIndentedMembers h.2.2.2 depth⟩

theorem printed_writeIndentedItems : ∀ {vs : List Json}, ReadableItems vs → ∀ depth,
    Printed (writeIndentedItems depth vs)
  | [], _, depth => by
    rw [writeIndentedItems, printed_append]
    exact ⟨printed_newLine depth, printed_of_all (by decide)⟩
  | v :: vs, h, depth => by
    simp only [writeIndentedItems, printed_append]
    exact ⟨⟨⟨printed_of_all (by decide), printed_newLine _⟩, printed_writeIndented h.1 _⟩,
      printed_writeIndentedItems h.2 depth⟩

theorem printed_writeIndentedMembers : ∀ {ms : Members}, ReadableMembers ms → ∀ depth,
    Printed (writeIndentedMembers depth ms)
  | [], _, depth => by
    rw [writeIndentedMembers, printed_append]
    exact ⟨printed_newLine depth, printed_of_all (by decide)⟩
  | (name, v) :: ms, h, depth => by
    simp only [writeIndentedMembers, printed_append]
    exact ⟨⟨⟨⟨⟨printed_of_all (by decide), printed_newLine _⟩, printed_writeString name⟩,
      printed_of_all (by decide)⟩, printed_writeIndented h.2.1 _⟩,
      printed_writeIndentedMembers h.2.2 depth⟩

end

theorem printed_document {v : Json} (h : Readable v) : Printed (document v) :=
  printed_append.mpr ⟨printed_writeIndented h 0, printed_of_all (by decide)⟩

/-! ## Documents as files -/

theorem Printed.encode {t : Text} (h : Printed t) :
    Utf8.encode t = .ok (t.flatMap Utf8.encodePoint) := by
  refine Utf8.encode_eq_ok.mpr ⟨fun c hc => ?_, rfl⟩
  have hval := isPrinted_iff.mp (h c hc)
  simp only [CodePoint.isSurrogate, Bool.and_eq_false_iff, decide_eq_false_iff_not]
  omega

theorem Printed.uniformLineEnds {t : Text} (h : Printed t) : t.uniformLineEnds = t := by
  have hcollect : ∀ (t done : Text), Printed t → Text.collectUniform done t = done.reverse ++ t := by
    intro t
    induction t with
    | nil => simp [Text.collectUniform]
    | cons c t ih =>
      intro done ht
      obtain ⟨hc, ht⟩ := printed_cons.mp ht
      have hreturn : c.isCarriageReturn = false := by
        have hval := isPrinted_iff.mp hc
        simp only [CodePoint.isCarriageReturn, beq_eq_false_iff_ne]
        omega
      unfold Text.collectUniform
      rw [if_neg (by simp [hreturn]), ih _ ht]
      simp
  exact hcollect t [] h

/-- **A value that was read is read back from its document**, but for numbers that are not whole. -/
theorem read_document {v : Json} (h : Readable v) : read (document v) = .ok (again v) := by
  have hrest : Ends [CodePoint.ofChar '\n'] := by
    intro c hc
    exact .inr (Option.some.inj hc).symm
  have hmark : (document v).head? ≠ some (CodePoint.ofNat 0xfeff) := fun hhead => by
    have hprinted := printed_document h _ (List.mem_of_head? hhead)
    exact absurd hprinted (by decide)
  have hvalue : readValue (2 * (document v).length + 1) (document v) =
      .ok (again v, [CodePoint.ofChar '\n']) := readValue_writeIndented h 0 hrest (by
    rw [document, List.length_append]
    omega)
  have hskip : skipSpace (document v) = document v := skipSpace_written h 0 _
  unfold read
  simp only
  rw [if_neg hmark, hskip, hvalue]
  rfl

end PackageAudit.Json
