import PackageAudit.Proofs.Text.Pattern
import PackageAudit.Text.Regular

/-! # What regular expressions match

A match is a part of a text between what stands in front of it and what stands behind it
(`Regular.Matches`). The places that are found are the ends of the matches (`mem_ends`), so an
expression is in a text if and only if some part of the text is a match (`isIn_iff`).
-/

namespace PackageAudit.Regular

/-- The expression matches the part `m` of a text, between `before` and `after`. -/
def Matches : Regular → (before m after : Text) → Prop
  | word w, _, m, _ => m = w
  | folded w, _, m, _ => m.foldsTo w = true
  | one p, _, m, _ => ∃ c, m = [c] ∧ p c = true
  | many p, _, m, _ => ∀ c ∈ m, p c = true
  | start, before, m, _ => m = [] ∧ before = []
  | finish, _, m, after => m = [] ∧ (after = [] ∨ after = [CodePoint.ofChar '\n'])
  | next r s, before, m, after => ∃ m₁ m₂, m = m₁ ++ m₂ ∧ r.Matches before m₁ (m₂ ++ after) ∧
      s.Matches (before ++ m₁) m₂ after
  | either r s, before, m, after => r.Matches before m after ∨ s.Matches before m after

section
variable {r : Regular} {rs : List Regular} {before m after here t : Text} {x : Place}

theorem matches_inTurn_cons : (inTurn (r :: rs)).Matches before m after ↔
    ∃ m₁ m₂, m = m₁ ++ m₂ ∧ r.Matches before m₁ (m₂ ++ after) ∧
      (inTurn rs).Matches (before ++ m₁) m₂ after := Iff.rfl

theorem matches_anyOf : (anyOf rs).Matches before m after ↔ ∃ r ∈ rs, r.Matches before m after := by
  induction rs with
  | nil => simp [anyOf, Matches]
  | cons r rs ih =>
    rw [List.exists_mem_cons_iff, ← ih]
    rfl

/-! ## Places -/

theorem further_append (before m after : Text) :
    (⟨before.isEmpty, m ++ after⟩ : Place).further m.length = ⟨(before ++ m).isEmpty, after⟩ := by
  cases before <;> cases m <;> simp [Place.further]

theorem exists_further_takeWhile {p : CodePoint → Bool} :
    (∃ n ≤ (here.takeWhile p).length, x = (⟨before.isEmpty, here⟩ : Place).further n) ↔
      ∃ m after, here = m ++ after ∧ (∀ c ∈ m, p c = true) ∧
        x = ⟨(before ++ m).isEmpty, after⟩ := by
  constructor
  · rintro ⟨n, hn, rfl⟩
    have hprefix : here.take n <+: here.takeWhile p :=
      List.prefix_of_prefix_length_le (List.take_prefix n here) (List.takeWhile_prefix p)
        ((List.length_take_le n here).trans hn)
    have hlength : (here.take n).length = n :=
      List.length_take_of_le (hn.trans (List.takeWhile_prefix p).length_le)
    refine ⟨here.take n, here.drop n, (List.take_append_drop n here).symm, fun c hc => ?_, ?_⟩
    · exact List.all_eq_true.mp List.all_takeWhile c (List.IsPrefix.mem hc hprefix)
    · rw [← further_append, List.take_append_drop, hlength]
  · rintro ⟨m, after, rfl, hm, rfl⟩
    refine ⟨m.length, ?_, (further_append before m after).symm⟩
    rw [List.takeWhile_append_of_pos hm, List.length_append]
    exact Nat.le_add_right _ _

/-- **The places that are found** are those behind the matches. -/
theorem mem_ends : x ∈ r.ends ⟨before.isEmpty, here⟩ ↔ ∃ m after, here = m ++ after ∧
    r.Matches before m after ∧ x = ⟨(before ++ m).isEmpty, after⟩ := by
  induction r generalizing before here x with
  | word w =>
    simp only [ends, List.mem_ite_nil_right, List.mem_singleton, Text.startsWith,
      List.isPrefixOf_iff_prefix, Matches]
    constructor
    · rintro ⟨⟨after, rfl⟩, rfl⟩
      exact ⟨w, after, rfl, rfl, further_append before w after⟩
    · rintro ⟨_, after, rfl, rfl, rfl⟩
      exact ⟨List.prefix_append _ after, (further_append before _ after).symm⟩
  | folded w =>
    simp only [ends, List.mem_ite_nil_right, List.mem_singleton, Text.startsWithFolded_iff, Matches]
    constructor
    · rintro ⟨⟨m, after, rfl, hm⟩, rfl⟩
      refine ⟨m, after, rfl, hm, ?_⟩
      rw [← further_append, Text.length_of_foldsTo hm]
    · rintro ⟨m, after, rfl, hm, rfl⟩
      refine ⟨⟨m, after, rfl, hm⟩, ?_⟩
      rw [← further_append, Text.length_of_foldsTo hm]
  | one p =>
    cases here with
    | nil => simp [ends, Matches]
    | cons c here =>
      have hends : (one p).ends ⟨before.isEmpty, c :: here⟩ =
          if p c then [(⟨before.isEmpty, c :: here⟩ : Place).further 1] else [] := rfl
      rw [hends, List.mem_ite_nil_right, List.mem_singleton]
      constructor
      · rintro ⟨hc, rfl⟩
        exact ⟨[c], here, rfl, ⟨c, rfl, hc⟩, further_append before [c] here⟩
      · rintro ⟨_, after, heq, ⟨d, rfl, hd⟩, rfl⟩
        obtain ⟨rfl, rfl⟩ := List.cons.inj heq
        exact ⟨hd, (further_append before [c] here).symm⟩
  | many p =>
    refine Iff.trans ?_ exists_further_takeWhile
    simp only [ends, List.mem_map, List.mem_range, Nat.lt_succ_iff, eq_comm]
  | start =>
    simp only [ends, List.mem_ite_nil_right, List.mem_singleton, List.isEmpty_iff, Matches]
    constructor
    · rintro ⟨rfl, rfl⟩
      exact ⟨[], here, rfl, ⟨rfl, rfl⟩, rfl⟩
    · rintro ⟨_, _, rfl, ⟨rfl, rfl⟩, rfl⟩
      exact ⟨rfl, rfl⟩
  | finish =>
    simp only [ends, List.mem_ite_nil_right, List.mem_singleton, Bool.or_eq_true, List.isEmpty_iff,
      beq_iff_eq, Matches]
    constructor
    · rintro ⟨hend, rfl⟩
      exact ⟨[], here, rfl, ⟨rfl, hend⟩, by rw [List.append_nil]⟩
    · rintro ⟨_, after, rfl, ⟨rfl, hend⟩, rfl⟩
      exact ⟨hend, by rw [List.append_nil, List.nil_append]⟩
  | next r s ihr ihs =>
    simp only [ends, List.mem_flatMap, ihr, Matches]
    constructor
    · rintro ⟨_, ⟨m₁, between, rfl, hr, rfl⟩, hx⟩
      obtain ⟨m₂, after, rfl, hs, rfl⟩ := ihs.mp hx
      exact ⟨m₁ ++ m₂, after, (List.append_assoc _ _ _).symm, ⟨m₁, m₂, rfl, hr, hs⟩,
        by rw [List.append_assoc]⟩
    · rintro ⟨_, after, rfl, ⟨m₁, m₂, rfl, hr, hs⟩, rfl⟩
      refine ⟨_, ⟨m₁, m₂ ++ after, List.append_assoc _ _ _, hr, rfl⟩, ?_⟩
      exact ihs.mpr ⟨m₂, after, rfl, hs, by rw [List.append_assoc]⟩
  | either r s ihr ihs =>
    simp only [ends, List.mem_append, ihr, ihs, Matches, or_and_right, and_or_left, exists_or]

/-- **An expression is in a text** if and only if it matches a part of it. -/
theorem isIn_iff : r.isIn t = true ↔ ∃ before m after, t = before ++ m ++ after ∧
    r.Matches before m after := by
  have hfirst (before here : Text) : (here.length == (before ++ here).length) = before.isEmpty := by
    rw [Bool.eq_iff_iff, beq_iff_eq, List.isEmpty_iff, List.length_append,
      ← List.length_eq_zero_iff]
    omega
  simp only [isIn, Text.anywhere_iff, Bool.not_eq_true', List.isEmpty_eq_false_iff_exists_mem]
  constructor
  · rintro ⟨here, ⟨before, rfl⟩, x, hx⟩
    rw [hfirst] at hx
    obtain ⟨m, after, rfl, hm, -⟩ := mem_ends.mp hx
    exact ⟨before, m, after, (List.append_assoc _ _ _).symm, hm⟩
  · rintro ⟨before, m, after, rfl, hm⟩
    refine ⟨m ++ after, ⟨before, (List.append_assoc _ _ _).symm⟩, ⟨(before ++ m).isEmpty, after⟩,
      ?_⟩
    rw [List.append_assoc, hfirst]
    exact mem_ends.mpr ⟨m, after, rfl, hm, rfl⟩

end

end PackageAudit.Regular
