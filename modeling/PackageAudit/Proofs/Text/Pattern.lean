import Mathlib.Data.List.Infix
import PackageAudit.Text.Pattern

/-! # Patterns in text

What the steps of a pattern match and what they leave of the text (`afterWord?_eq_some`,
`afterOne?_skipBlanks`, `afterWord?_skipOne`). In ASCII text a word up to case is the word in lower
case (`foldsTo_iff_asciiLower`).
-/

namespace PackageAudit

/-- An ASCII code point is a form of those that are their own lower case if it has them as its lower
case. -/
theorem CodePoint.foldsTo_iff_lower {c w : CodePoint} (hc : c.val < 0x80)
    (hw : ¬(65 ≤ w.val ∧ w.val ≤ 90)) : c.foldsTo w = true ↔ c.lower = w := by
  have hval : (ofNat (c.val + 32)).val = c.val + 32 := by
    rw [ofNat, dif_pos (by omega)]
  simp only [foldsTo, lower, hc, if_true, Bool.or_eq_true, Bool.and_eq_true, beq_iff_eq,
    decide_eq_true_eq]
  split
  · rw [Fin.ext_iff, Fin.ext_iff, hval]
    omega
  · rw [Fin.ext_iff]
    omega

namespace Text

section
variable {t word rest : Text} {p : Text → Bool}

theorem foldsTo_nil : foldsTo t [] = true ↔ t = [] := by
  cases t <;> simp [foldsTo, startsWithFolded]

theorem foldsTo_cons {w : CodePoint} : foldsTo t (w :: word) = true ↔
    ∃ (c : CodePoint) (u : Text), t = c :: u ∧ c.foldsTo w = true ∧ u.foldsTo word = true := by
  cases t with
  | nil => simp [foldsTo, startsWithFolded]
  | cons c u =>
    simp only [foldsTo, startsWithFolded, List.length_cons, Bool.and_eq_true, beq_iff_eq,
      Nat.add_right_cancel_iff, List.cons.injEq, ↓existsAndEq, true_and]
    exact and_left_comm

theorem mem_of_foldsTo (h : t.foldsTo word = true) :
    (∀ c ∈ t, ∃ w ∈ word, c.foldsTo w = true) ∧ ∀ w ∈ word, ∃ c ∈ t, c.foldsTo w = true := by
  induction word generalizing t with
  | nil =>
    rw [foldsTo_nil.mp h]
    exact ⟨nofun, nofun⟩
  | cons w word ih =>
    obtain ⟨c, u, rfl, hc, hu⟩ := foldsTo_cons.mp h
    obtain ⟨hletters, hall⟩ := ih hu
    refine ⟨List.forall_mem_cons.mpr ⟨⟨w, List.mem_cons_self, hc⟩, fun d hd => ?_⟩,
      List.forall_mem_cons.mpr ⟨⟨c, List.mem_cons_self, hc⟩, fun v hv => ?_⟩⟩
    · obtain ⟨v, hv, hfold⟩ := hletters d hd
      exact ⟨v, List.mem_cons_of_mem w hv, hfold⟩
    · obtain ⟨d, hd, hfold⟩ := hall v hv
      exact ⟨d, List.mem_cons_of_mem c hd, hfold⟩

/-- A pattern matches somewhere if and only if it matches at the beginning of what is left at some
place. -/
theorem anywhere_iff : t.anywhere p = true ↔ ∃ here, here <:+ t ∧ p here = true := by
  induction t with
  | nil => simp [anywhere]
  | cons c t ih => simp [anywhere, ih, List.suffix_cons_iff, or_and_right, exists_or]

theorem afterWord?_eq_some : t.afterWord? word = some rest ↔
    ∃ m, t = m ++ rest ∧ m.foldsTo word = true := by
  unfold afterWord?
  induction word generalizing t with
  | nil => simp [startsWithFolded, foldsTo_nil]
  | cons w word ih =>
    cases t with
    | nil => simp [startsWithFolded, foldsTo]
    | cons c t =>
      cases hc : c.foldsTo w with
      | false =>
        simp only [startsWithFolded, hc, Bool.false_and, Bool.false_eq_true, if_false, reduceCtorEq,
          false_iff, foldsTo_cons]
        rintro ⟨m, heq, c', u, rfl, hc', -⟩
        obtain ⟨rfl, -⟩ := List.cons.inj heq
        rw [hc] at hc'
        cases hc'
      | true =>
        simp only [startsWithFolded, hc, Bool.true_and, List.length_cons, List.drop_succ_cons]
        rw [ih]
        constructor
        · rintro ⟨m, rfl, hm⟩
          exact ⟨c :: m, rfl, foldsTo_cons.mpr ⟨c, m, rfl, hc, hm⟩⟩
        · rintro ⟨m, heq, hm⟩
          obtain ⟨c', u, rfl, -, hu⟩ := foldsTo_cons.mp hm
          exact ⟨u, (List.cons.inj heq).2, hu⟩

theorem afterOne?_eq_some {q : CodePoint → Bool} :
    t.afterOne? q = some rest ↔ ∃ c, t = c :: rest ∧ q c = true := by
  cases t with
  | nil => simp [afterOne?]
  | cons c t =>
    cases hc : q c with
    | false => simp [afterOne?, hc]
    | true => simp [afterOne?, hc]

/-- Behind blanks, a code point of a kind that has no blanks. -/
theorem afterOne?_skipBlanks {q : CodePoint → Bool} (hq : ∀ c, q c = true → c.isBlank = false) :
    t.skipBlanks.afterOne? q = some rest ↔
      ∃ blanks c, t = blanks ++ c :: rest ∧ blanks.isBlank = true ∧ q c = true := by
  induction t with
  | nil => simp [skipBlanks, afterOne?]
  | cons c t ih =>
    cases hc : c.isBlank with
    | true =>
      have hskip : skipBlanks (c :: t) = skipBlanks t := List.dropWhile_cons_of_pos hc
      rw [hskip, ih]
      constructor
      · rintro ⟨blanks, d, rfl, hb, hd⟩
        exact ⟨c :: blanks, d, rfl, by simpa [isBlank, hc] using hb, hd⟩
      · rintro ⟨_ | ⟨b, blanks⟩, d, heq, hb, hd⟩
        · obtain ⟨rfl, -⟩ := List.cons.inj heq
          rw [hq _ hd] at hc
          cases hc
        · obtain ⟨rfl, rfl⟩ := List.cons.inj heq
          exact ⟨blanks, d, rfl, by simpa [isBlank, hc] using hb, hd⟩
    | false =>
      have hskip : skipBlanks (c :: t) = c :: t := List.dropWhile_cons_of_neg (by simp [hc])
      rw [hskip, afterOne?_eq_some]
      constructor
      · rintro ⟨d, heq, hd⟩
        exact ⟨[], d, heq, rfl, hd⟩
      · rintro ⟨_ | ⟨b, blanks⟩, d, heq, hb, hd⟩
        · exact ⟨d, heq, hd⟩
        · obtain ⟨rfl, -⟩ := List.cons.inj heq
          simp [isBlank, hc] at hb

/-- Behind at most one code point of a kind that the word does not begin with, the word. -/
theorem afterWord?_skipOne {q : CodePoint → Bool} {w : CodePoint}
    (hq : ∀ c : CodePoint, c.foldsTo w = true → q c = false) :
    (t.skipOne q).afterWord? (w :: word) = some rest ↔ ∃ between m : Text,
      t = between ++ m ++ rest ∧ (between = [] ∨ ∃ c, between = [c] ∧ q c = true) ∧
        m.foldsTo (w :: word) = true := by
  rw [afterWord?_eq_some]
  cases h : t.afterOne? q with
  | some behind =>
    obtain ⟨c, rfl, hc⟩ := afterOne?_eq_some.mp h
    rw [skipOne, h, Option.getD_some]
    constructor
    · rintro ⟨m, rfl, hm⟩
      exact ⟨[c], m, rfl, .inr ⟨c, rfl, hc⟩, hm⟩
    · rintro ⟨between, m, heq, rfl | ⟨d, rfl, -⟩, hm⟩
      · obtain ⟨c', u, rfl, hfold, -⟩ := foldsTo_cons.mp hm
        obtain ⟨rfl, -⟩ := List.cons.inj heq
        rw [hq _ hfold] at hc
        cases hc
      · exact ⟨m, (List.cons.inj heq).2, hm⟩
  | none =>
    rw [skipOne, h, Option.getD_none]
    constructor
    · rintro ⟨m, rfl, hm⟩
      exact ⟨[], m, rfl, .inl rfl, hm⟩
    · rintro ⟨between, m, heq, rfl | ⟨d, rfl, hd⟩, hm⟩
      · exact ⟨m, heq, hm⟩
      · rw [afterOne?_eq_some.mpr ⟨d, heq, hd⟩] at h
        cases h

theorem startsWithFolded_iff :
    t.startsWithFolded word = true ↔ ∃ m rest, t = m ++ rest ∧ m.foldsTo word = true := by
  have hsome : t.startsWithFolded word = true ↔ ∃ rest, t.afterWord? word = some rest := by
    unfold afterWord?
    split <;> simp_all
  simp only [hsome, afterWord?_eq_some]
  exact exists_comm

theorem length_of_foldsTo (h : t.foldsTo word = true) : t.length = word.length := by
  simp only [foldsTo, Bool.and_eq_true, beq_iff_eq] at h
  exact h.1

/-- Some word of a list, up to case, is in the text. -/
theorem anywhere_words {words : List Text} :
    (t.anywhere fun here => words.any here.startsWithFolded) = true ↔
      ∃ m : Text, m <:+: t ∧ ∃ word ∈ words, m.foldsTo word = true := by
  simp only [anywhere_iff, List.any_eq_true, startsWithFolded_iff, List.infix_iff_prefix_suffix]
  constructor
  · rintro ⟨_, hsuffix, word, hword, m, rest, rfl, hm⟩
    exact ⟨m, ⟨_, List.prefix_append m rest, hsuffix⟩, word, hword, hm⟩
  · rintro ⟨m, ⟨_, ⟨rest, rfl⟩, hsuffix⟩, word, hword, hm⟩
    exact ⟨_, hsuffix, word, hword, m, rest, rfl, hm⟩

/-- In ASCII text, a word up to case is what has the word as its lower case. -/
theorem foldsTo_iff_asciiLower (ht : ∀ c ∈ t, c.val < 0x80)
    (hword : ∀ w ∈ word, ¬(65 ≤ w.val ∧ w.val ≤ 90)) :
    t.foldsTo word = true ↔ t.asciiLower = word := by
  induction word generalizing t with
  | nil => simp [foldsTo_nil, asciiLower]
  | cons w word ih =>
    obtain ⟨hw, hword⟩ := List.forall_mem_cons.mp hword
    cases t with
    | nil => simp [foldsTo, asciiLower]
    | cons c t =>
      obtain ⟨hc, ht⟩ := List.forall_mem_cons.mp ht
      have hcons : asciiLower (c :: t) = c.lower :: asciiLower t := by simp [asciiLower, hc]
      rw [hcons, List.cons.injEq, ← CodePoint.foldsTo_iff_lower hc hw, ← ih ht hword, foldsTo_cons]
      simp

end

end Text

end PackageAudit
