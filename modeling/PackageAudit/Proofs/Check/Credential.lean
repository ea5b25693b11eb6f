import Mathlib.Data.List.Nodup
import PackageAudit.Check.Secrets
import PackageAudit.Proofs.Text.Pattern

/-! # Credentials as a pattern

A credential is a key, a sign with blanks around it and a quoted value (`SecretKind.IsCredential`).
The search for them never goes back behind what it has passed, and it does not need to: what stands
in front of a part of the pattern cannot begin that part. So a line has a credential for the search
if and only if a part of the line is one (`onLine_iff`).
-/

namespace PackageAudit

theorem CodePoint.val_of_isBlank {c : CodePoint} (h : c.isBlank = true) :
    c.val ≤ 32 ∨ 0x85 ≤ c.val := by
  simp only [isBlank, isWhite, Bool.or_eq_true, Bool.and_eq_true, beq_iff_eq, decide_eq_true_eq] at h
  omega

namespace Check

/-- A colon or an equals sign, with blanks around it. -/
def IsSign (t : Text) : Prop :=
  ∃ (before : Text) (c : CodePoint) (after : Text), t = before ++ c :: after ∧
    before.isBlank = true ∧ (c.val == 58 || c.val == 61) = true ∧ after.isBlank = true

namespace SecretKind

section
variable (k : SecretKind)

/-- The text is the key of such a credential, in either case; its two parts, if it has two, may have
a hyphen or an underscore between them. -/
def Names (t : Text) : Prop :=
  match k.keyEnd with
  | none => t.foldsTo k.key = true
  | some keyEnd => ∃ first between last, t = first ++ between ++ last ∧ first.foldsTo k.key = true ∧
      (between = [] ∨ ∃ c, between = [c] ∧ (c.val == 95 || c.val == 45) = true) ∧
      last.foldsTo keyEnd = true

/-- A key and the sign behind it. -/
def IsHead (t : Text) : Prop := ∃ key sign, t = key ++ sign ∧ k.Names key ∧ IsSign sign

/-- Code points in quotes, none of them a quote, that are enough for such a credential. -/
def IsValue (t : Text) : Prop :=
  ∃ opening value closing, t = opening :: value ++ [closing] ∧ opening.isQuote = true ∧
    (∀ c ∈ value, c.isQuote = false) ∧ k.minLength ≤ value.length ∧ closing.isQuote = true

/-- **A literal credential**: key, sign and value. -/
def IsCredential (t : Text) : Prop :=
  ∃ head value, t = head ++ value ∧ k.IsHead head ∧ k.IsValue value

end

end SecretKind

/-- Part of the line is a credential of the kind. -/
def HoldsSecret (k : SecretKind) (line : Text) : Prop := ∃ m, m <:+: line ∧ k.IsCredential m

namespace SecretKind

section
variable {k k' : SecretKind} {t rest : Text}

theorem eq_of_name (hk : k ∈ secretKinds) (hk' : k' ∈ secretKinds) (h : k.name = k'.name) :
    k = k' := by
  have hnodup : (secretKinds.map SecretKind.name).Nodup := by decide
  exact List.inj_on_of_nodup_map hnodup hk hk' h

theorem keyEnd_of_mem (hk : k ∈ secretKinds) :
    k.keyEnd = none ∨ k.keyEnd = some (Text.ofString "key") := by
  simp only [secretKinds, List.mem_cons, List.not_mem_nil, or_false] at hk
  rcases hk with rfl | rfl | rfl | rfl | rfl <;> simp

theorem afterKey?_eq_some (hk : k ∈ secretKinds) :
    k.afterKey? t = some rest ↔ ∃ key, t = key ++ rest ∧ k.Names key := by
  unfold afterKey? Names
  rcases keyEnd_of_mem hk with hend | hend <;> simp only [hend, bind, Option.bind_eq_some_iff]
  · simp [Text.afterWord?_eq_some, pure]
  · -- what may stand between the parts is no form of the letter that the second one begins with
    have hq : ∀ c : CodePoint, c.foldsTo (CodePoint.ofChar 'k') = true →
        (c.val == 95 || c.val == 45) = false := by
      intro c hc
      have hk : (CodePoint.ofChar 'k').val = 107 := rfl
      simp only [CodePoint.foldsTo, hk, Fin.ext_iff, Bool.or_eq_true, Bool.and_eq_true,
        beq_iff_eq, decide_eq_true_eq] at hc
      simp only [Bool.or_eq_false_iff, beq_eq_false_iff_ne, ne_eq]
      omega
    have hkey : Text.ofString "key" = CodePoint.ofChar 'k' :: Text.ofString "ey" := rfl
    simp only [hkey, Text.afterWord?_skipOne hq]
    simp only [Text.afterWord?_eq_some]
    constructor
    · rintro ⟨_, ⟨first, rfl, hfirst⟩, between, last, rfl, hbetween, hlast⟩
      exact ⟨first ++ between ++ last, by simp, first, between, last, rfl, hfirst, hbetween, hlast⟩
    · rintro ⟨_, rfl, first, between, last, rfl, hfirst, hbetween, hlast⟩
      exact ⟨between ++ last ++ rest, ⟨first, by simp, hfirst⟩, between, last, rfl, hbetween, hlast⟩

theorem afterAssignment?_eq_some : afterAssignment? t = some rest ↔
    ∃ sign opening, t = sign ++ opening :: rest ∧ IsSign sign ∧ opening.isQuote = true := by
  have hsign : ∀ c : CodePoint, (c.val == 58 || c.val == 61) = true → c.isBlank = false := by
    intro c hc
    simp only [Bool.or_eq_true, beq_iff_eq] at hc
    exact Bool.eq_false_iff.mpr fun h => by have := c.val_of_isBlank h; omega
  have hquote : ∀ c : CodePoint, c.isQuote = true → c.isBlank = false := by
    intro c hc
    simp only [CodePoint.isQuote, Bool.or_eq_true, beq_iff_eq] at hc
    exact Bool.eq_false_iff.mpr fun h => by have := c.val_of_isBlank h; omega
  unfold afterAssignment?
  simp only [bind, Option.bind_eq_some_iff, Text.afterOne?_skipBlanks hsign,
    Text.afterOne?_skipBlanks hquote]
  constructor
  · rintro ⟨_, ⟨before, c, rfl, hbefore, hc⟩, after, opening, rfl, hafter, hopening⟩
    exact ⟨before ++ c :: after, opening, by simp, ⟨before, c, after, rfl, hbefore, hc, hafter⟩,
      hopening⟩
  · rintro ⟨_, opening, rfl, ⟨before, c, after, rfl, hbefore, hc, hafter⟩, hopening⟩
    exact ⟨after ++ opening :: rest, ⟨before, c, by simp, hbefore, hc⟩, after, opening, rfl, hafter,
      hopening⟩

theorem closesAfterValue_iff : k.closesAfterValue t = true ↔ ∃ value closing rest,
    t = value ++ closing :: rest ∧ (∀ c ∈ value, c.isQuote = false) ∧
      k.minLength ≤ value.length ∧ closing.isQuote = true := by
  unfold closesAfterValue
  simp only [Bool.and_eq_true, decide_eq_true_eq]
  have hsplit := List.takeWhile_append_dropWhile (p := fun c : CodePoint => !c.isQuote) (l := t)
  constructor
  · rintro ⟨hmin, hlt⟩
    cases hdrop : t.dropWhile fun c => !c.isQuote with
    | nil =>
      rw [hdrop, List.append_nil] at hsplit
      rw [hsplit] at hlt
      exact absurd hlt (Nat.lt_irrefl _)
    | cons closing rest =>
      refine ⟨_, closing, rest, by rw [← hdrop, hsplit], fun c hc => ?_, hmin, ?_⟩
      · simpa using List.all_eq_true.mp List.all_takeWhile c hc
      · have hhead := List.head?_dropWhile_not (fun c : CodePoint => !c.isQuote) t
        simpa [hdrop] using hhead
  · rintro ⟨value, closing, rest, rfl, hvalue, hmin, hclosing⟩
    have htake : (value ++ closing :: rest).takeWhile (fun c => !c.isQuote) = value := by
      rw [List.takeWhile_append_of_pos (by simpa using hvalue),
        List.takeWhile_cons_of_neg (by simpa using hclosing), List.append_nil]
    rw [htake]
    exact ⟨hmin, by simp⟩

theorem startsHere_iff (hk : k ∈ secretKinds) :
    k.startsHere t = true ↔ ∃ m, m <+: t ∧ k.IsCredential m := by
  have hsome : k.startsHere t = true ↔ ∃ value, (k.afterKey? t).bind afterAssignment? = some value ∧
      k.closesAfterValue value = true := by
    unfold startsHere
    split
    · next value h => simp [h]
    · next h => simp [h]
  simp only [hsome, Option.bind_eq_some_iff, afterKey?_eq_some hk, afterAssignment?_eq_some,
    closesAfterValue_iff]
  constructor
  · rintro ⟨_, ⟨_, ⟨key, rfl, hkey⟩, sign, opening, rfl, hsign, hopening⟩, value, closing, rest, rfl,
      hvalue⟩
    have hm : k.IsCredential (key ++ sign ++ (opening :: value ++ [closing])) :=
      ⟨_, _, rfl, ⟨key, sign, rfl, hkey, hsign⟩, opening, value, closing, rfl, hopening, hvalue⟩
    exact ⟨_, ⟨rest, by simp⟩, hm⟩
  · rintro ⟨_, ⟨rest, rfl⟩, _, _, rfl, ⟨key, sign, rfl, hkey, hsign⟩, opening, value, closing, rfl,
      hopening, hvalue⟩
    refine ⟨value ++ closing :: rest, ⟨sign ++ opening :: (value ++ closing :: rest), ⟨key, ?_, hkey⟩,
      sign, opening, rfl, hsign, hopening⟩, value, closing, rest, rfl, hvalue⟩
    simp

/-- **The search finds a credential on a line if and only if there is one.** -/
theorem onLine_iff (hk : k ∈ secretKinds) {line : Text} :
    k.onLine line = true ↔ HoldsSecret k line := by
  rw [onLine, Text.anywhere_iff, HoldsSecret]
  simp only [startsHere_iff hk, List.infix_iff_prefix_suffix]
  constructor
  · rintro ⟨here, hsuffix, m, hprefix, hm⟩
    exact ⟨m, ⟨here, hprefix, hsuffix⟩, hm⟩
  · rintro ⟨m, ⟨here, hprefix, hsuffix⟩, hm⟩
    exact ⟨here, hsuffix, m, hprefix, hm⟩

end

end SecretKind

end Check

end PackageAudit
