import Mathlib.Data.List.TakeWhile
import PackageAudit.Proofs.Tree.Path

/-! # Depth-first order

In the order of locations a directory comes right before what is below it: whatever lies between a
directory and something below it is itself below the directory (`Location.prefix_of_between`). So in a
list that is in this order what is below a directory follows it without a gap
(`Location.exists_block`).
-/

namespace PackageAudit

section
variable {α : Type} {before : α → α → Bool}

theorem Ordered.ne (h : Ordered before) {a b : α} (hab : before a b = true) : a ≠ b := by
  rintro rfl
  rw [h.self a] at hab
  cases hab

theorem Ordered.asymm (h : Ordered before) {a b : α} (hab : before a b = true) :
    before b a = false := (h.not_total a b).resolve_left (by simp [hab])

end

namespace Location

variable {k l m : Location} {a b : Text}

theorem before_cons : before (a :: k) (b :: l) = (Text.before a b || a == b && before k l) :=
  List.cons_lex_cons

theorem before_append (k l m : Location) : before (k ++ l) (k ++ m) = before l m := by
  induction k with
  | nil => rfl
  | cons a k ih => rw [List.cons_append, List.cons_append, before_cons, Text.ordered.self, ih]; simp

/-- What is below a directory comes after it. -/
theorem before_of_below (k : Location) (hl : l ≠ []) : before k (k ++ l) = true := by
  obtain ⟨a, l, rfl⟩ := List.exists_cons_of_ne_nil hl
  have h := before_append k [] (a :: l)
  rw [List.append_nil] at h
  rw [h]
  rfl

theorem before_of_names (k l m : Location) (h : Text.before a b = true) :
    before (k ++ a :: l) (k ++ b :: m) = true := by
  rw [before_append, before_cons, h, Bool.true_or]

theorem before_names (h : before (k ++ [a]) (k ++ [b]) = true) : Text.before a b = true := by
  rw [before_append, before_cons, Bool.or_eq_true, Bool.and_eq_true] at h
  rcases h with h | ⟨-, h⟩
  · exact h
  · cases h

/-- What comes between a directory and something below it is below it, too. -/
theorem prefix_of_between (hkl : before k l = true) (hlm : before l (k ++ m) = true) : k <+: l := by
  induction k generalizing l with
  | nil => exact List.nil_prefix
  | cons a k ih =>
    cases l with
    | nil => cases hkl
    | cons b l =>
      rw [List.cons_append] at hlm
      rw [before_cons, Bool.or_eq_true, Bool.and_eq_true, beq_iff_eq] at hkl hlm
      rcases hkl with hab | ⟨rfl, hkl⟩
      · rcases hlm with hba | ⟨rfl, -⟩
        · rw [Text.ordered.asymm hab] at hba
          cases hba
        · exact absurd rfl (Text.ordered.ne hab)
      · rcases hlm with hba | ⟨-, hlm⟩
        · exact absurd rfl (Text.ordered.ne hba)
        · exact List.prefix_cons_inj a |>.mpr (ih hkl hlm)

/-- **What is below a directory follows it without a gap** in a list that is in order. -/
theorem exists_block {α : Type} (way : α → Location) {front back : List α} {f : α}
    (h : (front ++ f :: back).Pairwise fun f g => before (way f) (way g) = true) :
    ∃ inside outside, back = inside ++ outside ∧ (∀ g ∈ inside, way f <+: way g ∧ way g ≠ way f) ∧
      ∀ g ∈ front ++ outside, ¬ way f <+: way g := by
  obtain ⟨-, hback, hfront⟩ := List.pairwise_append.mp h
  obtain ⟨hlater, hback⟩ := List.pairwise_cons.mp hback
  refine ⟨back.takeWhile fun g => (way f).isPrefixOf (way g),
    back.dropWhile fun g => (way f).isPrefixOf (way g), List.takeWhile_append_dropWhile.symm, ?_, ?_⟩
  · intro g hg
    have hprefix := List.mem_takeWhile_imp hg
    refine ⟨List.isPrefixOf_iff_prefix.mp hprefix, ?_⟩
    exact (Location.ordered.ne (hlater g (List.takeWhile_subset _ hg))).symm
  · intro g hg hprefix
    rcases List.mem_append.mp hg with hg | hg
    · obtain ⟨more, hmore⟩ := hprefix
      have hbefore := hfront g hg f List.mem_cons_self
      cases more with
      | nil => exact Location.ordered.ne hbefore (by rw [← hmore, List.append_nil])
      | cons name more =>
        have hafter := before_of_below (way f) (List.cons_ne_nil name more)
        rw [hmore, Location.ordered.asymm hbefore] at hafter
        cases hafter
    · -- the first that is not below the directory comes before all that are left
      cases hdrop : back.dropWhile fun g => (way f).isPrefixOf (way g) with
      | nil => rw [hdrop] at hg; cases hg
      | cons first rest =>
        have hsuffix : first :: rest <:+ back := hdrop ▸ List.dropWhile_suffix _
        have hnot : ¬ way f <+: way first := by
          have hhead := List.head_dropWhile_not (fun g => (way f).isPrefixOf (way g)) (l := back)
            (by rw [hdrop]; exact List.cons_ne_nil _ _)
          simp only [hdrop, List.head_cons] at hhead
          rw [← List.isPrefixOf_iff_prefix, hhead]
          exact Bool.false_ne_true
        rw [hdrop] at hg
        rcases List.mem_cons.mp hg with rfl | hg
        · exact hnot hprefix
        · obtain ⟨more, hmore⟩ := hprefix
          have hfirst := (List.pairwise_cons.mp (hback.sublist hsuffix.sublist)).1 g hg
          rw [← hmore] at hfirst
          exact hnot (prefix_of_between (hlater first (hsuffix.subset List.mem_cons_self)) hfirst)

end Location

end PackageAudit
