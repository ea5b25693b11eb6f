import PackageAudit.Text.Basic

/-! # Orders

By an order (`Ordered`) of two things one comes before the other, unless they are the same. Lists are
ordered by their elements (`Ordered.lex`), so texts are by their code points (`Text.ordered`). What is
sorted by a key is in the order of the keys (`Ordered.pairwise_sorted`).
-/

namespace PackageAudit

/-- A comparison by which of two things one comes before the other, unless they are the same. -/
structure Ordered {α : Type} (before : α → α → Bool) : Prop where
  eq_of_not : ∀ {a b : α}, before a b = false → before b a = false → a = b
  not_trans : ∀ {a b c : α}, before b a = false → before c b = false → before c a = false
  not_total : ∀ a b : α, before a b = false ∨ before b a = false

section
variable {α β : Type} {before : α → α → Bool}

theorem Ordered.self (h : Ordered before) (a : α) : before a a = false := (h.not_total a a).elim id id

theorem Ordered.lex [BEq α] [LawfulBEq α] (h : Ordered before) :
    Ordered fun k l : List α => k.lex l before where
  eq_of_not {k l} hkl hlk := by
    induction k generalizing l with
    | nil =>
      cases l with
      | nil => rfl
      | cons b l => simp at hkl
    | cons a k ih =>
      cases l with
      | nil => simp at hlk
      | cons b l =>
        simp only [List.cons_lex_cons, Bool.or_eq_false_iff, Bool.and_eq_false_imp, beq_iff_eq]
          at hkl hlk
        obtain rfl := h.eq_of_not hkl.1 hlk.1
        rw [ih (hkl.2 rfl) (hlk.2 rfl)]
  not_trans {k l m} hlk hml := by
    induction k generalizing l m with
    | nil => simp
    | cons a k ih =>
      cases l with
      | nil => simp at hlk
      | cons b l =>
        cases m with
        | nil => simp at hml
        | cons c m =>
          simp only [List.cons_lex_cons, Bool.or_eq_false_iff, Bool.and_eq_false_imp, beq_iff_eq]
            at hlk hml ⊢
          refine ⟨h.not_trans hlk.1 hml.1, ?_⟩
          rintro rfl
          obtain rfl := h.eq_of_not hlk.1 hml.1
          exact ih (hlk.2 rfl) (hml.2 rfl)
  not_total k l := by
    induction k generalizing l with
    | nil => exact .inr (by simp)
    | cons a k ih =>
      cases l with
      | nil => exact .inl (by simp)
      | cons b l =>
        simp only [List.cons_lex_cons, Bool.or_eq_false_iff, Bool.and_eq_false_imp, beq_iff_eq]
        by_cases hab : a = b
        · subst hab
          exact (ih l).imp (fun hr => ⟨h.self a, fun _ => hr⟩) fun hr => ⟨h.self a, fun _ => hr⟩
        · exact (h.not_total a b).imp (fun hr => ⟨hr, fun he => absurd he hab⟩)
            fun hr => ⟨hr, fun he => absurd he.symm hab⟩

theorem Ordered.pairwise_sorted (h : Ordered before) (key : β → α) (xs : List β) :
    (xs.mergeSort fun x y => !before (key y) (key x)).Pairwise fun x y =>
      before (key y) (key x) = false := by
  refine (List.pairwise_mergeSort (fun x y z hxy hyz => ?_) (fun x y => ?_) xs).imp
    (Bool.not_eq_true' _).mp
  · rw [Bool.not_eq_true'] at hxy hyz ⊢
    exact h.not_trans hxy hyz
  · rw [Bool.or_eq_true, Bool.not_eq_true', Bool.not_eq_true']
    exact h.not_total (key y) (key x)

/-- If no key is there twice, each comes before all that follow. -/
theorem Ordered.pairwise_before (h : Ordered before) (key : β → α) {xs : List β}
    (hkeys : (xs.map key).Nodup) :
    (xs.mergeSort fun x y => !before (key y) (key x)).Pairwise fun x y =>
      before (key x) (key y) = true := by
  have hdistinct : (xs.mergeSort fun x y => !before (key y) (key x)).Pairwise fun x y =>
      key x ≠ key y :=
    List.pairwise_map.mp (((List.mergeSort_perm _ _).map key).nodup_iff.mpr hkeys)
  refine (h.pairwise_sorted key xs).imp₂ (fun x y hyx hne => ?_) hdistinct
  rw [← Bool.not_eq_false]
  exact fun hxy => hne (h.eq_of_not hxy hyx)

end

theorem Text.ordered : Ordered Text.before :=
  Ordered.lex ⟨fun hab hba => Fin.ext (by simp at hab hba; omega), fun hba hcb => by simp at *; omega,
    fun a b => by simp; omega⟩

end PackageAudit
