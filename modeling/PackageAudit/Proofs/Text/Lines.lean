import PackageAudit.Text.Blank
import PackageAudit.Text.Lines

/-! # Line ends made uniform

Making line ends uniform changes carriage returns and line feeds only, so it keeps what is not blank
(`filter_uniformLineEnds`).
-/

namespace PackageAudit.Text

theorem filter_collectUniform {q : CodePoint → Bool} (hf : q (CodePoint.ofChar '\n') = false)
    (hr : ∀ c : CodePoint, c.isCarriageReturn = true → q c = false) (done t : Text) :
    (collectUniform done t).filter q = done.reverse.filter q ++ t.filter q := by
  have hfeed : ∀ c : CodePoint, c.isLineFeed = true → q c = false := by
    intro c hc
    have hv : c.val = 10 := by simpa [CodePoint.isLineFeed] using hc
    have heq : c = CodePoint.ofChar '\n' := Fin.ext hv
    rw [heq, hf]
  fun_induction collectUniform done t with
  | case1 done => simp
  | case2 done c hc => simp [hf, hr c hc]
  | case3 done c hc d rest hd ih => simp [ih, hf, hr c hc, hfeed d hd]
  | case4 done c hc d rest hd ih => simp [ih, hf, hr c hc]
  | case5 done c rest hc ih =>
    rw [ih, List.reverse_cons, List.filter_append, List.append_assoc, ← List.filter_append,
      List.singleton_append]

theorem isBlank_carriageReturn {c : CodePoint} (h : c.isCarriageReturn = true) :
    c.isBlank = true := by
  have hv : c.val = 13 := by simpa [CodePoint.isCarriageReturn] using h
  simp [CodePoint.isBlank, CodePoint.isWhite, hv]

/-- What is not blank stays as it is. -/
theorem filter_uniformLineEnds (t : Text) :
    t.uniformLineEnds.filter (fun c => !c.isBlank) = t.filter fun c => !c.isBlank := by
  have h := filter_collectUniform (q := fun c => !c.isBlank) (by decide)
    (fun c hc => by simp [isBlank_carriageReturn hc]) [] t
  rw [uniformLineEnds, h]
  rfl

theorem isBlank_iff (t : Text) : t.isBlank = true ↔ t.filter (fun c => !c.isBlank) = [] := by
  simp [isBlank, List.filter_eq_nil_iff]

theorem isBlank_uniformLineEnds (t : Text) : t.uniformLineEnds.isBlank = t.isBlank := by
  rw [Bool.eq_iff_iff, isBlank_iff, isBlank_iff, filter_uniformLineEnds]

theorem filter_trim (t : Text) :
    t.trim.filter (fun c => !c.isBlank) = t.filter fun c => !c.isBlank := by
  have hdrop : ∀ t : Text, (t.dropWhile CodePoint.isBlank).filter (fun c => !c.isBlank) =
      t.filter fun c => !c.isBlank := by
    intro t
    induction t with
    | nil => rfl
    | cons c t ih =>
      rw [List.dropWhile_cons]
      split
      · next hc => rw [ih, List.filter_cons_of_neg (by simp [hc])]
      · rfl
  rw [trim, trimWhere, List.filter_reverse, hdrop, List.filter_reverse, hdrop, List.reverse_reverse]

end PackageAudit.Text
