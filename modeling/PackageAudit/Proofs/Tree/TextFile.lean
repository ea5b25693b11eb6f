import PackageAudit.Proofs.Tree.Access
import PackageAudit.Tree.TextFile

/-! # Text files that are read
-/

namespace PackageAudit.Tree

section
variable {t : Tree} {p : Path} {text : Text}

theorem readText_eq_ok : t.readText p = .ok text ↔
    ∃ bytes found, t.read p = .ok bytes ∧ Utf8.decode bytes = .ok found ∧
      text = found.uniformLineEnds := by
  unfold readText
  cases t.read p with
  | error f => simp
  | ok bytes =>
    simp only
    cases hd : Utf8.decode bytes with
    | error e => simp [hd]
    | ok found => simp [hd, eq_comm]

/-- What can be read at all is a text or nothing, as its bytes say. -/
theorem readTextIfAny_of_read {bytes : List UInt8} (h : t.read p = .ok bytes) :
    t.readTextIfAny p = .ok ((Utf8.decode bytes).toOption.map Text.uniformLineEnds) := by
  unfold readTextIfAny readText
  rw [h]
  simp only
  cases Utf8.decode bytes <;> rfl

end

end PackageAudit.Tree
