import PackageAudit.Proofs.Text.Numeral
import PackageAudit.Proofs.Tree.Name
import PackageAudit.Proofs.Tree.Resolve
import PackageAudit.Repair.Backup

/-! # The names of backups

Stamps are told apart (`stampText_inj`), and so are the names that the file system gives to backups
with different stamps, whatever they are backups of (`stamp_eq_of_plain_eq`): between its last two dots a name has
its stamp, in bytes that no other stamp has.
-/

namespace PackageAudit

/-! ## Stamps -/

/-- The digits of a stamp. -/
def stampDigits (n : Nat) : Text := Text.zeros (20 - (Text.ofNat n).length) ++ Text.ofNat n

theorem stampText_eq (n : Nat) :
    stampText n = (stampDigits n).take 8 ++ ("T" : Text) ++ (stampDigits n).drop 8 := rfl

theorem toNat_stampDigits (n : Nat) : (stampDigits n).toNat = n := by
  rw [stampDigits, Text.toNat_zeros_append, Text.toNat_ofNat]

theorem length_stampDigits (n : Nat) : 20 ≤ (stampDigits n).length := by
  simp only [stampDigits, Text.zeros, List.length_append, List.length_replicate]
  omega

theorem stampText_inj {m n : Nat} (h : stampText m = stampText n) : m = n := by
  have hm := length_stampDigits m
  have hn := length_stampDigits n
  rw [stampText_eq, stampText_eq, List.append_assoc, List.append_assoc] at h
  obtain ⟨hfront, hback⟩ := List.append_inj h (by simp only [List.length_take]; omega)
  have hdrop := List.append_cancel_left hback
  rw [← toNat_stampDigits m, ← toNat_stampDigits n, ← List.take_append_drop 8 (stampDigits m),
    hfront, hdrop, List.take_append_drop]

theorem isDigit_of_mem_stampDigits {n : Nat} {c : CodePoint} (h : c ∈ stampDigits n) :
    c.isDigit = true := by
  rcases List.mem_append.mp h with h | h
  · obtain rfl := List.eq_of_mem_replicate h
    decide
  · exact Text.isDigit_of_mem_ofNat h

theorem mem_stampText {n : Nat} {c : CodePoint} (h : c ∈ stampText n) :
    c.isDigit = true ∨ c = CodePoint.ofChar 'T' := by
  rw [stampText_eq] at h
  rcases List.mem_append.mp h with h | h
  · rcases List.mem_append.mp h with h | h
    · exact .inl (isDigit_of_mem_stampDigits (List.mem_of_mem_take h))
    · exact .inr (List.mem_singleton.mp h)
  · exact .inl (isDigit_of_mem_stampDigits (List.mem_of_mem_drop h))

theorem val_of_mem_stampText {n : Nat} {c : CodePoint} (h : c ∈ stampText n) :
    48 ≤ c.val ∧ c.val < 128 := by
  rcases mem_stampText h with hd | rfl
  · have := CodePoint.val_of_isDigit hd
    omega
  · decide

/-! ## Names -/

theorem backupName_eq (path : Text) (n : Nat) :
    backupName path n = path.replaceEach Path.slash "__" ++ (CodePoint.ofChar '.' ::
      stampText n ++ (".backup" : Text)) := by
  simp only [backupName, List.append_assoc]
  rfl

theorem isStep_backupName (path : Text) (n : Nat) : Tree.IsStep (backupName path n) := by
  have hlen : 7 ≤ (backupName path n).length := by
    simp only [backupName_eq, List.length_append, List.length_cons]
    have : (".backup" : Text).length = 7 := rfl
    omega
  have hshort : ∀ t : Text, t.length < 7 → backupName path n ≠ t := by
    intro t ht he
    rw [he] at hlen
    omega
  refine ⟨⟨hshort [] (by decide), hshort "." (by decide), fun hm => ?_⟩, hshort ".." (by decide)⟩
  rw [backupName_eq, List.cons_append] at hm
  rcases List.mem_append.mp hm with hm | hm
  · obtain ⟨c, -, hc⟩ := List.mem_flatMap.mp hm
    split at hc
    · exact absurd hc (by decide)
    · next hne => exact hne (List.mem_singleton.mp hc).symm
  · rcases List.mem_cons.mp hm with hm | hm
    · exact absurd hm (by decide)
    · rcases List.mem_append.mp hm with hm | hm
      · exact absurd (val_of_mem_stampText hm).1 (by decide)
      · exact absurd hm (by decide)

theorem toNat_bytes_of_small {t : Text} (h : ∀ c ∈ t, c.val < 128) :
    (Name.bytes t).map UInt8.toNat = t.map Fin.val := by
  induction t with
  | nil => rfl
  | cons c t ih =>
    have hc := h c List.mem_cons_self
    have hnot : Name.standsForByte c = false := by
      simp only [Name.standsForByte, Bool.and_eq_false_iff, decide_eq_false_iff_not]
      omega
    have hb : Utf8.encodePoint c = [c.val.toUInt8] := if_pos hc
    rw [Name.bytes_cons_of_not hnot, hb, List.map_append,
      ih fun x hx => h x (List.mem_cons_of_mem c hx), List.map_cons, List.map_cons,
      Utf8.toNat_toUInt8 (by omega)]
    rfl

/-- ASCII code points other than zero. -/
def isAscii (c : CodePoint) : Bool := 0 < c.val && c.val < 128

theorem isAscii_iff {c : CodePoint} : isAscii c = true ↔ 0 < c.val ∧ c.val < 128 := by
  simp [isAscii]

/-- The name of a backup of a path in ASCII is as a file system gives it. -/
theorem isEntryName_backupName {path : Text} (h : path.all isAscii = true) (n : Nat) :
    Tree.IsEntryName (backupName path n) := by
  have hascii : ∀ c ∈ backupName path n, 0 < c.val ∧ c.val < 128 := by
    intro c hc
    rw [backupName_eq, List.cons_append] at hc
    rcases List.mem_append.mp hc with hc | hc
    · obtain ⟨d, hd, hc⟩ := List.mem_flatMap.mp hc
      split at hc
      · have hunder : (Text.ofString "__").all isAscii = true := by decide
        exact isAscii_iff.mp (List.all_eq_true.mp hunder c hc)
      · exact isAscii_iff.mp (List.mem_singleton.mp hc ▸ List.all_eq_true.mp h d hd)
    · rcases List.mem_cons.mp hc with rfl | hc
      · decide
      · rcases List.mem_append.mp hc with hc | hc
        · have hval := val_of_mem_stampText hc
          omega
        · have hend : (Text.ofString ".backup").all isAscii = true := by decide
          exact isAscii_iff.mp (List.all_eq_true.mp hend c hc)
  refine ⟨isStep_backupName path n, Name.plain_eq_self ?_, Tree.vet_eq_ok.mpr ⟨?_, ?_⟩⟩
  · rw [List.any_eq_false]
    intro c hc
    have hval := hascii c hc
    simp only [Name.standsForByte, Bool.and_eq_true, decide_eq_true_eq, not_and]
    omega
  · intro c hc
    have hval := hascii c hc
    simp only [CodePoint.isSurrogate, Bool.and_eq_false_iff, decide_eq_false_iff_not]
    omega
  · intro hzero
    exact absurd (hascii _ hzero).1 (by decide)

theorem eq_of_append_cons_eq {α : Type} {a : α} {x y s s' : List α} (h : x ++ a :: s = y ++ a :: s')
    (hs : a ∉ s) (hs' : a ∉ s') : s = s' := by
  rcases List.append_eq_append_iff.mp h with ⟨z, rfl, hz⟩ | ⟨z, rfl, hz⟩
  · cases z with
    | nil => exact (List.cons.inj hz).2
    | cons b z => exact absurd ((List.cons.inj hz).2 ▸ by simp) hs
  · cases z with
    | nil => exact (List.cons.inj hz).2.symm
    | cons b z => exact absurd ((List.cons.inj hz).2 ▸ by simp) hs'

theorem toNat_bytes_stampText (n : Nat) :
    (Name.bytes (stampText n)).map UInt8.toNat = (stampText n).map Fin.val :=
  toNat_bytes_of_small fun _ hc => (val_of_mem_stampText hc).2

theorem dot_notMem_bytes_stampText (n : Nat) : (46 : UInt8) ∉ Name.bytes (stampText n) := by
  intro h
  have hm : (46 : UInt8).toNat ∈ (Name.bytes (stampText n)).map UInt8.toNat :=
    List.mem_map_of_mem h
  rw [toNat_bytes_stampText] at hm
  obtain ⟨c, hc, hv⟩ := List.mem_map.mp hm
  have hge := (val_of_mem_stampText hc).1
  have h46 : (46 : UInt8).toNat = 46 := rfl
  omega

theorem bytes_backupName (path : Text) (n : Nat) :
    Name.bytes (backupName path n) = Name.bytes (path.replaceEach Path.slash "__") ++
      46 :: Name.bytes (stampText n) ++ Name.bytes ".backup" := by
  rw [backupName_eq, Name.bytes_append, List.cons_append,
    Name.bytes_cons_of_not (by decide), Name.bytes_append]
  simp only [List.append_assoc, List.cons_append]
  rfl

/-- **Backups with different stamps have different names.** -/
theorem stamp_eq_of_plain_eq {path path' : Text} {m n : Nat}
    (h : Name.plain (backupName path m) = Name.plain (backupName path' n)) : m = n := by
  have hb := Name.bytes_eq_of_plain_eq h
  rw [bytes_backupName, bytes_backupName] at hb
  have hstamp := eq_of_append_cons_eq (List.append_cancel_right hb)
    (dot_notMem_bytes_stampText m) (dot_notMem_bytes_stampText n)
  have hval : (stampText m).map Fin.val = (stampText n).map Fin.val := by
    rw [← toNat_bytes_stampText, hstamp, toNat_bytes_stampText]
  exact stampText_inj ((List.map_inj_right fun _ _ => Fin.ext).mp hval)

end PackageAudit
