import PackageAudit.Proofs.Text.Utf8
import PackageAudit.Tree.Name

/-! # Names and their bytes

The text that a file system gives for bytes stands for these bytes (`bytes_ofBytes`), so texts that
name one thing have the same bytes (`bytes_eq_of_plain_eq`).
-/

namespace PackageAudit.Name

theorem isSurrogate_of_standsForByte {c : CodePoint} (h : standsForByte c = true) :
    c.isSurrogate = true := by
  simp only [standsForByte, Bool.and_eq_true, decide_eq_true_eq] at h
  simp only [CodePoint.isSurrogate, Bool.and_eq_true, decide_eq_true_eq]
  omega

theorem bytes_cons_of_not {c : CodePoint} (h : standsForByte c = false) (t : Text) :
    bytes (c :: t) = Utf8.encodePoint c ++ bytes t := by
  simp [bytes, h]

theorem bytes_cons_of {c : CodePoint} (h : standsForByte c = true) (t : Text) :
    bytes (c :: t) = (c.val - 0xdc00).toUInt8 :: bytes t := by
  simp [bytes, h]

/-- What `first?` finds is a code point with its bytes. -/
theorem of_first? {bs : List UInt8} {c : CodePoint} {n : Nat} (h : first? bs = some (c, n)) :
    1 ≤ n ∧ c.isSurrogate = false ∧ Utf8.encodePoint c = bs.take n := by
  obtain ⟨k, hk, hm⟩ := List.exists_of_findSome?_eq_some h
  cases hd : Utf8.decode (bs.take k) with
  | error e => simp [hd] at hm
  | ok t =>
    cases t with
    | nil => simp [hd] at hm
    | cons x rest =>
      cases rest with
      | cons y rest => simp [hd] at hm
      | nil =>
        simp only [hd, Option.some.injEq, Prod.mk.injEq] at hm
        obtain ⟨rfl, rfl⟩ := hm
        obtain ⟨hall, he⟩ := Utf8.encode_eq_ok.mp (Utf8.encode_decode hd)
        refine ⟨?_, hall x (List.mem_singleton_self x), by simpa using he.symm⟩
        simp only [List.mem_cons, List.not_mem_nil, or_false] at hk
        omega

/-- A byte with which no code point begins is none of the first 128. -/
theorem le_of_first?_eq_none {b : UInt8} {rest : List UInt8} (h : first? (b :: rest) = none) :
    0x80 ≤ b.toNat := by
  refine Nat.le_of_not_lt fun hb => ?_
  have h1 := List.findSome?_eq_none_iff.mp h 1 (by simp)
  have hl : Utf8.lead b = .single b.toNat := if_pos hb
  simp [Utf8.decode, Utf8.decodeFrom, hl] at h1

/-- **The text for bytes stands for them.** -/
theorem bytes_ofBytes (bs : List UInt8) : bytes (ofBytes bs) = bs := by
  fun_induction ofBytes bs with
  | case1 => rfl
  | case2 b rest c n hf ih =>
    obtain ⟨hn, hs, he⟩ := of_first? hf
    have hnot : standsForByte c = false := by
      rw [← Bool.not_eq_true]
      intro hc
      rw [isSurrogate_of_standsForByte hc] at hs
      cases hs
    obtain ⟨k, rfl⟩ : ∃ k, n = k + 1 := ⟨n - 1, by omega⟩
    rw [bytes_cons_of_not hnot, ih, he, List.take_succ_cons, List.cons_append, Nat.add_sub_cancel,
      List.take_append_drop]
  | case3 b rest hf ih =>
    have hb := le_of_first?_eq_none hf
    have hlt := b.toNat_lt
    have hv : (CodePoint.ofNat (0xdc00 + b.toNat)).val = 0xdc00 + b.toNat :=
      Utf8.val_ofNat (by omega)
    have hc : standsForByte (CodePoint.ofNat (0xdc00 + b.toNat)) = true := by
      simp only [standsForByte, hv, Bool.and_eq_true, decide_eq_true_eq]
      omega
    rw [bytes_cons_of hc, ih, hv, Nat.add_sub_cancel_left, Utf8.toUInt8_of_toNat rfl]

/-- The plain text of a name stands for the same bytes. -/
theorem bytes_plain (t : Text) : bytes (plain t) = bytes t := by
  unfold plain
  split
  · exact bytes_ofBytes _
  · rfl

theorem bytes_eq_of_plain_eq {t u : Text} (h : plain t = plain u) : bytes t = bytes u := by
  rw [← bytes_plain t, h, bytes_plain]

end PackageAudit.Name
