import PackageAudit.Text.Utf8

/-! # UTF-8 forwards and backwards

Texts without surrogates are what is decoded: `decode_encode` reads back what was encoded, and
`encode_decode` says that there is one form only, so that what was decoded is encoded as it was.
What stands behind the bytes of a text is decoded on its own (`decode_append`), and its line feeds
can be counted by the bytes (`count_encode`).
-/

namespace PackageAudit.Utf8

theorem toNat_toUInt8 {n : Nat} (h : n < 256) : n.toUInt8.toNat = n := by
  simp only [Nat.toUInt8, UInt8.toNat_ofNat']
  omega

theorem ofNat_val (c : CodePoint) : CodePoint.ofNat c.val = c := by
  simp [CodePoint.ofNat]

/-! ## Decoding what was encoded -/

theorem continuation?_of {n : Nat} (h : n < 64) : continuation? (0x80 + n).toUInt8 = some n := by
  unfold continuation?
  rw [toNat_toUInt8 (by omega), if_pos (by omega)]
  simp

theorem second?_of {first : UInt8} {n : Nat} (h : n < 64)
    (hf : ¬((first.toNat = 0xe0 ∧ n < 0x20) ∨ (first.toNat = 0xed ∧ 0x20 ≤ n) ∨
      (first.toNat = 0xf0 ∧ n < 0x10) ∨ (first.toNat = 0xf4 ∧ 0x10 ≤ n))) :
    second? first (0x80 + n).toUInt8 = some n := by
  unfold second?
  rw [continuation?_of h]
  exact if_neg hf

theorem lead_of_two {n : Nat} (h : n < 32) (h' : 2 ≤ n) : lead (0xc0 + n).toUInt8 = .two n := by
  unfold lead
  rw [toNat_toUInt8 (by omega)]
  simp only
  rw [if_neg (by omega), if_neg (by omega), if_pos (by omega),
    Nat.add_sub_cancel_left]

theorem lead_of_three {n : Nat} (h : n < 16) : lead (0xe0 + n).toUInt8 = .three n := by
  unfold lead
  rw [toNat_toUInt8 (by omega)]
  simp only
  rw [if_neg (by omega), if_neg (by omega), if_neg (by omega), if_pos (by omega),
    Nat.add_sub_cancel_left]

theorem lead_of_four {n : Nat} (h : n < 5) : lead (0xf0 + n).toUInt8 = .four n := by
  unfold lead
  rw [toNat_toUInt8 (by omega)]
  simp only
  rw [if_neg (by omega), if_neg (by omega), if_neg (by omega), if_neg (by omega),
    if_pos (by omega), Nat.add_sub_cancel_left]

theorem lead_of_single {n : Nat} (h : n < 0x80) : lead n.toUInt8 = .single n := by
  unfold lead
  rw [toNat_toUInt8 (by omega)]
  exact if_pos h

theorem decodeFrom_encodePoint {c : CodePoint} (h : c.isSurrogate = false) (position : Nat)
    (done : Text) (rest : List UInt8) :
    decodeFrom position done (encodePoint c ++ rest) =
      decodeFrom (position + (encodePoint c).length) (c :: done) rest := by
  have hc : c.val < 0x110000 := c.isLt
  have hs : ¬(0xd800 ≤ c.val ∧ c.val ≤ 0xdfff) := by
    simpa [CodePoint.isSurrogate] using h
  have hval := ofNat_val c
  generalize hn : c.val = n at *
  simp only [encodePoint, hn]
  split
  · next h1 =>
    simp [decodeFrom, lead_of_single h1, hval]
  · split
    · next h1 h2 =>
      simp only [List.cons_append, List.nil_append, decodeFrom,
        lead_of_two (n := n / 64) (by omega) (by omega)]
      rw [second?_of (by omega) (by rw [toNat_toUInt8 (by omega)]; omega)]
      simp only [List.length_cons, List.length_nil]
      rw [show n / 64 * 64 + n % 64 = n by omega, hval]
    · split
      · next h1 h2 h3 =>
        simp only [List.cons_append, List.nil_append, decodeFrom,
          lead_of_three (n := n / 4096) (by omega)]
        rw [second?_of (by omega) (by rw [toNat_toUInt8 (by omega)]; omega),
          continuation?_of (by omega)]
        simp only [List.length_cons, List.length_nil]
        rw [show (n / 4096 * 64 + n / 64 % 64) * 64 + n % 64 = n by omega, hval]
      · next h1 h2 h3 =>
        simp only [List.cons_append, List.nil_append, decodeFrom,
          lead_of_four (n := n / 262144) (by omega)]
        rw [second?_of (by omega) (by rw [toNat_toUInt8 (by omega)]; omega),
          continuation?_of (by omega), continuation?_of (by omega)]
        simp only [List.length_cons, List.length_nil]
        rw [show ((n / 262144 * 64 + n / 4096 % 64) * 64 + n / 64 % 64) * 64 + n % 64 = n by omega,
          hval]

/-- Bytes that encode a text are decoded to it, whatever comes behind them. -/
theorem decodeFrom_append {t : Text} (h : ∀ c ∈ t, c.isSurrogate = false) (position : Nat)
    (done : Text) (rest : List UInt8) : decodeFrom position done (t.flatMap encodePoint ++ rest) =
      decodeFrom (position + (t.flatMap encodePoint).length) (t.reverse ++ done) rest := by
  induction t generalizing position done with
  | nil => rfl
  | cons c t ih =>
    rw [List.flatMap_cons, List.append_assoc, decodeFrom_encodePoint (h c List.mem_cons_self),
      ih fun x hx => h x (List.mem_cons_of_mem c hx), List.length_append, Nat.add_assoc]
    simp

theorem encode_eq_ok {t : Text} {bytes : List UInt8} :
    encode t = .ok bytes ↔ (∀ c ∈ t, c.isSurrogate = false) ∧ bytes = t.flatMap encodePoint := by
  unfold encode
  cases hi : t.findIdx? CodePoint.isSurrogate with
  | some i =>
    simp only [reduceCtorEq, false_iff, not_and]
    intro hall
    rw [List.findIdx?_eq_none_iff.mpr hall] at hi
    cases hi
  | none =>
    simp only [Except.ok.injEq]
    exact ⟨fun h => ⟨List.findIdx?_eq_none_iff.mp hi, h.symm⟩, fun h => h.2.symm⟩

/-- **What was encoded is read back.** -/
theorem decode_encode {t : Text} {bytes : List UInt8} (h : encode t = .ok bytes) :
    decode bytes = .ok t := by
  obtain ⟨hall, rfl⟩ := encode_eq_ok.mp h
  have happend := decodeFrom_append hall 0 [] []
  rw [List.append_nil] at happend
  simp [decode, happend, decodeFrom]

/-! ## Encoding what was decoded -/

theorem toUInt8_of_toNat {b : UInt8} {n : Nat} (h : b.toNat = n) : n.toUInt8 = b := by
  rw [← UInt8.toNat_inj, ← h, toNat_toUInt8 b.toNat_lt]

/-- The bits that a first byte of a kind has, and their range. -/
def Lead.Fits (b : UInt8) : Lead → Prop
  | .single n => b.toNat = n ∧ n < 0x80
  | .two n => b.toNat = 0xc0 + n ∧ 2 ≤ n ∧ n < 0x20
  | .three n => b.toNat = 0xe0 + n ∧ n < 0x10
  | .four n => b.toNat = 0xf0 + n ∧ n < 5
  | .invalid => True

theorem lead_fits (b : UInt8) : (lead b).Fits b := by
  unfold lead
  simp only
  split
  · exact ⟨rfl, by omega⟩
  · split
    · trivial
    · split
      · exact ⟨by omega, by omega, by omega⟩
      · split
        · exact ⟨by omega, by omega⟩
        · split
          · exact ⟨by omega, by omega⟩
          · trivial

theorem of_continuation? {b : UInt8} {n : Nat} (h : continuation? b = some n) :
    b.toNat = 0x80 + n ∧ n < 0x40 := by
  unfold continuation? at h
  split at h
  · have hn := Option.some.inj h
    omega
  · cases h

theorem of_second? {first b : UInt8} {n : Nat} (h : second? first b = some n) :
    (b.toNat = 0x80 + n ∧ n < 0x40) ∧
      ¬((first.toNat = 0xe0 ∧ n < 0x20) ∨ (first.toNat = 0xed ∧ 0x20 ≤ n) ∨
        (first.toNat = 0xf0 ∧ n < 0x10) ∨ (first.toNat = 0xf4 ∧ 0x10 ≤ n)) := by
  unfold second? at h
  cases hc : continuation? b with
  | none => simp [hc] at h
  | some bits =>
    simp only [hc, Option.bind_some] at h
    split at h
    · cases h
    · next hn =>
      cases h
      exact ⟨of_continuation? hc, hn⟩

theorem val_ofNat {n : Nat} (h : n < 0x110000) : (CodePoint.ofNat n).val = n := by
  simp [CodePoint.ofNat, h]

/-- A code point of a number below the surrogates or above them. -/
theorem isSurrogate_ofNat {n : Nat} (h : n < 0x110000) (hs : n < 0xd800 ∨ 0xdfff < n) :
    (CodePoint.ofNat n).isSurrogate = false := by
  simp only [CodePoint.isSurrogate, val_ofNat h, Bool.and_eq_false_iff, decide_eq_false_iff_not]
  omega

theorem encodePoint_of_single {b : UInt8} {n : Nat} (hb : b.toNat = n) (hn : n < 0x80) :
    encodePoint (CodePoint.ofNat n) = [b] := by
  simp only [encodePoint, val_ofNat (show n < 0x110000 by omega)]
  rw [if_pos hn, toUInt8_of_toNat hb]

theorem encodePoint_of_two {b b1 : UInt8} {n n1 : Nat} (hb : b.toNat = 0xc0 + n)
    (hn : 2 ≤ n ∧ n < 0x20) (hb1 : b1.toNat = 0x80 + n1) (hn1 : n1 < 0x40) :
    encodePoint (CodePoint.ofNat (n * 64 + n1)) = [b, b1] := by
  simp only [encodePoint, val_ofNat (show n * 64 + n1 < 0x110000 by omega)]
  rw [if_neg (by omega), if_pos (by omega), toUInt8_of_toNat (b := b) (by omega),
    toUInt8_of_toNat (b := b1) (by omega)]

theorem encodePoint_of_three {b b1 b2 : UInt8} {n n1 n2 : Nat} (hb : b.toNat = 0xe0 + n)
    (hn : n < 0x10) (hb1 : b1.toNat = 0x80 + n1) (hn1 : n1 < 0x40) (hb2 : b2.toNat = 0x80 + n2)
    (hn2 : n2 < 0x40) (hlow : 0x800 ≤ (n * 64 + n1) * 64 + n2) :
    encodePoint (CodePoint.ofNat ((n * 64 + n1) * 64 + n2)) = [b, b1, b2] := by
  simp only [encodePoint, val_ofNat (show (n * 64 + n1) * 64 + n2 < 0x110000 by omega)]
  rw [if_neg (by omega), if_neg (by omega), if_pos (by omega),
    toUInt8_of_toNat (b := b) (by omega), toUInt8_of_toNat (b := b1) (by omega),
    toUInt8_of_toNat (b := b2) (by omega)]

theorem encodePoint_of_four {b b1 b2 b3 : UInt8} {n n1 n2 n3 : Nat} (hb : b.toNat = 0xf0 + n)
    (hb1 : b1.toNat = 0x80 + n1) (hn1 : n1 < 0x40) (hb2 : b2.toNat = 0x80 + n2)
    (hn2 : n2 < 0x40) (hb3 : b3.toNat = 0x80 + n3) (hn3 : n3 < 0x40)
    (hlow : 0x10000 ≤ ((n * 64 + n1) * 64 + n2) * 64 + n3)
    (hhigh : ((n * 64 + n1) * 64 + n2) * 64 + n3 < 0x110000) :
    encodePoint (CodePoint.ofNat (((n * 64 + n1) * 64 + n2) * 64 + n3)) = [b, b1, b2, b3] := by
  simp only [encodePoint, val_ofNat hhigh]
  rw [if_neg (by omega), if_neg (by omega), if_neg (by omega),
    toUInt8_of_toNat (b := b) (by omega), toUInt8_of_toNat (b := b1) (by omega),
    toUInt8_of_toNat (b := b2) (by omega), toUInt8_of_toNat (b := b3) (by omega)]

theorem exists_flatMap_cons {c : CodePoint} {bytes rest : List UInt8} {done t : Text}
    (hc : c.isSurrogate = false) (hb : bytes = encodePoint c ++ rest)
    (h : ∃ cs, t = (c :: done).reverse ++ cs ∧ (∀ c ∈ cs, c.isSurrogate = false) ∧
      rest = cs.flatMap encodePoint) :
    ∃ cs, t = done.reverse ++ cs ∧ (∀ c ∈ cs, c.isSurrogate = false) ∧
      bytes = cs.flatMap encodePoint := by
  obtain ⟨cs, rfl, hall, rfl⟩ := h
  refine ⟨c :: cs, by simp, fun x hx => ?_, by rw [hb, List.flatMap_cons]⟩
  rcases List.mem_cons.mp hx with rfl | hx
  · exact hc
  · exact hall x hx

theorem of_decodeFrom {position : Nat} {done t : Text} {bytes : List UInt8}
    (h : decodeFrom position done bytes = .ok t) :
    ∃ cs, t = done.reverse ++ cs ∧ (∀ c ∈ cs, c.isSurrogate = false) ∧
      bytes = cs.flatMap encodePoint := by
  fun_induction decodeFrom position done bytes with
  | case1 => cases h; exact ⟨[], by simp⟩
  | case3 position done b rest n hl ih =>
    have hb := lead_fits b
    rw [hl, Lead.Fits] at hb
    refine exists_flatMap_cons (isSurrogate_ofNat (by omega) (by omega)) ?_ (ih h)
    rw [encodePoint_of_single hb.1 hb.2, List.singleton_append]
  | case6 position done b n hl b1 rest n1 hn1 ih =>
    have hb := lead_fits b
    rw [hl, Lead.Fits] at hb
    obtain ⟨⟨hb1, hlt⟩, -⟩ := of_second? hn1
    refine exists_flatMap_cons (isSurrogate_ofNat (by omega) (by omega)) ?_ (ih h)
    rw [encodePoint_of_two hb.1 hb.2 hb1 hlt]
    rfl
  | case11 position done b n hl b1 n1 hn1 b2 rest n2 hn2 ih =>
    have hb := lead_fits b
    rw [hl, Lead.Fits] at hb
    obtain ⟨⟨hb1, hlt1⟩, hrange⟩ := of_second? hn1
    obtain ⟨hb2, hlt2⟩ := of_continuation? hn2
    refine exists_flatMap_cons (isSurrogate_ofNat (by omega) (by omega)) ?_ (ih h)
    rw [encodePoint_of_three hb.1 hb.2 hb1 hlt1 hb2 hlt2 (by omega)]
    rfl
  | case18 position done b n hl b1 n1 hn1 b2 n2 hn2 b3 rest n3 hn3 ih =>
    have hb := lead_fits b
    rw [hl, Lead.Fits] at hb
    obtain ⟨⟨hb1, hlt1⟩, hrange⟩ := of_second? hn1
    obtain ⟨hb2, hlt2⟩ := of_continuation? hn2
    obtain ⟨hb3, hlt3⟩ := of_continuation? hn3
    refine exists_flatMap_cons (isSurrogate_ofNat (by omega) (by omega)) ?_ (ih h)
    rw [encodePoint_of_four hb.1 hb1 hlt1 hb2 hlt2 hb3 hlt3 (by omega) (by omega)]
    rfl
  | _ => cases h

/-- **What was decoded is encoded as it was.** -/
theorem encode_decode {t : Text} {bytes : List UInt8} (h : decode bytes = .ok t) :
    encode t = .ok bytes := by
  obtain ⟨cs, rfl, hall, hb⟩ := of_decodeFrom h
  exact encode_eq_ok.mpr ⟨by simpa using hall, by simpa using hb⟩

theorem decode_eq_ok {t : Text} {bytes : List UInt8} : decode bytes = .ok t ↔
    (∀ c ∈ t, c.isSurrogate = false) ∧ bytes = t.flatMap encodePoint :=
  ⟨fun h => encode_eq_ok.mp (encode_decode h), fun h => decode_encode (encode_eq_ok.mpr h)⟩

/-! ## Bytes behind others -/

/-- **Behind bytes that encode a text**, further bytes are decoded on their own. -/
theorem decode_append {t text : Text} {bytes more : List UInt8} (h : decode bytes = .ok t) :
    decode (bytes ++ more) = .ok text ↔ ∃ rest, decode more = .ok rest ∧ text = t ++ rest := by
  obtain ⟨ht, rfl⟩ := decode_eq_ok.mp h
  constructor
  · intro h
    rw [decode, decodeFrom_append ht, List.append_nil] at h
    obtain ⟨rest, rfl, hrest, hmore⟩ := of_decodeFrom h
    exact ⟨rest, decode_eq_ok.mpr ⟨hrest, hmore⟩, by rw [List.reverse_reverse]⟩
  · rintro ⟨rest, hrest, rfl⟩
    obtain ⟨hall, rfl⟩ := decode_eq_ok.mp hrest
    exact decode_eq_ok.mpr ⟨List.forall_mem_append.mpr ⟨ht, hall⟩, List.flatMap_append.symm⟩

/-! ## Line feeds -/

theorem encodePoint_of_lt {c : CodePoint} (h : c.val < 0x80) : encodePoint c = [c.val.toUInt8] := by
  simp only [encodePoint, if_pos h]

theorem le_of_mem_encodePoint {c : CodePoint} {b : UInt8} (h : ¬ c.val < 0x80)
    (hb : b ∈ encodePoint c) : 0x80 ≤ b.toNat := by
  have hc : c.val < 0x110000 := c.isLt
  have hbyte {n : Nat} (hn : n < 256) (hle : 0x80 ≤ n) (h : b = n.toUInt8) : 0x80 ≤ b.toNat := by
    rwa [h, toNat_toUInt8 hn]
  simp only [encodePoint, if_neg h] at hb
  split at hb
  · simp only [List.mem_cons, List.not_mem_nil, or_false] at hb
    rcases hb with hb | hb <;> exact hbyte (by omega) (by omega) hb
  · split at hb
    · simp only [List.mem_cons, List.not_mem_nil, or_false] at hb
      rcases hb with hb | hb | hb <;> exact hbyte (by omega) (by omega) hb
    · simp only [List.mem_cons, List.not_mem_nil, or_false] at hb
      rcases hb with hb | hb | hb | hb <;> exact hbyte (by omega) (by omega) hb

/-- Only a line feed is encoded with the byte of a line feed. -/
theorem eq_lineFeed_of_encodePoint {c : CodePoint} (h : 10 ∈ encodePoint c) :
    c = CodePoint.ofChar '\n' := by
  by_cases hlow : c.val < 0x80
  · rw [encodePoint_of_lt hlow, List.mem_singleton] at h
    have hval := congrArg UInt8.toNat h
    rw [toNat_toUInt8 (by omega)] at hval
    exact Fin.ext hval.symm
  · exact absurd (le_of_mem_encodePoint hlow h) (by decide)

/-- There are as many bytes of line feeds as line feeds. -/
theorem count_encode (t : Text) :
    (t.flatMap encodePoint).count 10 = t.count (CodePoint.ofChar '\n') := by
  induction t with
  | nil => rfl
  | cons c t ih =>
    rw [List.flatMap_cons, List.count_append, ih]
    by_cases hc : c = CodePoint.ofChar '\n'
    · rw [hc, List.count_cons_self, Nat.add_comm]
      rfl
    · have hnone : 10 ∉ encodePoint c := fun h => hc (eq_lineFeed_of_encodePoint h)
      rw [List.count_cons_of_ne hc, List.count_eq_zero.mpr hnone, Nat.zero_add]

theorem encodePoint_ne_nil (c : CodePoint) : encodePoint c ≠ [] := by
  unfold encodePoint
  simp only
  split
  · exact List.cons_ne_nil _ _
  · split
    · exact List.cons_ne_nil _ _
    · split <;> exact List.cons_ne_nil _ _

/-- A text that is encoded with the byte of a line feed at the end ends with a line feed. -/
theorem exists_lineFeed {t : Text} {bytes : List UInt8} (h : decode bytes = .ok t)
    (hlast : bytes.getLast? = some 10) : ∃ front, t = front ++ [CodePoint.ofChar '\n'] := by
  obtain ⟨-, rfl⟩ := decode_eq_ok.mp h
  rcases List.eq_nil_or_concat t with rfl | ⟨front, c, rfl⟩
  · cases hlast
  · have hsome : (encodePoint c).getLast?.isSome := by simp [encodePoint_ne_nil c]
    rw [List.concat_eq_append, List.flatMap_append, List.flatMap_singleton, List.getLast?_append,
      Option.or_of_isSome hsome] at hlast
    have hmem := List.mem_of_getLast? hlast
    exact ⟨front, by rw [List.concat_eq_append, eq_lineFeed_of_encodePoint hmem]⟩

end PackageAudit.Utf8
