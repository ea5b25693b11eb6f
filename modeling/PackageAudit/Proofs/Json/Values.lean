import PackageAudit.Proofs.Json.Numbers
import PackageAudit.Proofs.Json.Strings

/-! # Values of JSON documents

A value that was read (`Readable`, `readable_of_read`) is read back from its indented form
(`readValue_writeIndented`), apart from numbers that are not whole: each of them is read as some
number of the format (`again`).
-/

namespace PackageAudit.Json

/-! ## Values that were read -/

mutual

/-- What reading can give: numbers that are not too long, texts without unjoined pairs, and names
that are distinct inside an object. -/
def Readable : Json → Prop
  | .null => True
  | .bool _ => True
  | .int i => i.natAbs < 10 ^ maxIntegerDigits
  | .real x => x.Fits
  | .str t => PairFree t
  | .arr vs => ReadableItems vs
  | .obj ms => (Members.names ms).Nodup ∧ ReadableMembers ms

/-- All items are readable. -/
def ReadableItems : List Json → Prop
  | [] => True
  | v :: vs => Readable v ∧ ReadableItems vs

/-- All names and values of members are readable. -/
def ReadableMembers : List (Text × Json) → Prop
  | [] => True
  | (name, v) :: ms => PairFree name ∧ Readable v ∧ ReadableMembers ms

end

/-- What a number that is not whole is read as from its shortest form. -/
def reread (x : Binary64) : Binary64 :=
  match readValue 1 (Layout.json.shortestText x) with
  | .ok (.real y, _) => y
  | _ => .nan

mutual

/-- What a value is read as from its document. -/
def again : Json → Json
  | .real x => .real (reread x)
  | .arr vs => .arr (againItems vs)
  | .obj ms => .obj (againMembers ms)
  | v => v

/-- The items that are read. -/
def againItems : List Json → List Json
  | [] => []
  | v :: vs => again v :: againItems vs

/-- The members that are read. -/
def againMembers : Members → Members
  | [] => []
  | (name, v) :: ms => (name, again v) :: againMembers ms

end

theorem readValue_real {x : Binary64} (hx : x.Fits) (n : Nat) {rest : Text} (hrest : Ends rest) :
    readValue (n + 1) (Layout.json.shortestText x ++ rest) =
      .ok (.real (reread x), rest) := by
  obtain ⟨y, hy⟩ := readValue_shortestText hx
  have hself := hy 0 [] ends_nil
  rw [List.append_nil] at hself
  rw [hy n rest hrest, reread, hself]

section
variable {ms : Members} {name : Text} {v : Json}

theorem get?_againMembers : ∀ (ms : Members),
    Members.get? (againMembers ms) name = (Members.get? ms name).map again
  | [] => rfl
  | (other, v) :: ms => by
    have ih := get?_againMembers ms
    unfold Members.get? at *
    rw [againMembers, List.find?_cons, List.find?_cons]
    split
    · next h => simp only [h, Option.map_some]
    · next h =>
      simp only [h]
      exact ih

theorem names_againMembers : ∀ (ms : Members), Members.names (againMembers ms) = Members.names ms
  | [] => rfl
  | (other, v) :: ms => by
    rw [againMembers]
    exact congrArg (other :: ·) (names_againMembers ms)

theorem text?_againMembers : (againMembers ms).text? name = ms.text? name := by
  unfold Members.text?
  rw [get?_againMembers]
  cases Members.get? ms name with
  | none => rfl
  | some v => cases v <;> rfl

theorem members?_againMembers :
    (againMembers ms).members? name = (ms.members? name).map againMembers := by
  unfold Members.members?
  rw [get?_againMembers]
  cases Members.get? ms name with
  | none => rfl
  | some v => cases v <;> rfl

end

/-! ## Blank space -/

theorem skipSpace_cons {c : CodePoint} (h : isSpace c = false) (rest : Text) :
    skipSpace (c :: rest) = c :: rest := by
  simp [skipSpace, h]

theorem skipSpace_newLine (depth : Nat) {c : CodePoint} (h : isSpace c = false) (rest : Text) :
    skipSpace (newLine depth ++ c :: rest) = c :: rest := by
  have hspace : ∀ x ∈ newLine depth, isSpace x = true := by
    intro x hx
    rcases List.mem_cons.mp hx with rfl | hx
    · rfl
    · rw [List.eq_of_mem_replicate hx]
      rfl
  unfold skipSpace
  rw [List.dropWhile_append_of_pos hspace, List.dropWhile_cons_of_neg (by simp [h])]

theorem exists_head_sign ( negative : Bool) {c : CodePoint} {t : Text} (hc : c.isDigit = true) :
    ∃ d rest, Layout.signText negative ++ c :: t = d :: rest ∧ isSpace d = false ∧
      d.val ≠ 0x5d := by
  cases negative with
  | true => exact ⟨CodePoint.ofChar '-', c :: t, rfl, rfl, by decide⟩
  | false =>
    have hval := CodePoint.val_of_isDigit hc
    refine ⟨c, t, rfl, ?_, by omega⟩
    simp only [isSpace, Bool.or_eq_false_iff, beq_eq_false_iff_ne]
    omega

/-- A written value begins neither with blank space nor with the end of an array. -/
theorem exists_head {v : Json} (hv : Readable v) (depth : Nat) :
    ∃ c t, writeIndented depth v = c :: t ∧ isSpace c = false ∧ c.val ≠ 0x5d := by
  cases v with
  | null => exact ⟨_, _, rfl, rfl, by decide⟩
  | bool b => cases b <;> exact ⟨_, _, rfl, rfl, by decide⟩
  | str t => exact ⟨_, _, rfl, rfl, by decide⟩
  | arr vs => cases vs <;> exact ⟨_, _, rfl, rfl, by decide⟩
  | obj ms => cases ms <;> exact ⟨_, _, rfl, rfl, by decide⟩
  | int i =>
    have htext : writeIndented depth (.int i) = Text.ofInt i := rfl
    rw [htext, ofInt_eq]
    obtain ⟨c, digits, hdigits, hc⟩ := Text.exists_ofNat_eq_cons i.natAbs
    rw [hdigits]
    exact exists_head_sign _ hc
  | real x =>
    have htext : writeIndented depth (.real x) = Layout.json.shortestText x := rfl
    rw [htext]
    cases x with
    | nan => exact ⟨_, _, rfl, rfl, by decide⟩
    | infinite negative => cases negative <;> exact ⟨_, _, rfl, rfl, by decide⟩
    | finite negative s e =>
      have hfits : (Binary64.finite negative s e).Fits := hv
      obtain ⟨t, hform, hshort⟩ := realForm_shortestText hfits
      obtain ⟨c, rest, rfl, hc⟩ := hform.exists_digit
      rw [hshort]
      exact exists_head_sign negative hc

theorem skipSpace_written {v : Json} (hv : Readable v) (depth : Nat) (rest : Text) :
    skipSpace (writeIndented depth v ++ rest) = writeIndented depth v ++ rest := by
  obtain ⟨c, t, htext, hc, -⟩ := exists_head hv depth
  rw [htext, List.cons_append, skipSpace_cons hc]

theorem skipSpace_newLine_written {v : Json} (hv : Readable v) (line depth : Nat) (rest : Text) :
    skipSpace (newLine line ++ (writeIndented depth v ++ rest)) = writeIndented depth v ++ rest := by
  obtain ⟨c, t, htext, hc, -⟩ := exists_head hv depth
  rw [htext, List.cons_append, skipSpace_newLine line hc]

/-! ## Reading back -/

theorem ends_items (depth : Nat) (vs : List Json) (rest : Text) :
    Ends (writeIndentedItems depth vs ++ rest) := by
  intro c hc
  cases vs with
  | nil => exact .inr (Option.some.inj hc).symm
  | cons v vs => exact .inl (Option.some.inj hc).symm

theorem ends_members (depth : Nat) (ms : Members) (rest : Text) :
    Ends (writeIndentedMembers depth ms ++ rest) := by
  intro c hc
  cases ms with
  | nil => exact .inr (Option.some.inj hc).symm
  | cons m ms => exact .inl (Option.some.inj hc).symm

theorem insert_of_notMem {done : Members} {name : Text} (h : name ∉ Members.names done) (v : Json) :
    Members.insert done name v = done ++ [(name, v)] := by
  unfold Members.names at h
  induction done with
  | nil => rfl
  | cons m done ih =>
    rw [List.map_cons, List.mem_cons, not_or] at h
    rw [Members.insert, if_neg (Ne.symm h.1), ih h.2, List.cons_append]

theorem writeString_append (t rest : Text) : writeString t ++ rest =
    CodePoint.ofChar '"' :: (t.flatMap escape ++ CodePoint.ofChar '"' :: rest) := by
  simp [writeString]

theorem skipSpace_blank_written {v : Json} (hv : Readable v) (depth : Nat) (rest : Text) :
    skipSpace (CodePoint.ofChar ' ' :: (writeIndented depth v ++ rest)) =
      writeIndented depth v ++ rest := by
  have hblank : isSpace (CodePoint.ofChar ' ') = true := rfl
  have hskip := skipSpace_written hv depth rest
  unfold skipSpace at *
  rw [List.dropWhile_cons_of_pos hblank, hskip]

theorem length_newLine (depth : Nat) : (newLine depth).length = 2 * depth + 1 := by
  simp [newLine]

/-- Who can pay for a written value can pay for one call. -/
theorem exists_fuel {v : Json} (hv : Readable v) {depth n : Nat}
    (h : 2 * (writeIndented depth v).length ≤ n) : ∃ m, n = m + 1 := by
  obtain ⟨c, t, htext, -⟩ := exists_head hv depth
  rw [htext, List.length_cons] at h
  exact ⟨n - 1, by omega⟩

theorem writeIndented_members (depth : Nat) (name : Text) (v : Json) (ms : Members) (rest : Text) :
    writeIndented depth (.obj ((name, v) :: ms)) ++ rest = CodePoint.ofChar '{' ::
      (newLine (depth + 1) ++ (writeString name ++ (CodePoint.ofChar ':' :: CodePoint.ofChar ' ' ::
        (writeIndented (depth + 1) v ++ (writeIndentedMembers depth ms ++ rest))))) := by
  rw [writeIndented]
  simp only [List.append_assoc]
  rfl

theorem notMem_of_nodup {done ms : Members} {name : Text} {v : Json}
    (h : (Members.names done ++ Members.names ((name, v) :: ms)).Nodup) :
    name ∉ Members.names done :=
  fun hmem => (List.nodup_append.mp h).2.2 name hmem name List.mem_cons_self rfl

section
variable {name : Text} {v w : Json} {done : Members} {depth n : Nat} {behind rest : Text}

theorem readMembers_last (hname : PairFree name) (hv : Readable v)
    (hvalue : readValue n (writeIndented depth v ++ behind) = .ok (w, behind))
    (hend : skipSpace behind = CodePoint.ofChar '}' :: rest) :
    readMembers (n + 1) done (writeString name ++ (CodePoint.ofChar ':' :: CodePoint.ofChar ' ' ::
      (writeIndented depth v ++ behind))) = .ok (.obj (done.insert name w), rest) := by
  rw [writeString_append]
  unfold readMembers
  rw [if_pos (by decide), readString_writeString hname]
  simp only
  rw [skipSpace_cons (by decide)]
  simp only
  rw [if_pos (by decide), skipSpace_blank_written hv, hvalue]
  simp only [hend]
  rw [if_pos (by decide)]

theorem readMembers_more (hname : PairFree name) (hv : Readable v)
    (hvalue : readValue n (writeIndented depth v ++ behind) = .ok (w, behind))
    (hnext : skipSpace behind = CodePoint.ofChar ',' :: rest) :
    readMembers (n + 1) done (writeString name ++ (CodePoint.ofChar ':' :: CodePoint.ofChar ' ' ::
      (writeIndented depth v ++ behind))) =
        readMembers n (done.insert name w) (skipSpace rest) := by
  rw [writeString_append]
  conv => lhs; unfold readMembers
  rw [if_pos (by decide), readString_writeString hname]
  simp only
  rw [skipSpace_cons (by decide)]
  simp only
  rw [if_pos (by decide), skipSpace_blank_written hv, hvalue]
  simp only [hnext]
  rw [if_neg (by decide), if_pos (by decide)]

end

mutual

/-- **A value is read back from its indented form**, whatever ends it. -/
theorem readValue_writeIndented : ∀ {v : Json}, Readable v → ∀ (depth : Nat) {n : Nat} {rest : Text},
    Ends rest → 2 * (writeIndented depth v).length ≤ n →
    readValue n (writeIndented depth v ++ rest) = .ok (again v, rest)
  | .null, hv, depth, n, rest, _, hn => by
    obtain ⟨m, rfl⟩ := exists_fuel hv hn
    exact readValue_word m rest (show (Text.ofString "null", Json.null) ∈ words by simp [words])
  | .bool true, hv, depth, n, rest, _, hn => by
    obtain ⟨m, rfl⟩ := exists_fuel hv hn
    exact readValue_word m rest (show (Text.ofString "true", Json.bool true) ∈ words by simp [words])
  | .bool false, hv, depth, n, rest, _, hn => by
    obtain ⟨m, rfl⟩ := exists_fuel hv hn
    exact readValue_word m rest
      (show (Text.ofString "false", Json.bool false) ∈ words by simp [words])
  | .int i, hv, depth, n, rest, hrest, hn => by
    obtain ⟨m, rfl⟩ := exists_fuel hv hn
    exact readValue_ofInt hv m hrest
  | .real x, hv, depth, n, rest, hrest, hn => by
    obtain ⟨m, rfl⟩ := exists_fuel hv hn
    exact readValue_real hv m hrest
  | .str t, hv, depth, n, rest, _, hn => by
    obtain ⟨m, rfl⟩ := exists_fuel hv hn
    rw [show writeIndented depth (.str t) = writeString t by rfl, writeString_append]
    unfold readValue
    rw [if_pos (by decide), readString_writeString hv]
    rfl
  | .arr [], hv, depth, n, rest, _, hn => by
    obtain ⟨m, rfl⟩ := exists_fuel hv hn
    have hform : writeIndented depth (.arr []) ++ rest =
        CodePoint.ofChar '[' :: CodePoint.ofChar ']' :: rest := rfl
    rw [hform]
    unfold readValue
    rw [if_neg (by decide), if_neg (by decide), if_pos (by decide), skipSpace_cons (by decide)]
    rfl
  | .obj [], hv, depth, n, rest, _, hn => by
    obtain ⟨m, rfl⟩ := exists_fuel hv hn
    have hform : writeIndented depth (.obj []) ++ rest =
        CodePoint.ofChar '{' :: CodePoint.ofChar '}' :: rest := rfl
    rw [hform]
    unfold readValue
    rw [if_neg (by decide), if_pos (by decide), skipSpace_cons (by decide)]
    rfl
  | .arr (v :: vs), hv, depth, n, rest, _, hn => by
    obtain ⟨m, rfl⟩ := exists_fuel hv hn
    have hitems := @readItems_writeIndented v vs hv.1 hv.2 depth m [] rest (by
      have hopen : (Text.ofString "[").length = 1 := rfl
      rw [writeIndented] at hn
      simp only [List.length_append, length_newLine, hopen] at hn ⊢
      omega)
    obtain ⟨c, t, htext, -, hc⟩ := exists_head hv.1 (depth + 1)
    have hform : writeIndented depth (.arr (v :: vs)) ++ rest = CodePoint.ofChar '[' ::
        (newLine (depth + 1) ++
          (writeIndented (depth + 1) v ++ (writeIndentedItems depth vs ++ rest))) := by
      rw [writeIndented]
      simp only [List.append_assoc]
      rfl
    rw [hform]
    unfold readValue
    rw [if_neg (by decide), if_neg (by decide), if_pos (by decide),
      skipSpace_newLine_written hv.1]
    rw [htext, List.cons_append] at hitems ⊢
    simp only [if_neg hc]
    exact hitems
  | .obj ((name, v) :: ms), hv, depth, n, rest, _, hn => by
    obtain ⟨m, rfl⟩ := exists_fuel hv hn
    have hmembers := @readMembers_writeIndented name v ms hv.2.1 hv.2.2.1 hv.2.2.2 depth m [] rest
      hv.1 (by
        have hopen : (Text.ofString "\x7b").length = 1 := rfl
        rw [writeIndented] at hn
        simp only [List.length_append, length_newLine, hopen] at hn ⊢
        omega)
    rw [writeIndented_members]
    unfold readValue
    rw [if_neg (by decide), if_pos (by decide), writeString_append,
      skipSpace_newLine (depth + 1) (by decide), ← writeString_append]
    exact hmembers
termination_by v => sizeOf v

theorem readItems_writeIndented : ∀ {v : Json} {vs : List Json}, Readable v → ReadableItems vs →
    ∀ (depth : Nat) {n : Nat} {done : List Json} {rest : Text},
    2 * (writeIndented (depth + 1) v ++ writeIndentedItems depth vs).length + 1 ≤ n →
    readItems n done (writeIndented (depth + 1) v ++ (writeIndentedItems depth vs ++ rest)) =
      .ok (.arr (done.reverse ++ again v :: againItems vs), rest)
  | v, [], hv, _, depth, n + 1, done, rest, hn => by
    have hvalue := readValue_writeIndented hv (depth + 1) (n := n) (ends_items depth [] rest)
      (by rw [List.length_append] at hn; omega)
    have hend : skipSpace (writeIndentedItems depth [] ++ rest) = CodePoint.ofChar ']' :: rest := by
      rw [writeIndentedItems, List.append_assoc]
      exact skipSpace_newLine depth (by decide) rest
    rw [readItems, hvalue]
    simp only [hend]
    rw [if_pos (by decide), againItems, List.reverse_cons]
  | v, v' :: vs, hv, hvs, depth, n + 1, done, rest, hn => by
    have hvalue := readValue_writeIndented hv (depth + 1) (n := n)
      (ends_items depth (v' :: vs) rest) (by rw [List.length_append] at hn; omega)
    have hnext : skipSpace (writeIndentedItems depth (v' :: vs) ++ rest) = CodePoint.ofChar ',' ::
        (newLine (depth + 1) ++
          (writeIndented (depth + 1) v' ++ (writeIndentedItems depth vs ++ rest))) := by
      rw [writeIndentedItems]
      simp only [List.append_assoc]
      exact skipSpace_cons (by decide) _
    have hitems := @readItems_writeIndented v' vs hvs.1 hvs.2 depth n (again v :: done) rest (by
      rw [writeIndentedItems] at hn
      simp only [List.length_append, length_newLine] at hn ⊢
      omega)
    rw [readItems, hvalue]
    simp only [hnext]
    rw [if_neg (by decide), if_pos (by decide), skipSpace_newLine_written hvs.1, hitems]
    simp [againItems]
termination_by v vs => sizeOf v + sizeOf vs

/-- Members are read back from a first one on, if their names are new. -/
theorem readMembers_writeIndented : ∀ {name : Text} {v : Json} {ms : Members}, PairFree name →
    Readable v → ReadableMembers ms → ∀ (depth : Nat) {n : Nat} {done : Members} {rest : Text},
    (Members.names done ++ Members.names ((name, v) :: ms)).Nodup →
    2 * (writeString name ++ (writeIndented (depth + 1) v ++ writeIndentedMembers depth ms)).length +
      1 ≤ n →
    readMembers n done (writeString name ++ (CodePoint.ofChar ':' :: CodePoint.ofChar ' ' ::
        (writeIndented (depth + 1) v ++ (writeIndentedMembers depth ms ++ rest)))) =
      .ok (.obj (done ++ (name, again v) :: againMembers ms), rest)
  | name, v, [], hname, hv, _, depth, n + 1, done, rest, hd, hn => by
    have hvalue := readValue_writeIndented hv (depth + 1) (n := n) (ends_members depth [] rest)
      (by simp only [List.length_append] at hn; omega)
    have hend : skipSpace (writeIndentedMembers depth [] ++ rest) =
        CodePoint.ofChar '}' :: rest := by
      rw [writeIndentedMembers, List.append_assoc]
      exact skipSpace_newLine depth (by decide) rest
    rw [readMembers_last hname hv hvalue hend, insert_of_notMem (notMem_of_nodup hd), againMembers]
  | name, v, (name', v') :: ms, hname, hv, hms, depth, n + 1, done, rest, hd, hn => by
    have hvalue := readValue_writeIndented hv (depth + 1) (n := n)
      (ends_members depth ((name', v') :: ms) rest)
      (by simp only [List.length_append] at hn; omega)
    have hnext : skipSpace (writeIndentedMembers depth ((name', v') :: ms) ++ rest) =
        CodePoint.ofChar ',' :: (newLine (depth + 1) ++ (writeString name' ++
          (CodePoint.ofChar ':' :: CodePoint.ofChar ' ' ::
            (writeIndented (depth + 1) v' ++ (writeIndentedMembers depth ms ++ rest))))) := by
      rw [writeIndentedMembers]
      simp only [List.append_assoc]
      exact skipSpace_cons (by decide) _
    have hmembers := @readMembers_writeIndented name' v' ms hms.1 hms.2.1 hms.2.2 depth n
      (done ++ [(name, again v)]) rest (by
        rw [Members.names, List.map_append, List.append_assoc]
        exact hd) (by
        rw [writeIndentedMembers] at hn
        simp only [List.length_append, length_newLine] at hn ⊢
        omega)
    rw [readMembers_more hname hv hvalue hnext, writeString_append,
      skipSpace_newLine (depth + 1) (by decide), ← writeString_append,
      insert_of_notMem (notMem_of_nodup hd), hmembers]
    simp [againMembers]
termination_by _ v ms => sizeOf v + sizeOf ms

end

/-! ## What reading gives -/

theorem readableItems_iff : ∀ {vs : List Json}, ReadableItems vs ↔ ∀ v ∈ vs, Readable v
  | [] => by simp [ReadableItems]
  | v :: vs => by rw [ReadableItems, readableItems_iff, List.forall_mem_cons]

theorem readableMembers_iff : ∀ {ms : Members},
    ReadableMembers ms ↔ ∀ m ∈ ms, PairFree m.1 ∧ Readable m.2
  | [] => by simp [ReadableMembers]
  | (name, v) :: ms => by
    rw [ReadableMembers, readableMembers_iff, List.forall_mem_cons, and_assoc]

theorem mem_insert {ms : Members} {name : Text} {v : Json} {m : Text × Json}
    (h : m ∈ Members.insert ms name v) : m = (name, v) ∨ m ∈ ms := by
  induction ms with
  | nil => exact .inl (List.mem_singleton.mp h)
  | cons first ms ih =>
    rw [Members.insert] at h
    split at h
    · rcases List.mem_cons.mp h with rfl | h
      · exact .inl rfl
      · exact .inr (List.mem_cons_of_mem _ h)
    · rcases List.mem_cons.mp h with rfl | h
      · exact .inr List.mem_cons_self
      · exact (ih h).imp_right (List.mem_cons_of_mem _)

theorem nodup_names_insert {ms : Members} (h : (Members.names ms).Nodup) (name : Text) (v : Json) :
    (Members.names (Members.insert ms name v)).Nodup := by
  by_cases hn : name ∈ Members.names ms
  · rw [Members.names_insert_of_mem hn]
    exact h
  · rw [Members.names_insert_of_notMem hn, List.nodup_append]
    refine ⟨h, List.pairwise_singleton _ name, fun x hx y hy hxy => hn ?_⟩
    rw [← List.mem_singleton.mp hy, ← hxy]
    exact hx

theorem Readable.insert {ms : Members} {name : Text} {v : Json} (h : Readable (.obj ms))
    (hname : PairFree name) (hv : Readable v) : Readable (.obj (Members.insert ms name v)) := by
  refine ⟨nodup_names_insert h.1 name v, readableMembers_iff.mpr fun m hm => ?_⟩
  rcases mem_insert hm with rfl | hm
  · exact ⟨hname, hv⟩
  · exact readableMembers_iff.mp h.2 m hm

theorem Readable.get? {ms : Members} {name : Text} {v : Json} (h : Readable (.obj ms))
    (hv : Members.get? ms name = some v) : Readable v := by
  obtain ⟨m, hm, rfl⟩ := Option.map_eq_some_iff.mp hv
  exact (readableMembers_iff.mp h.2 m (List.mem_of_find?_eq_some hm)).2

theorem readable_of_readNumber {t rest : Text} {v : Json} (h : readNumber t = .ok (v, rest)) :
    Readable v := by
  unfold readNumber at h
  simp only at h
  split at h
  · cases h
  · next whole behind hwhole =>
    split at h
    · split at h
      · cases h
      · next hlen =>
        cases h
        have hlt := Text.toNat_lt whole
        have hle : 10 ^ whole.length ≤ 10 ^ maxIntegerDigits :=
          Nat.pow_le_pow_right (by decide) (Nat.le_of_not_lt hlen)
        show Int.natAbs _ < 10 ^ maxIntegerDigits
        split <;> omega
    · cases h
      exact Binary64.fits_ofDecimal _ _ _ _
    · cases h
      exact Binary64.fits_ofDecimal _ _ _ _

theorem readable_of_readWord? {t rest : Text} {v : Json} (h : readWord? t = some (v, rest)) :
    Readable v := by
  obtain ⟨⟨word, w⟩, hw, heq⟩ := Option.map_eq_some_iff.mp h
  obtain ⟨rfl, -⟩ := Prod.mk.inj heq
  have hmem := List.mem_of_find?_eq_some hw
  simp only [words, List.mem_cons, Prod.mk.injEq, List.not_mem_nil, or_false] at hmem
  rcases hmem with ⟨-, rfl⟩ | ⟨-, rfl⟩ | ⟨-, rfl⟩ | ⟨-, rfl⟩ | ⟨-, rfl⟩ | ⟨-, rfl⟩ <;> trivial

mutual

theorem readable_of_readValue : ∀ {n : Nat} {t rest : Text} {v : Json},
    readValue n t = .ok (v, rest) → Readable v
  | 0, _, _, _, h => by cases h
  | _ + 1, [], _, _, h => by cases h
  | n + 1, c :: t, rest, v, h => by
    unfold readValue at h
    split at h
    · split at h
      · cases h
      · next text behind hs =>
        cases h
        exact pairFree_of_readString hs
    split at h
    · have hempty : Readable (.obj []) := ⟨List.nodup_nil, trivial⟩
      split at h
      · split at h
        · cases h
          exact hempty
        · exact readable_of_readMembers hempty h
      · exact readable_of_readMembers hempty h
    split at h
    · have hempty : ∀ w ∈ ([] : List Json), Readable w := fun w hw => absurd hw List.not_mem_nil
      split at h
      · split at h
        · cases h
          exact trivial
        · exact readable_of_readItems hempty h
      · exact readable_of_readItems hempty h
    split at h
    · next hword =>
      cases h
      exact readable_of_readWord? hword
    · exact readable_of_readNumber h

theorem readable_of_readItems : ∀ {n : Nat} {done : List Json} {t rest : Text} {v : Json},
    (∀ w ∈ done, Readable w) → readItems n done t = .ok (v, rest) → Readable v
  | 0, _, _, _, _, _, h => by cases h
  | n + 1, done, t, rest, v, hdone, h => by
    unfold readItems at h
    split at h
    · cases h
    · next w behind hw =>
      have hall : ∀ x ∈ w :: done, Readable x :=
        List.forall_mem_cons.mpr ⟨readable_of_readValue hw, hdone⟩
      split at h
      · cases h
      · split at h
        · cases h
          exact readableItems_iff.mpr fun x hx => hall x (List.mem_reverse.mp hx)
        · split at h
          · exact readable_of_readItems hall h
          · cases h

theorem readable_of_readMembers : ∀ {n : Nat} {done : Members} {t rest : Text} {v : Json},
    Readable (.obj done) → readMembers n done t = .ok (v, rest) → Readable v
  | 0, _, _, _, _, _, h => by cases h
  | _ + 1, _, [], _, _, _, h => by cases h
  | n + 1, done, q :: t, rest, v, hdone, h => by
    unfold readMembers at h
    split at h
    · split at h
      · cases h
      · next name behindName hname =>
        split at h
        · cases h
        · split at h
          · split at h
            · cases h
            · next w behind hw =>
              have hall := hdone.insert (pairFree_of_readString hname) (readable_of_readValue hw)
              split at h
              · cases h
              · split at h
                · cases h
                  exact hall
                · split at h
                  · exact readable_of_readMembers hall h
                  · cases h
          · cases h
    · cases h

end

/-- **What was read can be read again.** -/
theorem readable_of_read {t : Text} {v : Json} (h : read t = .ok v) : Readable v := by
  unfold read at h
  simp only at h
  split at h
  · cases h
  · split at h
    · cases h
    · cases h
    · next w behind hw =>
      split at h
      · cases h
        exact readable_of_readValue hw
      · cases h

end PackageAudit.Json
