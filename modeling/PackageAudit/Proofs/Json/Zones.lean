import PackageAudit.Proofs.Json.Strings

/-! # Inside and outside of strings

Going through a JSON text from its beginning, every quote outside a string opens one and every quote
inside that no backslash escapes closes it (`Zone.step`). Outside strings only few code points can
stand, which is all that `scan` asks for. Whatever is read as a value is made of such code points
and of strings that are closed (`spelled_of_read`).
-/

namespace PackageAudit.Json

/-- Where a place in a JSON text is. -/
inductive Zone where
  | outside
  | inside
  /-- Inside a string, right behind a backslash that escapes. -/
  | escaped
deriving DecidableEq

/-- Can the code point stand outside strings? -/
def isBare (c : CodePoint) : Bool :=
  isSpace c || c.isDigit || (Text.ofString "{}[],:+-.eEnulltruefalseNaNInfinity").contains c

/-- Where one is behind a code point, unless it cannot stand there. -/
def Zone.step : Zone → CodePoint → Option Zone
  | outside, c => if c.val = 34 then some inside else if isBare c then some outside else none
  | inside, c => some (if c.val = 34 then outside else if c.val = 92 then escaped else inside)
  | escaped, _ => some inside

/-- Where one is behind a text. -/
def scan (z : Zone) (t : Text) : Option Zone := t.foldlM Zone.step z

/-- The way through a text from one place to another, where the rest of the text begins. -/
def Spans (z z' : Zone) (t rest : Text) : Prop := ∃ front, t = front ++ rest ∧ scan z front = some z'

/-- Only what can stand there stands outside strings, and all strings are closed. -/
def Spelled (t : Text) : Prop := scan .outside t = some .outside

section
variable {z z' z'' : Zone} {c : CodePoint} {t u rest : Text}

theorem scan_append : scan z (t ++ u) = (scan z t).bind (scan · u) := List.foldlM_append

theorem scan_cons : scan z (c :: t) = (z.step c).bind (scan · t) := rfl

theorem Spans.refl (z : Zone) (t : Text) : Spans z z t t := ⟨[], rfl, rfl⟩

theorem Spans.trans (h : Spans z z' t u) (h' : Spans z' z'' u rest) : Spans z z'' t rest := by
  obtain ⟨front, rfl, hfront⟩ := h
  obtain ⟨more, rfl, hmore⟩ := h'
  refine ⟨front ++ more, by simp, ?_⟩
  rw [scan_append, hfront]
  exact hmore

theorem Spans.cons (hc : z.step c = some z') (h : Spans z' z'' t rest) :
    Spans z z'' (c :: t) rest := by
  obtain ⟨front, rfl, hfront⟩ := h
  refine ⟨c :: front, rfl, ?_⟩
  rw [scan_cons, hc]
  exact hfront

/-! ## What is read outside strings -/

theorem step_bare (h : isBare c = true) : Zone.outside.step c = some .outside := by
  have hc : c.val ≠ 34 := by
    intro hc
    have heq : c = CodePoint.ofChar '"' := Fin.ext hc
    rw [heq] at h
    revert h
    decide
  rw [Zone.step, if_neg hc, if_pos h]

theorem step_quote (h : c.val = 34) : Zone.outside.step c = some .inside := if_pos h

theorem Spans.bare (h : ∀ c ∈ t, isBare c = true) (rest : Text) :
    Spans .outside .outside (t ++ rest) rest := by
  induction t with
  | nil => exact .refl _ _
  | cons c t ih =>
    obtain ⟨hc, ht⟩ := List.forall_mem_cons.mp h
    exact .cons (step_bare hc) (ih ht)

theorem Spans.dropWhile {q : CodePoint → Bool} (h : ∀ c, q c = true → isBare c = true) (t : Text) :
    Spans .outside .outside t (t.dropWhile q) := by
  have hsplit := List.takeWhile_append_dropWhile (p := q) (l := t)
  have hbare := Spans.bare (t := t.takeWhile q)
    (fun c hc => h c (List.all_eq_true.mp List.all_takeWhile c hc)) (t.dropWhile q)
  rwa [hsplit] at hbare

theorem spans_skipSpace (t : Text) : Spans .outside .outside t (skipSpace t) :=
  .dropWhile (fun c hc => by simp [isBare, hc]) t

theorem isBare_of_digit (h : c.isDigit = true) : isBare c = true := by simp [isBare, h]

theorem spans_spanDigits (t : Text) : Spans .outside .outside t (spanDigits t).2 :=
  .dropWhile (fun _ => isBare_of_digit) t

/-! ## Strings -/

theorem step_inside (hq : c.val ≠ 34) (hb : c.val ≠ 92) : Zone.inside.step c = some .inside := by
  rw [Zone.step, if_neg hq, if_neg hb]

theorem step_hexDigit {n : Nat} (h : c.hexDigit? = some n) : Zone.inside.step c = some .inside := by
  refine step_inside (fun hc => ?_) fun hc => ?_
  all_goals simp [CodePoint.hexDigit?, hc] at h

theorem spans_hexUnit {a b c d unit : CodePoint} (h : hexUnit? a b c d = some unit) (rest : Text) :
    Spans .inside .inside (a :: b :: c :: d :: rest) rest := by
  simp only [hexUnit?, bind, Option.bind_eq_some_iff] at h
  obtain ⟨x, hx, y, hy, z, hz, w, hw, -⟩ := h
  exact .cons (step_hexDigit hx) (.cons (step_hexDigit hy) (.cons (step_hexDigit hz)
    (.cons (step_hexDigit hw) (.refl _ _))))

theorem Spans.escape {b e : CodePoint} (hq : b.val ≠ 34) (hb : b.val = 92)
    (h : Spans .inside z t rest) : Spans .inside z (b :: e :: t) rest := by
  have hstep : Zone.inside.step b = some .escaped := by rw [Zone.step, if_neg hq, if_pos hb]
  exact .cons hstep (.cons rfl h)

/-- What is read as a string behind its opening quote ends with the quote that closes it. -/
theorem spans_readString {opened done x : Text} (h : readString opened done t = .ok (x, rest)) :
    Spans .inside .outside t rest := by
  fun_induction readString opened done t with
  | case2 done c behind hq =>
    cases h
    exact .cons (by rw [Zone.step, if_pos hq]) (.refl _ _)
  | case4 done c hq hb h1 h2 h3 h4 behind unit hunit _ ih =>
    exact .escape hq hb ((spans_hexUnit hunit behind).trans (ih h))
  | case7 done c hq hb e tail _ x _ ih => exact .escape hq hb (ih h)
  | case10 done c tail hq hb _ ih => exact .cons (step_inside hq hb) (ih h)
  | _ => cases h

/-! ## Numbers and words -/

theorem isBare_of_val (d : CodePoint) (h : c.val = d.val) (hd : isBare d = true) :
    isBare c = true := by
  rwa [Fin.ext h]

theorem spans_fraction (t : Text) : Spans .outside .outside t (fraction t).2 := by
  unfold fraction
  split
  · next c t =>
    simp only
    split
    · next h => exact .cons (step_bare (isBare_of_val '.' h.1 (by decide))) (spans_spanDigits t)
    · exact .refl _ _
  · exact .refl _ _

theorem spans_exponent {e : Int} (h : exponent? t = some (e, rest)) :
    Spans .outside .outside t rest := by
  unfold exponent? at h
  split at h
  · next c t =>
    split at h
    · next hc =>
      have hbare : isBare c = true := by rcases hc with rfl | rfl <;> decide
      have hdigits {behind : Text} (hto : Spans .outside .outside t behind) :
          Spans .outside .outside (c :: t) (spanDigits behind).2 :=
        .cons (step_bare hbare) (hto.trans (spans_spanDigits behind))
      simp only at h
      split at h
      · next s behind =>
        split at h
        · next hs =>
          split at h
          · cases h
          · cases h
            exact hdigits (.cons (step_bare (isBare_of_val '-' hs (by decide))) (.refl _ _))
        · split at h
          · next hs =>
            split at h
            · cases h
            · cases h
              exact hdigits (.cons (step_bare (isBare_of_val '+' hs (by decide))) (.refl _ _))
          · split at h
            · cases h
            · cases h
              exact hdigits (.refl _ _)
      · cases h
    · cases h
  · cases h

theorem spans_wholePart {whole : Text} (h : wholePart? t = some (whole, rest)) :
    Spans .outside .outside t rest := by
  unfold wholePart? at h
  split at h
  · next c t =>
    split at h
    · next hc =>
      cases h
      exact .cons (step_bare (isBare_of_val '0' hc (by decide))) (.refl _ _)
    · split at h
      · cases h
        exact spans_spanDigits (c :: t)
      · cases h
  · cases h

theorem spans_readNumber {v : Json} (h : readNumber t = .ok (v, rest)) :
    Spans .outside .outside t rest := by
  unfold readNumber at h
  simp only at h
  split at h
  · cases h
  · next whole behind hwhole =>
    have hto : Spans .outside .outside t (fraction behind).2 := by
      refine .trans ?_ ((spans_wholePart hwhole).trans (spans_fraction behind))
      split
      · next c t =>
        split
        · next hc => exact .cons (step_bare (isBare_of_val '-' hc (by decide))) (.refl _ _)
        · exact .refl _ _
      · exact .refl _ _
    split at h
    · split at h
      · cases h
      · cases h
        exact hto
    · cases h
      exact hto
    · next hexp =>
      cases h
      exact hto.trans (spans_exponent hexp)

theorem spans_readWord {v : Json} (h : readWord? t = some (v, rest)) :
    Spans .outside .outside t rest := by
  have hbare : ∀ x ∈ words, ∀ c ∈ x.1, isBare c = true := by
    have hall : words.all (fun x => x.1.all isBare) = true := by decide
    intro x hx
    exact List.all_eq_true.mp (List.all_eq_true.mp hall x hx)
  obtain ⟨⟨word, w⟩, hw, heq⟩ := Option.map_eq_some_iff.mp h
  obtain ⟨-, rfl⟩ := Prod.mk.inj heq
  have hprefix : word <+: t := by simpa using List.find?_some hw
  obtain ⟨behind, rfl⟩ := hprefix
  rw [List.drop_left]
  exact .bare (hbare _ (List.mem_of_find?_eq_some hw)) behind

/-! ## Values -/

theorem spans_mark {c d : CodePoint} {t rest : Text} (hc : c.val = d.val) (hd : isBare d = true)
    (h : Spans .outside z t rest) : Spans .outside z (c :: t) rest :=
  .cons (step_bare (isBare_of_val d hc hd)) h

end

mutual

theorem spans_readValue : ∀ {n : Nat} {t rest : Text} {v : Json},
    readValue n t = .ok (v, rest) → Spans .outside .outside t rest
  | 0, _, _, _, h => by cases h
  | _ + 1, [], _, _, h => by cases h
  | n + 1, c :: t, rest, v, h => by
    unfold readValue at h
    split at h
    · next hc =>
      split at h
      · cases h
      · next hs =>
        cases h
        exact .cons (step_quote hc) (spans_readString hs)
    split at h
    · next hc =>
      refine spans_mark (d := '{') hc (by decide) ((spans_skipSpace t).trans ?_)
      split at h
      · next d behind hd =>
        rw [hd]
        split at h
        · next hclose =>
          cases h
          exact spans_mark (d := '}') hclose (by decide) (.refl _ _)
        · exact spans_readMembers h
      · next hd =>
        rw [hd]
        exact spans_readMembers h
    split at h
    · next hc =>
      refine spans_mark (d := '[') hc (by decide) ((spans_skipSpace t).trans ?_)
      split at h
      · next d behind hd =>
        rw [hd]
        split at h
        · next hclose =>
          cases h
          exact spans_mark (d := ']') hclose (by decide) (.refl _ _)
        · exact spans_readItems h
      · next hd =>
        rw [hd]
        exact spans_readItems h
    split at h
    · next hword =>
      cases h
      exact spans_readWord hword
    · exact spans_readNumber h

theorem spans_readItems : ∀ {n : Nat} {done : List Json} {t rest : Text} {v : Json},
    readItems n done t = .ok (v, rest) → Spans .outside .outside t rest
  | 0, _, _, _, _, h => by cases h
  | n + 1, done, t, rest, v, h => by
    unfold readItems at h
    split at h
    · cases h
    · next w behind hw =>
      refine (spans_readValue hw).trans ((spans_skipSpace behind).trans ?_)
      split at h
      · cases h
      · next c left hleft =>
        rw [hleft]
        split at h
        · next hc =>
          cases h
          exact spans_mark (d := ']') hc (by decide) (.refl _ _)
        · split at h
          · next hc =>
            exact spans_mark (d := ',') hc (by decide)
              ((spans_skipSpace left).trans (spans_readItems h))
          · cases h

theorem spans_readMembers : ∀ {n : Nat} {done : Members} {t rest : Text} {v : Json},
    readMembers n done t = .ok (v, rest) → Spans .outside .outside t rest
  | 0, _, _, _, _, h => by cases h
  | _ + 1, _, [], _, _, h => by cases h
  | n + 1, done, q :: t, rest, v, h => by
    unfold readMembers at h
    split at h
    · next hq =>
      split at h
      · cases h
      · next name behindName hname =>
        refine .cons (step_quote hq) ((spans_readString hname).trans
          ((spans_skipSpace behindName).trans ?_))
        split at h
        · cases h
        · next c left hleft =>
          rw [hleft]
          split at h
          · next hc =>
            refine spans_mark (d := ':') hc (by decide) ((spans_skipSpace left).trans ?_)
            split at h
            · cases h
            · next w behind hw =>
              refine (spans_readValue hw).trans ((spans_skipSpace behind).trans ?_)
              split at h
              · cases h
              · next d more hmore =>
                rw [hmore]
                split at h
                · next hd =>
                  cases h
                  exact spans_mark (d := '}') hd (by decide) (.refl _ _)
                · split at h
                  · next hd =>
                    exact spans_mark (d := ',') hd (by decide)
                      ((spans_skipSpace more).trans (spans_readMembers h))
                  · cases h
          · cases h
    · cases h

end

/-- **A text that can be read is spelled as JSON**: it closes its strings, and outside them is only
what JSON has there. -/
theorem spelled_of_read {t : Text} {v : Json} (h : read t = .ok v) : Spelled t := by
  unfold read at h
  simp only at h
  split at h
  · cases h
  · split at h
    · cases h
    · cases h
    · next w behind hw =>
      split at h
      · next hleft =>
        have hall := (spans_skipSpace t).trans ((spans_readValue hw).trans (spans_skipSpace behind))
        rw [List.isEmpty_iff.mp hleft] at hall
        obtain ⟨front, rfl, hfront⟩ := hall
        rwa [List.append_nil]
      · cases h

/-! ## Parts that no quote closes -/

/-- A part of a text lies in one string: the string has been opened in front of it and is not closed
before the part ends. -/
def WithinString (before part : Text) : Prop :=
  ∀ front, front <+: part → ∃ z, z ≠ Zone.outside ∧ scan .outside (before ++ front) = some z

section
variable {c : CodePoint} {t before part after : Text}

theorem scan_inside (h : ∀ c ∈ t, c.val ≠ 34 ∧ c.val ≠ 92) : scan .inside t = some .inside := by
  induction t with
  | nil => rfl
  | cons c t ih =>
    obtain ⟨⟨hq, hb⟩, ht⟩ := List.forall_mem_cons.mp h
    rw [scan_cons, step_inside hq hb]
    exact ih ht

theorem scan_outside_eq_none (h : ∀ c ∈ t, c.val ≠ 34) (hc : c ∈ t) (hbare : isBare c = false) :
    scan .outside t = none := by
  induction t with
  | nil => cases hc
  | cons d t ih =>
    obtain ⟨hd, ht⟩ := List.forall_mem_cons.mp h
    rw [scan_cons, Zone.step, if_neg hd]
    rcases List.mem_cons.mp hc with rfl | hc
    · rw [hbare]
      rfl
    · split
      · exact ih ht hc
      · rfl

/-- **What cannot stand outside strings stands in one**, if it holds no quote and no backslash. -/
theorem within_of_spelled (ht : Spelled (before ++ (part ++ after)))
    (hpart : ∀ c ∈ part, c.val ≠ 34 ∧ c.val ≠ 92) (hc : c ∈ part) (hbare : isBare c = false) :
    WithinString before part := by
  unfold Spelled at ht
  rw [scan_append, Option.bind_eq_some_iff] at ht
  obtain ⟨z, hz, hrest⟩ := ht
  rw [scan_append, Option.bind_eq_some_iff] at hrest
  obtain ⟨_, hscan, -⟩ := hrest
  intro front hfront
  have hinner : ∀ c ∈ front, c.val ≠ 34 ∧ c.val ≠ 92 := fun c hc => hpart c (hfront.subset hc)
  rw [scan_append, hz, Option.bind_some]
  cases z with
  | outside =>
    rw [scan_outside_eq_none (fun c hc => (hpart c hc).1) hc hbare] at hscan
    cases hscan
  | inside => exact ⟨.inside, nofun, scan_inside hinner⟩
  | escaped =>
    cases front with
    | nil => exact ⟨.escaped, nofun, rfl⟩
    | cons d front => exact ⟨.inside, nofun, scan_inside (List.forall_mem_cons.mp hinner).2⟩

end

end PackageAudit.Json
