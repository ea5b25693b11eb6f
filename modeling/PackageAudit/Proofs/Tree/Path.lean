import PackageAudit.Proofs.Text.Order
import PackageAudit.Proofs.Text.Split
import PackageAudit.Tree.Path

/-! # Written paths and their text

A path that was read (`Path.Proper`) and starts at the root is read back from its text: its names
(`namesIn_toText`), the path itself (`ofText_toText`) and the names that a walk along the text goes
through (`steps_toText`). Everything rests on `Text.split_join`: pieces without the separator are
what is between the separators of their join.
-/

namespace PackageAudit

namespace Path

/-! ## Names -/

/-- A name on a path that was read: not empty, no single dot and without a slash. -/
def IsPart (name : Text) : Prop := name ≠ [] ∧ name ≠ "." ∧ slash ∉ name

/-- A path as reading gives it. -/
def Proper (p : Path) : Prop := ∀ name ∈ p.parts, IsPart name

instance (name : Text) : Decidable (IsPart name) := inferInstanceAs (Decidable (_ ∧ _ ∧ _))

instance (p : Path) : Decidable p.Proper :=
  inferInstanceAs (Decidable (∀ name ∈ p.parts, IsPart name))

theorem isPart_of_mem_namesIn {t name : Text} (h : name ∈ namesIn t) : IsPart name := by
  obtain ⟨hm, hk⟩ := List.mem_filter.mp h
  simp only [Bool.and_eq_true, Bool.not_eq_true', List.isEmpty_eq_false_iff, bne_iff_ne] at hk
  exact ⟨hk.1, hk.2, Text.notMem_of_mem_split hm⟩

theorem proper_ofText (t : Text) : (ofText t).Proper := fun _ => isPart_of_mem_namesIn

@[simp] theorem append_nil (p : Path) : p.append [] = p := by
  simp [append]

theorem append_append (p : Path) (a b : List Text) : (p.append a).append b = p.append (a ++ b) := by
  simp [append]

theorem append_inj {p : Path} {a b : List Text} (h : p.append a = p.append b) : a = b :=
  List.append_cancel_left (congrArg parts h)

/-- A path that goes on through names ends in one of them. -/
theorem name_append_mem (p : Path) {names : List Text} (h : names ≠ []) :
    (p.append names).name ∈ names := by
  obtain ⟨init, last, rfl⟩ := (List.eq_nil_or_concat names).resolve_left h
  simp [name, append]

theorem Proper.append {p : Path} {names : List Text} (h : p.Proper)
    (hn : ∀ name ∈ names, IsPart name) : (p.append names).Proper := by
  intro name hm
  rcases List.mem_append.mp hm with hm | hm
  · exact h name hm
  · exact hn name hm

theorem Proper.join {p q : Path} (hp : p.Proper) (hq : q.Proper) : (p.join q).Proper := by
  unfold Path.join
  split
  · exact hq
  · exact hp.append hq

theorem Proper.parent {p : Path} (h : p.Proper) : p.parent.Proper :=
  fun name hm => h name (List.dropLast_subset p.parts hm)

@[simp] theorem isAbsolute_append (p : Path) (names : List Text) :
    (p.append names).isAbsolute = p.isAbsolute := rfl

@[simp] theorem isAbsolute_parent (p : Path) : p.parent.isAbsolute = p.isAbsolute := rfl

theorem isAbsolute_join {p : Path} (q : Path) (h : p.isAbsolute = true) :
    (p.join q).isAbsolute = true := by
  unfold Path.join
  split
  · assumption
  · exact h

theorem parts_join_of_relative {q : Path} (p : Path) (h : q.isAbsolute = false) :
    p.join q = p.append q.parts := by
  simp [Path.join, h]

/-! ## From the path to its text and back -/

theorem isPart_split_eq {parts : List Text} (h : ∀ name ∈ parts, IsPart name) :
    (parts.filter fun name => !name.isEmpty && name != CodePoint.ofChar '.' :: []) = parts := by
  refine List.filter_eq_self.mpr fun name hm => ?_
  obtain ⟨hne, hdot, -⟩ := h name hm
  simpa using ⟨hne, hdot⟩

/-- The text of an absolute path without the slashes that it begins with. -/
theorem toText_of_absolute {p : Path} (h : p.isAbsolute = true) :
    p.toText = anchorText p.anchor ++ Text.join [slash] p.parts := by
  have ha : p.anchor ≠ .here := by simpa [isAbsolute] using h
  rw [toText, if_neg fun hc => ha hc.1]
  rfl

theorem namesIn_join {parts : List Text} (h : ∀ name ∈ parts, IsPart name) :
    namesIn (Text.join [slash] parts) = parts := by
  cases parts with
  | nil => rfl
  | cons name rest =>
    rw [namesIn, Text.split_join (List.cons_ne_nil name rest) fun a ha => (h a ha).2.2]
    exact isPart_split_eq h

theorem namesIn_slash_cons (t : Text) : namesIn (slash :: t) = namesIn t := by
  simp [namesIn, Text.split]

/-- An absolute path that was read has the names that its text has. -/
theorem namesIn_toText {p : Path} (h : p.Proper) (ha : p.isAbsolute = true) :
    namesIn p.toText = p.parts := by
  have hj := namesIn_join h
  rw [toText_of_absolute ha]
  cases hp : p.anchor with
  | here => simp [isAbsolute, hp] at ha
  | root => exact (namesIn_slash_cons _).trans hj
  | doubleRoot =>
    change namesIn (slash :: slash :: Text.join [slash] p.parts) = _
    rw [namesIn_slash_cons, namesIn_slash_cons, hj]

/-- What is joined begins with no slash. -/
theorem takeWhile_slash_join {parts : List Text} (h : ∀ name ∈ parts, IsPart name) :
    (Text.join [slash] parts).takeWhile (· == slash) = [] := by
  cases parts with
  | nil => rfl
  | cons name rest =>
    obtain ⟨hne, -, hs⟩ := h name List.mem_cons_self
    cases name with
    | nil => exact absurd rfl hne
    | cons c name =>
      have hc : (c == slash) = false := by
        simpa using fun he : c = slash => hs (he ▸ List.mem_cons_self)
      cases rest <;> simp [hc]

/-- Names that were joined are read back as a path that goes on from anywhere. -/
theorem ofText_join {parts : List Text} (h : ∀ name ∈ parts, IsPart name) :
    ofText (Text.join [slash] parts) = ⟨.here, parts⟩ := by
  rw [ofText, takeWhile_slash_join h, namesIn_join h]
  rfl

theorem join_ofText_join {parts : List Text} (p : Path) (h : ∀ name ∈ parts, IsPart name) :
    p.join (ofText (Text.join [slash] parts)) = p.append parts := by
  rw [ofText_join h]
  rfl

/-- An absolute path that was read is read back from its text. -/
theorem ofText_toText {p : Path} (h : p.Proper) (ha : p.isAbsolute = true) :
    ofText p.toText = p := by
  have hn := namesIn_toText h ha
  have ht := takeWhile_slash_join h
  rw [ofText, hn]
  obtain ⟨anchor, parts⟩ := p
  cases anchor with
  | here => simp [isAbsolute] at ha
  | root =>
    rw [toText_of_absolute ha]
    change Path.mk (anchorOf ((slash :: Text.join [slash] parts).takeWhile (· == slash)).length)
      parts = _
    rw [List.takeWhile_cons_of_pos (by simp), ht]
    rfl
  | doubleRoot =>
    rw [toText_of_absolute ha]
    change Path.mk
      (anchorOf ((slash :: slash :: Text.join [slash] parts).takeWhile (· == slash)).length)
      parts = _
    rw [List.takeWhile_cons_of_pos (by simp), List.takeWhile_cons_of_pos (by simp), ht]
    rfl

theorem exists_join_concat (sep last : Text) :
    ∀ init : List Text, ∃ x, Text.join sep (init ++ [last]) = x ++ last
  | [] => ⟨[], by simp⟩
  | [a] => ⟨a ++ sep, by simp⟩
  | a :: b :: init => by
    obtain ⟨x, hx⟩ := exists_join_concat sep last (b :: init)
    refine ⟨a ++ sep ++ x, ?_⟩
    rw [List.cons_append, List.cons_append, Text.join_cons_cons, ← List.cons_append, hx]
    simp only [List.append_assoc]

/-- The text of an absolute path that was read ends in a slash only if the path is an anchor. -/
theorem getLast?_toText {p : Path} (h : p.Proper) (ha : p.isAbsolute = true) (hp : p.parts ≠ []) :
    p.toText.getLast? ≠ some slash := by
  obtain ⟨init, last, hp⟩ := (List.eq_nil_or_concat p.parts).resolve_left hp
  obtain ⟨hne, -, hslash⟩ := h last (by simp [hp])
  obtain ⟨x, hx⟩ := exists_join_concat [slash] last init
  rw [toText_of_absolute ha, hp, List.concat_eq_append, hx, ← List.append_assoc,
    List.getLast?_append, Option.or_of_isSome (by simpa using hne)]
  exact fun hl => hslash (List.mem_of_getLast? hl)

/-- A name put behind the text of an absolute path that was read goes on from the path. -/
theorem joinTexts_toText {p : Path} (h : p.Proper) (ha : p.isAbsolute = true) {name : Text}
    (hn : IsPart name) : joinTexts p.toText name = (p.append [name]).toText := by
  have hhead : name.head? ≠ some slash := fun hc => hn.2.2 (List.mem_of_mem_head? hc)
  rw [joinTexts, if_neg hhead, toText_of_absolute (p := p.append [name]) ha]
  by_cases hp : p.parts = []
  · rw [toText_of_absolute ha, append, hp]
    cases hanchor : p.anchor with
    | here => simp [isAbsolute, hanchor] at ha
    | root => rw [if_pos (by decide)]; simp
    | doubleRoot => rw [if_pos (by decide)]; simp
  · have hempty : p.toText.isEmpty = false := by
      rw [toText_of_absolute ha]
      cases hanchor : p.anchor with
      | here => simp [isAbsolute, hanchor] at ha
      | root => rfl
      | doubleRoot => rfl
    rw [hempty, Bool.false_or, if_neg (by simpa using getLast?_toText h ha hp),
      toText_of_absolute ha, append, Text.join_concat [slash] name hp]
    simp only [List.append_assoc, List.singleton_append]

theorem split_toText {p : Path} (h : p.Proper) (ha : p.isAbsolute = true) (hp : p.parts ≠ []) :
    ∃ front, p.toText.split slash = front ++ p.parts := by
  have hj := Text.split_join hp fun a ham => (h a ham).2.2
  rw [toText_of_absolute ha]
  cases hanchor : p.anchor with
  | here => simp [isAbsolute, hanchor] at ha
  | root =>
    refine ⟨[[]], ?_⟩
    change Text.split slash (slash :: Text.join [slash] p.parts) = _
    simp [Text.split, hj]
  | doubleRoot =>
    refine ⟨[[], []], ?_⟩
    change Text.split slash (slash :: slash :: Text.join [slash] p.parts) = _
    simp [Text.split, hj]

/-- The text of an absolute path that was read asks for no directory. -/
theorem ending_toText {p : Path} (h : p.Proper) (ha : p.isAbsolute = true) :
    ending p.toText = .name := by
  rcases List.eq_nil_or_concat p.parts with hp | ⟨init, last, hp⟩
  · rw [toText_of_absolute ha, hp]
    cases p.anchor <;> decide
  · obtain ⟨hne, hdot, -⟩ := h last (by simp [hp])
    obtain ⟨front, hf⟩ := split_toText h ha (by simp [hp])
    have hlast : (p.toText.getLast? = some slash) = False :=
      eq_false (getLast?_toText h ha (by simp [hp]))
    have hrev : (p.toText.split slash).reverse.dropWhile List.isEmpty =
        last :: (front ++ init).reverse := by
      rw [hf, hp]
      simp [hne]
    simp only [ending, hrev, if_neg hdot, hlast, false_and, if_false]

/-- A walk along the text of an absolute path that was read goes through its names. -/
theorem steps_toText {p : Path} (h : p.Proper) (ha : p.isAbsolute = true) :
    steps p.toText = p.parts := by
  rw [steps, ending_toText h ha, namesIn_toText h ha, List.append_nil]

end Path

theorem Location.ordered : Ordered Location.before := Text.ordered.lex

end PackageAudit
