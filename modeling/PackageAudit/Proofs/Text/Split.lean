import PackageAudit.Text.Basic

/-! # Splitting at a separator

The pieces of a text are what is between its separators: each separator cuts them in two
(`split_append_sep`, `split_eq_append_iff`), and pieces without the separator are what their join is
split into (`split_join`). The last piece is what follows the last separator (`split_eq_concat_iff`,
`suffix_iff_of_split`), and every other piece has a separator behind it (`mem_front_iff`).
-/

namespace PackageAudit.Text

section
variable {sep : CodePoint} {t a b u piece : Text} {xs ys pieces others front : List Text}

theorem split_of_notMem : ∀ {t : Text}, sep ∉ t → t.split sep = [t]
  | [], _ => rfl
  | c :: rest, h => by
    rw [List.mem_cons, not_or] at h
    simp [split, Ne.symm h.1, split_of_notMem h.2]

/-- Each separator cuts the pieces in two. -/
theorem split_append_sep (a b : Text) : (a ++ sep :: b).split sep = a.split sep ++ b.split sep := by
  induction a with
  | nil => simp [split]
  | cons c a ih =>
    rw [List.cons_append, split, split, ih]
    split
    · rfl
    · cases ha : split sep a with
      | nil => exact absurd ha (split_ne_nil sep a)
      | cons piece pieces => rfl

theorem split_append_cons (rest : Text) (h : sep ∉ a) :
    (a ++ sep :: rest).split sep = a :: rest.split sep := by
  rw [split_append_sep, split_of_notMem h, List.singleton_append]

theorem split_join : ∀ {pieces : List Text}, pieces ≠ [] → (∀ a ∈ pieces, sep ∉ a) →
      (join [sep] pieces).split sep = pieces
  | [], h, _ => absurd rfl h
  | [a], _, h => by
    rw [join_singleton]
    exact split_of_notMem (h a (List.mem_singleton_self a))
  | a :: b :: pieces, _, h => by
    rw [join_cons_cons, List.append_assoc, List.singleton_append,
      split_append_cons _ (h a List.mem_cons_self),
      split_join (List.cons_ne_nil b pieces) fun x hx => h x (List.mem_cons_of_mem a hx)]

theorem join_inj (hne : pieces ≠ []) (hne' : others ≠ []) (h : ∀ a ∈ pieces, sep ∉ a)
    (h' : ∀ a ∈ others, sep ∉ a) (he : join [sep] pieces = join [sep] others) :
    pieces = others := by
  rw [← split_join hne h, he, split_join hne' h']

theorem join_append (sep : Text) : ∀ {xs ys : List Text}, xs ≠ [] → ys ≠ [] →
    join sep (xs ++ ys) = join sep xs ++ (sep ++ join sep ys)
  | [], _, h, _ => absurd rfl h
  | [a], y :: ys, _, _ => by simp
  | a :: b :: xs, ys, _, h => by
    have ih := join_append sep (List.cons_ne_nil b xs) h
    rw [List.cons_append, List.cons_append, join_cons_cons, ← List.cons_append, ih, join_cons_cons]
    simp only [List.append_assoc]

theorem join_concat (sep last : Text) (h : pieces ≠ []) :
    join sep (pieces ++ [last]) = join sep pieces ++ (sep ++ last) := by
  rw [join_append sep h (List.cons_ne_nil last []), join_singleton]

/-- **Where the pieces are cut in two there is a separator.** -/
theorem split_eq_append_iff (hx : xs ≠ []) (hy : ys ≠ []) : t.split sep = xs ++ ys ↔
    ∃ a b : Text, t = a ++ sep :: b ∧ a.split sep = xs ∧ b.split sep = ys := by
  constructor
  · intro h
    have hpieces : ∀ piece ∈ xs ++ ys, sep ∉ piece := fun piece hp => notMem_of_mem_split (h ▸ hp)
    obtain ⟨hxs, hys⟩ := List.forall_mem_append.mp hpieces
    refine ⟨join [sep] xs, join [sep] ys, ?_, split_join hx hxs, split_join hy hys⟩
    rw [← join_split sep t, h, join_append [sep] hx hy, List.singleton_append]
  · rintro ⟨a, b, rfl, rfl, rfl⟩
    exact split_append_sep a b

theorem split_eq_singleton_iff : t.split sep = [piece] ↔ sep ∉ piece ∧ t = piece := by
  constructor
  · intro h
    have hpiece : piece ∈ t.split sep := h ▸ List.mem_singleton_self piece
    exact ⟨notMem_of_mem_split hpiece, by rw [← join_split sep t, h, join_singleton]⟩
  · rintro ⟨hpiece, rfl⟩
    exact split_of_notMem hpiece

/-- An ending does not reach into what does not have its first code point. -/
theorem suffix_of_notMem {c : CodePoint} (hc : c ∉ a) (h : c :: u <:+ a ++ b) : c :: u <:+ b := by
  rcases List.suffix_or_suffix_of_suffix h (List.suffix_append a b) with hb | ⟨_ | ⟨d, v⟩, hv⟩
  · exact hb
  · exact hv ▸ List.suffix_rfl
  · obtain ⟨rfl, rfl⟩ := List.cons.inj hv
    obtain ⟨w, hw⟩ := h
    have ha : w ++ d :: v ++ b = a ++ b := (List.append_assoc w (d :: v) b).trans hw
    rw [← List.append_cancel_right ha] at hc
    exact absurd (by simp) hc

/-! ## Pieces -/

theorem mem_of_mem_split {c : CodePoint} (h : piece ∈ t.split sep) (hc : c ∈ piece) : c ∈ t := by
  have hjoin : ∀ {pieces : List Text}, piece ∈ pieces → c ∈ join [sep] pieces := by
    intro pieces hp
    obtain ⟨xs, ys, rfl⟩ := List.append_of_mem hp
    have hys : c ∈ join [sep] (piece :: ys) := by
      cases ys <;> simp [hc]
    cases xs with
    | nil => exact hys
    | cons x xs =>
      rw [join_append [sep] (List.cons_ne_nil x xs) (List.cons_ne_nil piece ys)]
      exact List.mem_append_right _ (List.mem_append_right _ hys)
  exact join_split sep t ▸ hjoin h

/-- A piece begins here: at the beginning of the text or behind a separator. -/
def BeginsPiece (sep : CodePoint) (front : Text) : Prop := front = [] ∨ ∃ a, front = a ++ [sep]

theorem BeginsPiece.behind (h : BeginsPiece sep a) (above : Text) :
    BeginsPiece sep (above ++ sep :: a) := by
  rcases h with rfl | ⟨a, rfl⟩
  · exact .inr ⟨above, rfl⟩
  · exact .inr ⟨above ++ sep :: a, by simp⟩

/-- What stands behind a separator is the last piece if it has none itself. -/
theorem split_eq_concat_iff : (∃ front, t.split sep = front ++ [piece]) ↔
    sep ∉ piece ∧ ∃ front, BeginsPiece sep front ∧ t = front ++ piece := by
  constructor
  · rintro ⟨front, h⟩
    by_cases hfront : front = []
    · subst hfront
      obtain ⟨hpiece, rfl⟩ := split_eq_singleton_iff.mp h
      exact ⟨hpiece, [], .inl rfl, rfl⟩
    · obtain ⟨a, b, rfl, -, hb⟩ := (split_eq_append_iff hfront (List.cons_ne_nil _ _)).mp h
      obtain ⟨hpiece, rfl⟩ := split_eq_singleton_iff.mp hb
      exact ⟨hpiece, a ++ [sep], .inr ⟨a, rfl⟩, by simp⟩
  · rintro ⟨hpiece, front, rfl | ⟨a, rfl⟩, rfl⟩
    · exact ⟨[], split_of_notMem hpiece⟩
    · refine ⟨a.split sep, ?_⟩
      rw [List.append_assoc, List.singleton_append, split_append_sep, split_of_notMem hpiece]

theorem eq_of_begins (h : t.split sep = front ++ [piece]) (hu : sep ∉ u) :
    (∃ a, BeginsPiece sep a ∧ t = a ++ u) ↔ u = piece := by
  constructor
  · intro ha
    obtain ⟨front', h'⟩ := split_eq_concat_iff.mpr ⟨hu, ha⟩
    exact (List.append_inj' (h'.symm.trans h) rfl).2 |> List.singleton_inj.mp
  · rintro rfl
    exact (split_eq_concat_iff.mp ⟨front, h⟩).2

/-- An ending without the separator is an ending of the last piece. -/
theorem suffix_iff_of_split (h : t.split sep = front ++ [piece]) (hu : sep ∉ u) :
    u <:+ t ↔ u <:+ piece := by
  obtain ⟨-, a, ha, rfl⟩ := split_eq_concat_iff.mp ⟨front, h⟩
  constructor
  · intro hsuffix
    rcases List.suffix_or_suffix_of_suffix hsuffix (List.suffix_append a piece) with hle | ⟨v, rfl⟩
    · exact hle
    · -- nothing but the separator can stand right in front of the piece
      obtain ⟨w, hw⟩ := hsuffix
      rw [← List.append_assoc, List.append_left_inj] at hw
      rcases ha with rfl | ⟨a, rfl⟩
      · rw [(List.append_eq_nil_iff.mp hw).2]
        exact List.suffix_rfl
      · rcases List.eq_nil_or_concat v with rfl | ⟨v, c, rfl⟩
        · exact List.suffix_rfl
        · rw [List.concat_eq_append, ← List.append_assoc] at hw
          obtain ⟨-, hc⟩ := List.append_inj' hw rfl
          exact absurd (by simp [List.singleton_inj.mp hc]) hu
  · exact fun hsuffix => hsuffix.trans (List.suffix_append a piece)

/-- A piece that is not the last one has a separator behind it. -/
theorem mem_front_iff (h : t.split sep = front ++ [piece]) (hu : sep ∉ u) :
    u ∈ front ↔ ∃ a b, BeginsPiece sep a ∧ t = a ++ u ++ sep :: b := by
  constructor
  · intro hmem
    obtain ⟨xs, ys, rfl⟩ := List.append_of_mem hmem
    have hcut : t.split sep = (xs ++ [u]) ++ (ys ++ [piece]) := by simp [h]
    obtain ⟨a, b, rfl, ha, -⟩ := (split_eq_append_iff (by simp) (by simp)).mp hcut
    obtain ⟨-, a, hbegins, rfl⟩ := split_eq_concat_iff.mp ⟨xs, ha⟩
    exact ⟨a, b, hbegins, rfl⟩
  · rintro ⟨a, b, hbegins, rfl⟩
    obtain ⟨xs, hxs⟩ := split_eq_concat_iff.mpr ⟨hu, a, hbegins, rfl⟩
    obtain ⟨ys, last, hys⟩ :=
      (List.eq_nil_or_concat (split sep b)).resolve_left (split_ne_nil sep b)
    rw [split_append_sep, hxs, hys, List.concat_eq_append, ← List.append_assoc] at h
    rw [← (List.append_inj' h rfl).1]
    simp

end

end PackageAudit.Text
