import PackageAudit.Proofs.Text.Breaks
import PackageAudit.Proofs.Text.Utf8

/-! # Where a line stands in a text

A line of a text is what stands between two line ends (`IsLine`). The lines of a text that was read
from a file are those of the text with uniform line ends, which are the same ones: the line that as
many line ends are in front of as its number says (`exists_isLine`, `IsLine.getElem?`). These are
line feeds, with a carriage return in front or without one, and all others (`otherEnds`).
-/

namespace PackageAudit.Text

/-- A line ends between the two parts of a text: the first one ends with a line end, of which the
second one holds no part. -/
def EndsBefore (front back : Text) : Prop :=
  ∀ c ∈ front.getLast?, c.endsLine = true ∧ ¬ (c.isCarriageReturn = true ∧ back.head? = some feed)

/-- A whole line: it has no line end, and a line ends right in front of it and right behind it,
unless the text begins or ends there. -/
structure IsLine (front line back : Text) : Prop where
  oneLine : OneLine line
  begins : EndsBefore front (line ++ back)
  ends : ∀ c ∈ back.head?, c.endsLine = true

/-- The number of line ends other than a line feed, alone or behind a carriage return. -/
def otherEnds : Text → Nat
  | [] => 0
  | c :: rest => otherEnds rest + if c.endsLine = true ∧ c ≠ feed ∧
      ¬ (c.isCarriageReturn = true ∧ rest.head? = some feed) then 1 else 0

/-- The number of line ends. -/
def endCount (t : Text) : Nat := t.count feed + t.otherEnds

/-- One line end: a carriage return and a line feed, or one code point, but no carriage return that
has the line feed behind it. -/
def IsEnd (e rest : Text) : Prop :=
  (∃ c : CodePoint, e = [c, feed] ∧ c.isCarriageReturn = true) ∨
    ∃ c : CodePoint, e = [c] ∧ c.endsLine = true ∧
      ¬ (c.isCarriageReturn = true ∧ rest.head? = some feed)

section
variable {t u m e rest front line back : Text} {c : CodePoint}

/-! ## Line by line -/

theorem not_feed_head_iff : (∀ d ∈ t.head?, d.isLineFeed = false) ↔ t.head? ≠ some feed := by
  cases t with
  | nil => exact iff_of_true nofun nofun
  | cons d t =>
    rw [List.head?_cons, Ne, Option.some.injEq, ← isLineFeed_iff, Bool.not_eq_true]
    exact ⟨fun h => h d rfl, fun h _ hd => Option.some.inj hd ▸ h⟩

theorem IsEnd.endsBefore (h : IsEnd e rest) (front : Text) : EndsBefore (front ++ e) rest := by
  intro c hc
  rcases h with ⟨d, rfl, -⟩ | ⟨d, rfl, hends, hnext⟩
  · obtain rfl : feed = c := by simpa using hc
    exact ⟨endsLine_feed, fun hr => by simp [not_carriageReturn_feed] at hr⟩
  · obtain rfl : d = c := by simpa using hc
    exact ⟨hends, hnext⟩

theorem IsEnd.head (h : IsEnd e rest) : ∀ c ∈ (e ++ rest).head?, c.endsLine = true := by
  intro c hc
  rcases h with ⟨d, rfl, hr⟩ | ⟨d, rfl, hends, -⟩
  · exact Option.some.inj hc ▸ endsLine_of_carriageReturn hr
  · exact Option.some.inj hc ▸ hends

theorem endsBefore_append (hne : t ≠ []) : EndsBefore (front ++ t) rest ↔ EndsBefore t rest := by
  rw [EndsBefore, EndsBefore, List.getLast?_append, Option.or_of_isSome (by simp [hne])]

theorem EndsBefore.of_append (h : EndsBefore (front ++ t) rest) : EndsBefore t rest := by
  by_cases hne : t = []
  · subst hne
    exact nofun
  · exact (endsBefore_append hne).mp h

theorem EndsBefore.eq_nil (h : EndsBefore t rest) (hone : OneLine t) : t = [] := by
  cases hlast : t.getLast? with
  | none => exact List.getLast?_eq_none_iff.mp hlast
  | some c =>
    have hc := (h c hlast).1
    rw [hone c (List.mem_of_getLast? hlast)] at hc
    cases hc

theorem IsEnd.of_prefix (h : IsEnd e rest) (hu : u <+: rest) : IsEnd e u := by
  refine h.imp_right fun ⟨c, he, hc, hnext⟩ => ⟨c, he, hc, fun ⟨hr, hhead⟩ => hnext ⟨hr, ?_⟩⟩
  obtain ⟨u, rfl⟩ := List.head?_eq_some_iff.mp hhead
  obtain ⟨v, rfl⟩ := hu
  rfl

theorem IsEnd.append (h : IsEnd e rest) (hlast : EndsBefore (e ++ rest) u) :
    IsEnd e (rest ++ u) := by
  refine h.imp_right fun ⟨c, he, hc, hnext⟩ => ⟨c, he, hc, ?_⟩
  subst he
  cases rest with
  | nil => exact (hlast c rfl).2
  | cons d rest => exact hnext

theorem IsEnd.ne_nil (h : IsEnd e rest) : e ≠ [] := by
  rcases h with ⟨c, rfl, -⟩ | ⟨c, rfl, -⟩ <;> exact List.cons_ne_nil _ _

/-- What ends a line begins a line end. -/
theorem exists_isEnd_cons (hc : c.endsLine = true) (t : Text) :
    ∃ e rest, c :: t = e ++ rest ∧ IsEnd e rest := by
  by_cases hpair : c.isCarriageReturn = true ∧ t.head? = some feed
  · obtain ⟨rest, rfl⟩ := List.head?_eq_some_iff.mp hpair.2
    exact ⟨[c, feed], rest, rfl, .inl ⟨c, rfl, hpair.1⟩⟩
  · exact ⟨[c], t, rfl, .inr ⟨c, rfl, hc, hpair⟩⟩

/-- A text has no line end, or it goes on behind its first one. -/
@[elab_as_elim]
theorem end_induction {motive : Text → Prop} (last : ∀ line, OneLine line → motive line)
    (more : ∀ line e rest, OneLine line → IsEnd e rest → motive rest →
      motive (line ++ e ++ rest)) (t : Text) : motive t := by
  by_cases h : OneLine t
  · exact last t h
  · obtain ⟨line, c, t', heq, hline, hc⟩ := exists_break h
    obtain ⟨e, rest, hcons, he⟩ := exists_isEnd_cons hc t'
    rw [hcons, ← List.append_assoc] at heq
    have hlen : rest.length < t.length := by
      have hpos := List.length_pos_iff.mpr he.ne_nil
      rw [heq, List.length_append, List.length_append]
      omega
    rw [heq]
    exact more line e rest hline he (end_induction last more rest)
termination_by t.length

theorem uniformLineEnds_oneLine (h : OneLine line) (t : Text) :
    (line ++ t).uniformLineEnds = line ++ t.uniformLineEnds := by
  induction line with
  | nil => rfl
  | cons c line ih =>
    obtain ⟨hc, hline⟩ := List.forall_mem_cons.mp h
    rw [List.cons_append, uniformLineEnds_cons (not_carriageReturn_of_not_ends hc), ih hline,
      List.cons_append]

/-- A line end becomes one code point that is no carriage return. -/
theorem uniformLineEnds_isEnd (he : IsEnd e rest) :
    ∃ d : CodePoint, (e ++ rest).uniformLineEnds = d :: rest.uniformLineEnds ∧
      d.endsLine = true ∧ d.isCarriageReturn = false := by
  rcases he with ⟨c, rfl, hr⟩ | ⟨c, rfl, hc, hnext⟩
  · exact ⟨feed, uniformLineEnds_return_feed hr rest, endsLine_feed, not_carriageReturn_feed⟩
  · cases hr : c.isCarriageReturn with
    | false => exact ⟨c, uniformLineEnds_cons hr rest, hc, hr⟩
    | true =>
      have hhead := not_feed_head_iff.mpr fun h => hnext ⟨hr, h⟩
      exact ⟨feed, uniformLineEnds_return hr hhead, endsLine_feed, not_carriageReturn_feed⟩

/-- A line end cuts off the line in front of it. -/
theorem lines_isEnd (hline : OneLine line) (he : IsEnd e rest) :
    (line ++ e ++ rest).uniformLineEnds.lines = line :: rest.uniformLineEnds.lines := by
  obtain ⟨d, huniform, hd, hr⟩ := uniformLineEnds_isEnd he
  rw [List.append_assoc, uniformLineEnds_oneLine hline, huniform, lines_break hline hd hr]

theorem lines_uniform_oneLine (h : OneLine t) (hne : t ≠ []) : t.uniformLineEnds.lines = [t] := by
  have huniform := uniformLineEnds_oneLine h []
  rw [List.append_nil, uniformLineEnds_nil, List.append_nil] at huniform
  rw [huniform, lines_oneLine h hne]

/-! ## Counting line ends -/

theorem endCount_cons (c : CodePoint) (t : Text) : endCount (c :: t) = endCount t +
    if c.endsLine = true ∧ ¬ (c.isCarriageReturn = true ∧ t.head? = some feed) then 1 else 0 := by
  unfold endCount
  rw [otherEnds]
  by_cases hf : c = feed
  · rw [hf, List.count_cons_self]
    simp [endsLine_feed, not_carriageReturn_feed]
    omega
  · rw [List.count_cons_of_ne hf]
    simp only [ne_eq, hf, not_false_eq_true, true_and]
    omega

theorem endCount_oneLine (h : OneLine line) (t : Text) : endCount (line ++ t) = endCount t := by
  induction line with
  | nil => rfl
  | cons c line ih =>
    obtain ⟨hc, hline⟩ := List.forall_mem_cons.mp h
    rw [List.cons_append, endCount_cons, ih hline]
    simp [hc]

theorem endCount_isEnd (hline : OneLine line) (he : IsEnd e rest) :
    endCount (line ++ e ++ rest) = endCount rest + 1 := by
  rw [List.append_assoc, endCount_oneLine hline]
  rcases he with ⟨c, rfl, hr⟩ | ⟨c, rfl, hends⟩
  · rw [List.cons_append, List.cons_append, endCount_cons, endCount_cons]
    simp [hr, endsLine_feed, not_carriageReturn_feed]
  · rw [List.singleton_append, endCount_cons, if_pos hends]

theorem endCount_append (h : EndsBefore t u) : endCount (t ++ u) = endCount t + endCount u := by
  induction t with
  | nil => simp [endCount, otherEnds]
  | cons c t ih =>
    rw [List.cons_append, endCount_cons, endCount_cons]
    cases t with
    | nil =>
      have hc := h c rfl
      rw [List.nil_append, if_pos hc, if_pos ⟨hc.1, nofun⟩]
      simp [endCount, otherEnds]
      omega
    | cons d t =>
      rw [ih h, Nat.add_right_comm]
      rfl

theorem endCount_pos (h : EndsBefore t u) (hne : t ≠ []) : 0 < endCount t := by
  induction t using end_induction with
  | last line hone => exact absurd (h.eq_nil hone) hne
  | more line e rest hone he =>
    rw [endCount_isEnd hone he]
    exact Nat.succ_pos _

/-! ## Lines by their numbers -/

/-- **Each line stands somewhere in the text**, behind as many line ends as its number says. -/
theorem exists_isLine {i : Nat} (h : t.uniformLineEnds.lines[i]? = some line) :
    ∃ front back, t = front ++ line ++ back ∧ IsLine front line back ∧ i = endCount front := by
  induction t using end_induction generalizing i with
  | last t hone =>
    by_cases hnil : t = []
    · subst hnil
      cases h
    · rw [lines_uniform_oneLine hone hnil] at h
      obtain ⟨hi, rfl⟩ := List.getElem?_eq_some_iff.mp h
      obtain rfl : i = 0 := by simpa using hi
      exact ⟨[], [], by simp, ⟨hone, nofun, nofun⟩, rfl⟩
  | more first e rest hone he ih =>
    rw [lines_isEnd hone he] at h
    cases i with
    | zero =>
      obtain rfl := Option.some.inj h
      exact ⟨[], e ++ rest, by simp, ⟨hone, nofun, he.head⟩, rfl⟩
    | succ i =>
      obtain ⟨front, back, rfl, hisLine, rfl⟩ := ih h
      have he' : IsEnd e front := he.of_prefix (by simp)
      refine ⟨first ++ e ++ front, back, by simp, ⟨hisLine.oneLine, ?_, hisLine.ends⟩, ?_⟩
      · by_cases hnil : front = []
        · subst hnil
          simpa using he.endsBefore first
        · exact (endsBefore_append hnil).mpr hisLine.begins
      · rw [endCount_isEnd hone he']

/-- **A whole line is the one** that has the number of line ends in front of it. -/
theorem IsLine.getElem? (h : IsLine front line back) (hne : line ++ back ≠ []) :
    (front ++ line ++ back).uniformLineEnds.lines[endCount front]? = some line := by
  induction front using end_induction with
  | last front hone =>
    obtain rfl := h.begins.eq_nil hone
    cases back with
    | nil =>
      rw [List.append_nil, List.nil_append,
        lines_uniform_oneLine h.oneLine (by simpa using hne)]
      rfl
    | cons c back =>
      obtain ⟨e, rest, hcons, he⟩ := exists_isEnd_cons (h.ends c rfl) back
      rw [hcons, List.nil_append, ← List.append_assoc, lines_isEnd h.oneLine he]
      rfl
  | more first e rest hone he ih =>
    have hrest : IsLine rest line back := ⟨h.oneLine, h.begins.of_append, h.ends⟩
    have he' : IsEnd e (rest ++ (line ++ back)) :=
      he.append (EndsBefore.of_append (List.append_assoc .. ▸ h.begins))
    rw [List.append_assoc, List.append_assoc, lines_isEnd hone he', endCount_isEnd hone he,
      List.getElem?_cons_succ, ← List.append_assoc]
    exact ih hrest

/-- Of two lines of a text, the one that begins first has fewer line ends in front of it. -/
theorem IsLine.endCount_lt {front' line' back' : Text} (h : IsLine front line back)
    (h' : IsLine front' line' back') (heq : front ++ line ++ back = front' ++ line' ++ back')
    (hlt : front.length < front'.length) : endCount front < endCount front' := by
  rw [List.append_assoc, List.append_assoc] at heq
  obtain ⟨m, rfl⟩ : front <+: front' := List.prefix_of_prefix_length_le
    ⟨line ++ back, heq⟩ ⟨line' ++ back', rfl⟩ (Nat.le_of_lt hlt)
  have hne : m ≠ [] := by
    rintro rfl
    simp at hlt
  rw [List.append_assoc, List.append_cancel_left_eq] at heq
  have hends : EndsBefore front m := by
    have hbegins := h.begins
    rwa [EndsBefore, heq, List.head?_append, Option.or_of_isSome (by simp [hne])] at hbegins
  rw [endCount_append hends]
  have hpos := endCount_pos h'.begins.of_append hne
  omega

end

end PackageAudit.Text
