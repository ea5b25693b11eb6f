import PackageAudit.Proofs.Text.Lines

/-! # Where lines end

The lines of a text follow from two equations: a text without a line end is its own one line
(`lines_oneLine`), and a line end that is no carriage return cuts off what is in front of it
(`lines_break`). `break_induction` takes a text apart accordingly. Texts that were read from a file
have no carriage returns (`fed_uniformLineEnds`). Two facts follow for them: what holds no line end
is in the text if and only if it is in one of its lines (`infix_line_iff`), and what is written
behind a line feed leaves the lines in front of it as they are (`lines_prefix_written`).
-/

namespace PackageAudit.Text

/-- No line ends in the text. -/
def OneLine (t : Text) : Prop := ∀ c ∈ t, c.endsLine = false

/-- The text has no carriage return. -/
def Fed (t : Text) : Prop := ∀ c ∈ t, c.isCarriageReturn = false

/-- A line feed. -/
abbrev feed : CodePoint := CodePoint.ofChar '\n'

section
variable {t u line rest m : Text} {c : CodePoint}

theorem fed_append : Fed (t ++ u) ↔ Fed t ∧ Fed u := List.forall_mem_append

theorem fed_cons : Fed (c :: t) ↔ c.isCarriageReturn = false ∧ Fed t := List.forall_mem_cons

theorem endsLine_of_carriageReturn (h : c.isCarriageReturn = true) : c.endsLine = true := by
  have hv : c.val = 13 := by simpa [CodePoint.isCarriageReturn] using h
  simp [CodePoint.endsLine, hv]

theorem not_carriageReturn_of_not_ends (h : c.endsLine = false) : c.isCarriageReturn = false :=
  Bool.eq_false_iff.mpr fun hr => by simp [endsLine_of_carriageReturn hr] at h

theorem isLineFeed_iff : c.isLineFeed = true ↔ c = feed := by
  simp only [CodePoint.isLineFeed, beq_iff_eq, Fin.ext_iff]
  exact Iff.rfl

/-! ## Lines one by one -/

theorem collectLines_append (line : Text) (done before : List Text) (t : Text) :
    collectLines line (done ++ before) t = before.reverse ++ collectLines line done t := by
  fun_induction collectLines line done t with
  | case1 line done => cases line <;> simp [collectLines]
  | case2 line done c hc => simp [collectLines, hc]
  | case3 line done c hc => simp [collectLines, hc]
  | case4 line done c d rest h ih => rw [collectLines, if_pos h, ← ih, List.cons_append]
  | case5 line done c d rest h hc ih =>
    rw [collectLines, if_neg h, if_pos hc, ← ih, List.cons_append]
  | case6 line done c d rest h hc ih => rw [collectLines, if_neg h, if_neg hc, ← ih]

theorem collectLines_of_not_ends (hc : c.endsLine = false) (line : Text) (done : List Text)
    (t : Text) : collectLines line done (c :: t) = collectLines (c :: line) done t := by
  have hr := not_carriageReturn_of_not_ends hc
  cases t with
  | nil => simp [collectLines, hc]
  | cons d rest => simp [collectLines, hc, hr]

theorem collectLines_of_ends (hc : c.endsLine = true) (hr : c.isCarriageReturn = false)
    (line : Text) (done : List Text) (t : Text) :
    collectLines line done (c :: t) = collectLines [] (line.reverse :: done) t := by
  cases t with
  | nil => simp [collectLines, hc]
  | cons d rest => simp [collectLines, hc, hr]

theorem collectLines_oneLine (h : OneLine t) (line : Text) (done : List Text) (rest : Text) :
    collectLines line done (t ++ rest) = collectLines (t.reverse ++ line) done rest := by
  induction t generalizing line with
  | nil => rfl
  | cons c t ih =>
    obtain ⟨hc, ht⟩ := List.forall_mem_cons.mp h
    rw [List.cons_append, collectLines_of_not_ends hc, ih ht]
    simp

@[simp] theorem lines_nil : lines [] = [] := rfl

/-- A text without a line end is one line, unless it is empty. -/
theorem lines_oneLine (h : OneLine t) (hne : t ≠ []) : lines t = [t] := by
  have hl := collectLines_oneLine h [] [] []
  rw [List.append_nil, List.append_nil] at hl
  rw [lines, hl, collectLines, if_neg (by simpa using hne)]
  simp

/-- **A line end cuts off the line in front of it.** -/
theorem lines_break (h : OneLine line) (hc : c.endsLine = true) (hr : c.isCarriageReturn = false)
    (rest : Text) : lines (line ++ c :: rest) = line :: lines rest := by
  rw [lines, collectLines_oneLine h, collectLines_of_ends hc hr, List.append_nil,
    List.reverse_reverse]
  exact collectLines_append [] [] [line] rest

theorem exists_break (h : ¬OneLine t) :
    ∃ line c rest, t = line ++ c :: rest ∧ OneLine line ∧ c.endsLine = true := by
  induction t with
  | nil => exact absurd (List.forall_mem_nil _) h
  | cons c t ih =>
    cases hc : c.endsLine with
    | true => exact ⟨[], c, t, rfl, List.forall_mem_nil _, hc⟩
    | false =>
      obtain ⟨line, d, rest, rfl, hline, hd⟩ :=
        ih fun ht => h (List.forall_mem_cons.mpr ⟨hc, ht⟩)
      exact ⟨c :: line, d, rest, rfl, List.forall_mem_cons.mpr ⟨hc, hline⟩, hd⟩

/-- A text has no line end, or it goes on behind its first one. -/
@[elab_as_elim]
theorem break_induction {motive : Text → Prop} (last : ∀ line, OneLine line → motive line)
    (more : ∀ line c rest, OneLine line → c.endsLine = true → motive rest →
      motive (line ++ c :: rest)) (t : Text) : motive t := by
  by_cases h : OneLine t
  · exact last t h
  · obtain ⟨line, c, rest, heq, hline, hc⟩ := exists_break h
    have hlen : rest.length < t.length := by
      rw [heq, List.length_append, List.length_cons]
      omega
    rw [heq]
    exact more line c rest hline hc (break_induction last more rest)
termination_by t.length

/-! ## What is inside a line -/

theorem infix_append_cons_iff (hm : c ∉ m) : m <:+: t ++ c :: u ↔ m <:+: t ∨ m <:+: u := by
  have hfront : ∀ {t : Text}, m <+: t ++ c :: u → m <+: t := by
    intro t h
    have hor := List.prefix_or_prefix_of_prefix h (List.prefix_append t (c :: u))
    rcases hor with h' | ⟨_ | ⟨d, m'⟩, rfl⟩
    · exact h'
    · simp
    · obtain ⟨rfl, -⟩ := List.cons_prefix_cons.mp ((List.prefix_append_right_inj t).mp h)
      exact absurd (by simp) hm
  constructor
  · intro h
    induction t with
    | nil =>
      rcases List.infix_cons_iff.mp h with h | h
      · exact .inl (hfront (t := []) h).isInfix
      · exact .inr h
    | cons d t ih =>
      rcases List.infix_cons_iff.mp h with h | h
      · exact .inl (hfront (t := d :: t) h).isInfix
      · exact (ih h).imp_left fun h => List.infix_cons_iff.mpr (.inr h)
  · rintro (h | h)
    · exact h.trans (List.prefix_append t (c :: u)).isInfix
    · exact h.trans ((List.suffix_cons c u).trans (List.suffix_append t (c :: u))).isInfix

/-- **What holds no line end is in a text if and only if it is in one of its lines.** -/
theorem infix_line_iff (ht : Fed t) (hm : OneLine m) (hne : m ≠ []) :
    (∃ line ∈ t.lines, m <:+: line) ↔ m <:+: t := by
  induction t using break_induction with
  | last line hline =>
    by_cases hnil : line = []
    · subst hnil
      simp [hne]
    · simp [lines_oneLine hline hnil]
  | more line c rest hline hc ih =>
    obtain ⟨hr, hrest⟩ := fed_cons.mp (fed_append.mp ht).2
    have hnot : c ∉ m := fun hmem => by simp [hm c hmem] at hc
    rw [lines_break hline hc hr, infix_append_cons_iff hnot, ← ih hrest]
    simp

theorem oneLine_of_mem_lines (ht : Fed t) (h : line ∈ t.lines) : OneLine line := by
  induction t using break_induction with
  | last t hone =>
    by_cases hnil : t = []
    · subst hnil
      cases h
    · rw [lines_oneLine hone hnil, List.mem_singleton] at h
      exact h ▸ hone
  | more first c rest hone hc ih =>
    obtain ⟨hr, hrest⟩ := fed_cons.mp (fed_append.mp ht).2
    rw [lines_break hone hc hr, List.mem_cons] at h
    rcases h with rfl | h
    · exact hone
    · exact ih hrest h

/-! ## Writing behind a line feed -/

theorem endsLine_feed : feed.endsLine = true := by decide

theorem not_carriageReturn_feed : feed.isCarriageReturn = false := by decide

theorem lines_prefix_feed (ht : Fed t) (u : Text) : lines t <+: lines (t ++ feed :: u) := by
  induction t using break_induction with
  | last line hline =>
    rw [lines_break hline endsLine_feed not_carriageReturn_feed]
    by_cases hnil : line = []
    · subst hnil
      exact List.nil_prefix
    · rw [lines_oneLine hline hnil]
      exact List.prefix_append [line] _
  | more line c rest hline hc ih =>
    obtain ⟨hr, hrest⟩ := fed_cons.mp (fed_append.mp ht).2
    rw [List.append_assoc, List.cons_append, lines_break hline hc hr, lines_break hline hc hr]
    exact (List.prefix_cons_inj line).mpr (ih hrest)

/-- Lines that a line feed has finished stay as they are. -/
theorem lines_feed_append (ht : Fed t) (u : Text) :
    lines (t ++ feed :: u) = lines (t ++ [feed]) ++ lines u := by
  induction t using break_induction with
  | last line hline =>
    rw [lines_break hline endsLine_feed not_carriageReturn_feed,
      lines_break hline endsLine_feed not_carriageReturn_feed]
    rfl
  | more line c rest hline hc ih =>
    obtain ⟨hr, hrest⟩ := fed_cons.mp (fed_append.mp ht).2
    rw [List.append_assoc, List.append_assoc, List.cons_append, List.cons_append,
      lines_break hline hc hr, lines_break hline hc hr, ih hrest, List.cons_append]

/-! ## Uniform line ends -/

theorem collectUniform_cons (hc : c.isCarriageReturn = false) (done t : Text) :
    collectUniform done (c :: t) = collectUniform (c :: done) t := by
  cases t <;> simp [collectUniform, hc]

theorem collectUniform_append (done before t : Text) :
    collectUniform (done ++ before) t = before.reverse ++ collectUniform done t := by
  fun_induction collectUniform done t with
  | case1 done => simp [collectUniform]
  | case2 done c hc => simp [collectUniform, hc]
  | case3 done c hc d rest hd ih => simpa [collectUniform, hc, hd] using ih
  | case4 done c hc d rest hd ih => simpa [collectUniform, hc, hd] using ih
  | case5 done c rest hc ih =>
    rw [← ih, List.cons_append, collectUniform_cons (by simpa using hc)]

@[simp] theorem uniformLineEnds_nil : uniformLineEnds [] = [] := rfl

theorem uniformLineEnds_cons (hc : c.isCarriageReturn = false) (t : Text) :
    uniformLineEnds (c :: t) = c :: uniformLineEnds t := by
  rw [uniformLineEnds, collectUniform_cons hc]
  exact collectUniform_append [] [c] t

theorem uniformLineEnds_return (hc : c.isCarriageReturn = true)
    (ht : ∀ d ∈ t.head?, d.isLineFeed = false) :
    uniformLineEnds (c :: t) = feed :: uniformLineEnds t := by
  cases t with
  | nil => simp [uniformLineEnds, collectUniform, hc]
  | cons d t =>
    have hd := ht d rfl
    rw [uniformLineEnds, collectUniform]
    simp only [hc, hd, if_true, Bool.false_eq_true, if_false]
    exact collectUniform_append [] [feed] (d :: t)

theorem uniformLineEnds_return_feed (hc : c.isCarriageReturn = true) (t : Text) :
    uniformLineEnds (c :: feed :: t) = feed :: uniformLineEnds t := by
  rw [uniformLineEnds, collectUniform, if_pos hc, if_pos (by decide)]
  exact collectUniform_append [] [feed] t

/-- What was read from a file has no carriage returns. -/
theorem fed_uniformLineEnds (t : Text) : Fed t.uniformLineEnds := by
  have h : ∀ done, Fed done → Fed (collectUniform done t) := by
    intro done hdone
    have hfeed {done : Text} (hdone : Fed done) : Fed (feed :: done) :=
      fed_cons.mpr ⟨not_carriageReturn_feed, hdone⟩
    have hreverse {done : Text} (hdone : Fed done) : Fed done.reverse :=
      fun c hc => hdone c (List.mem_reverse.mp hc)
    fun_induction collectUniform done t with
    | case1 done => exact hreverse hdone
    | case2 done c hc => exact hreverse (hfeed hdone)
    | case3 done c hc d rest hd ih => exact ih (hfeed hdone)
    | case4 done c hc d rest hd ih => exact ih (hfeed hdone)
    | case5 done c rest hc ih => exact ih (fed_cons.mpr ⟨by simpa using hc, hdone⟩)
  exact h [] (List.forall_mem_nil _)

/-- Line ends are made uniform in front of a line feed and behind it on their own, except that a
carriage return right in front of it is a part of it. -/
theorem uniformLineEnds_feed : ∀ t : Text,
    ∃ front, (t.uniformLineEnds = front ∨ t.uniformLineEnds = front ++ [feed]) ∧
      ∀ u, uniformLineEnds (t ++ feed :: u) = front ++ feed :: uniformLineEnds u
  | [] => ⟨[], .inl rfl, uniformLineEnds_cons not_carriageReturn_feed⟩
  | c :: t => by
    cases hc : c.isCarriageReturn with
    | false =>
      obtain ⟨front, hfront, hall⟩ := uniformLineEnds_feed t
      refine ⟨c :: front, ?_, fun u => ?_⟩
      · rw [uniformLineEnds_cons hc]
        exact hfront.imp (congrArg (c :: ·)) (congrArg (c :: ·))
      · rw [List.cons_append, uniformLineEnds_cons hc, hall, List.cons_append]
    | true =>
      match t with
      | [] => exact ⟨[], .inr (uniformLineEnds_return hc nofun), uniformLineEnds_return_feed hc⟩
      | d :: t =>
        cases hd : d.isLineFeed with
        | true =>
          obtain rfl := isLineFeed_iff.mp hd
          obtain ⟨front, hfront, hall⟩ := uniformLineEnds_feed t
          refine ⟨feed :: front, ?_, fun u => ?_⟩
          · rw [uniformLineEnds_return_feed hc]
            exact hfront.imp (congrArg (feed :: ·)) (congrArg (feed :: ·))
          · rw [List.cons_append, List.cons_append, uniformLineEnds_return_feed hc, hall,
              List.cons_append]
        | false =>
          have hhead : ∀ {t : Text}, ∀ e ∈ (d :: t).head?, e.isLineFeed = false :=
            fun e he => Option.some.inj he ▸ hd
          obtain ⟨front, hfront, hall⟩ := uniformLineEnds_feed (d :: t)
          refine ⟨feed :: front, ?_, fun u => ?_⟩
          · rw [uniformLineEnds_return hc hhead]
            exact hfront.imp (congrArg (feed :: ·)) (congrArg (feed :: ·))
          · rw [List.cons_append, List.cons_append, uniformLineEnds_return hc hhead,
              ← List.cons_append, hall, List.cons_append]

/-- **What is written behind a line feed at the end of a text leaves its lines as they are**,
whether the line feed was there or comes with what is written. -/
theorem lines_prefix_written (h : u = t ∨ u = t ++ [feed]) (rest : Text) :
    lines u.uniformLineEnds <+: lines (uniformLineEnds (t ++ feed :: rest)) := by
  obtain ⟨front, hfront, hall⟩ := uniformLineEnds_feed t
  have hfed : Fed front := (fed_append.mp (hall [] ▸ fed_uniformLineEnds (t ++ [feed]))).1
  have hlines := lines_feed_append hfed rest.uniformLineEnds
  rw [hall]
  rcases h with rfl | rfl
  · rcases hfront with hu | hu
    · rw [hu]
      exact lines_prefix_feed hfed _
    · rw [hu, hlines]
      exact List.prefix_append _ _
  · rw [hall, uniformLineEnds_nil, hlines]
    exact List.prefix_append _ _

end

end PackageAudit.Text
