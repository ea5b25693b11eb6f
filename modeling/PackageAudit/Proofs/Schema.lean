import PackageAudit.Schema

/-! # What readings complain about

A record is read field by field, and all fields that do not fit are reported together. `Checked.Blames`
says so of a reading: it complains about certain places, and it accepts what it reads if there are none.
A field that is read by itself has one complaint at most (`Checked.Simple`), and `Blames.seq` puts the
fields together.
-/

namespace PackageAudit

namespace Checked

/-- A reading complains about these places and no others, and it accepts if there are none. -/
def Blames {α : Type} (x : Checked α) (places : List Text → Prop) : Prop :=
  match x with
  | accepted _ => ∀ place, ¬places place
  | rejected cs => cs ≠ [] ∧ ∀ place, place ∈ cs.map (·.place) ↔ places place

/-- A reading accepts, or has one complaint about the value itself. -/
def Simple {α : Type} (x : Checked α) : Prop := (∃ a, x = accepted a) ∨ ∃ m, x = misfit m

section
variable {α β : Type} {x : Checked α} {y : Checked β} {f : Checked (α → β)}
  {places places' : List Text → Prop}

theorem Blames.accepted_iff (h : x.Blames places) :
    (∃ a, x = accepted a) ↔ ∀ place, ¬places place := by
  cases x with
  | accepted a => exact ⟨fun _ => h, fun _ => ⟨a, rfl⟩⟩
  | rejected cs =>
    obtain ⟨c, hc⟩ := List.exists_mem_of_ne_nil _ h.1
    have hplace : places c.place := (h.2 _).mp (List.mem_map_of_mem hc)
    exact ⟨nofun, fun hnone => absurd hplace (hnone _)⟩

theorem Blames.exists_rejected {place : List Text} (h : x.Blames places) (hplace : places place) :
    ∃ cs, x = rejected cs ∧ ∀ place, place ∈ cs.map (·.place) ↔ places place := by
  cases x with
  | accepted a => exact absurd hplace (h place)
  | rejected cs => exact ⟨cs, rfl, h.2⟩

theorem Blames.congr (h : x.Blames places) (hiff : ∀ place, places place ↔ places' place) :
    x.Blames places' := by
  rwa [show places' = places from funext fun place => propext (hiff place).symm]

theorem blames_accepted (a : α) : (accepted a).Blames fun _ => False := fun _ => id

theorem Blames.map (h : x.Blames places) (g : α → β) : (g <$> x).Blames places := by
  cases x with
  | accepted a => exact h
  | rejected cs => exact h

theorem Blames.seq (hf : f.Blames places) (hx : x.Blames places') :
    (f <*> x).Blames fun place => places place ∨ places' place := by
  cases f with
  | accepted g =>
    cases x with
    | accepted a => exact fun place => not_or.mpr ⟨hf place, hx place⟩
    | rejected cs => exact ⟨hx.1, fun place => (hx.2 place).trans (or_iff_right (hf place)).symm⟩
  | rejected ds =>
    cases x with
    | accepted a => exact ⟨hf.1, fun place => (hf.2 place).trans (or_iff_left (hx place)).symm⟩
    | rejected cs =>
      refine ⟨List.append_ne_nil_of_left_ne_nil hf.1 _, fun place => ?_⟩
      rw [List.map_append, List.mem_append, hf.2, hx.2]

theorem Blames.seqLeft (hx : x.Blames places) (hy : y.Blames places') :
    (x <* y).Blames fun place => places place ∨ places' place := (hx.map _).seq hy

theorem simple_accepted (a : α) : (accepted a).Simple := .inl ⟨a, rfl⟩

theorem simple_misfit (m : Misfit) : (misfit m : Checked α).Simple := .inr ⟨m, rfl⟩

theorem Simple.map (h : x.Simple) (g : α → β) : (x.map g).Simple := by
  rcases h with ⟨a, rfl⟩ | ⟨m, rfl⟩
  · exact simple_accepted _
  · exact simple_misfit m

theorem inside_eq_accepted {name : Text} {a : α} : x.inside name = accepted a ↔ x = accepted a := by
  cases x with
  | accepted b => exact Iff.rfl
  | rejected cs => exact ⟨nofun, nofun⟩

/-- A field that does not fit is complained about under its name. -/
theorem Simple.inside (h : x.Simple) (name : Text) :
    (x.inside name).Blames fun place => place = [name] ∧ ¬∃ a, x = accepted a := by
  rcases h with ⟨a, rfl⟩ | ⟨m, rfl⟩
  · exact fun place hplace => hplace.2 ⟨a, rfl⟩
  · refine ⟨List.cons_ne_nil _ _, fun place => ?_⟩
    have hnot : ¬∃ a : α, misfit m = accepted a := nofun
    simp [hnot]

end

end Checked

namespace Schema

open Checked

section
variable {α : Type} {v : Json} {values : List α} {name : α → Text} {read : Json → Checked α} {t : Text}

/-! ## Readings of one value -/

theorem simple_text (v : Json) : (text v).Simple := by
  cases v with
  | str t => exact simple_accepted t
  | _ => exact simple_misfit _

theorem simple_members (v : Json) : (members v).Simple := by
  cases v with
  | obj ms => exact simple_accepted ms
  | _ => exact simple_misfit _

theorem simple_unicode {read : Text → Checked α} (h : (read t).Simple) : (unicode t read).Simple := by
  unfold unicode
  split
  · exact simple_misfit _
  · exact h

theorem simple_oneOf (values : List α) (name : α → Text) (v : Json) :
    (oneOf values name v).Simple := by
  cases v with
  | str t =>
    apply simple_unicode
    split
    · exact simple_accepted _
    · exact simple_misfit _
  | _ => exact simple_misfit _

theorem simple_nullable (h : ∀ v, (read v).Simple) (v : Json) : (nullable read v).Simple := by
  cases v with
  | null => exact simple_accepted _
  | _ => exact (h _).map _

theorem simple_integer (v : Json) : (integer v).Simple := by
  unfold integer
  split
  · exact simple_accepted _
  · exact simple_accepted _
  · split
    · split
      · split
        · exact simple_accepted _
        · exact simple_misfit _
      · exact simple_misfit _
    · exact simple_misfit _
  · apply simple_unicode
    split
    · exact simple_accepted _
    · exact simple_misfit _
    · exact simple_misfit _
  · exact simple_misfit _

theorem simple_truthOf (i : Int) : (truthOf i).Simple := by
  unfold truthOf
  split
  · exact simple_accepted _
  · split
    · exact simple_accepted _
    · exact simple_misfit _

theorem simple_truth (v : Json) : (truth v).Simple := by
  unfold truth
  split
  · exact simple_accepted _
  · split
    · exact simple_truthOf _
    · exact simple_misfit _
  · split
    · split
      · exact simple_truthOf _
      · exact simple_misfit _
    · exact simple_misfit _
  · apply simple_unicode
    split
    · exact simple_accepted _
    · exact simple_misfit _
  · exact simple_misfit _

/-! ## What is accepted -/

theorem text_eq_accepted : text v = .accepted t ↔ v = .str t := by
  cases v <;> simp [text, misfit]

theorem members_eq_accepted {ms : Json.Members} : members v = .accepted ms ↔ v = .obj ms := by
  cases v <;> simp [members, misfit]

/-- Only the name of a value stands for it. -/
theorem eq_str_of_oneOf {a : α} (h : oneOf values name v = .accepted a) : v = .str (name a) := by
  cases v with
  | str t =>
    simp only [oneOf, unicode] at h
    split at h
    · cases h
    · split at h
      · next a' hfind =>
        cases h
        have hname := List.find?_some hfind
        rw [beq_iff_eq] at hname
        rw [hname]
      · cases h
  | _ => cases h

/-- Nothing is given, or something that fits. -/
theorem nullable_accepts : (∃ a, nullable read v = .accepted a) ↔
    v = .null ∨ ∃ a, read v = .accepted a := by
  cases v with
  | null => exact ⟨fun _ => .inl rfl, fun _ => ⟨none, rfl⟩⟩
  | _ =>
    simp only [nullable, reduceCtorEq, false_or]
    exact ⟨fun ⟨_, h⟩ => (map_eq_accepted.mp h).imp fun _ => And.left,
      fun ⟨a, h⟩ => ⟨some a, map_eq_accepted.mpr ⟨a, h, rfl⟩⟩⟩

end

end Schema

end PackageAudit
