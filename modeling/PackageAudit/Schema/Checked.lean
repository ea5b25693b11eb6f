import PackageAudit.Text.Basic

/-! # Values that were checked

`Checked` is the outcome of reading a record: the value, or all complaints about it with their
places. It is applicative and not monadic, because every field that does not fit is reported and not
only the first one.
-/

namespace PackageAudit

/-- What is wrong with a field. -/
inductive Misfit where
  | missing
  | notListed
  | noText
  | notUnicode
  | noInteger
  | unreadableInteger
  | integerTooLong
  | fractional
  | notFinite
  | noNumber
  | unreadableNumber
  | noTruthValue
  | unreadableTruthValue
  | noMoment
  | unreadableMoment
  | momentOutOfRange
  | noList
  | noObject
  | noRecord
  | noPath
  | notAbove
  | tooSmall
  | tooLarge
  | unknownField
  | inconsistent
deriving Repr, DecidableEq

/-- The short name of a misfit. -/
def Misfit.name : Misfit → Text
  | .missing => "missing"
  | .notListed => "enum"
  | .noText => "string_type"
  | .notUnicode => "string_unicode"
  | .noInteger => "int_type"
  | .unreadableInteger => "int_parsing"
  | .integerTooLong => "int_parsing_size"
  | .fractional => "int_from_float"
  | .notFinite => "finite_number"
  | .noNumber => "float_type"
  | .unreadableNumber => "float_parsing"
  | .noTruthValue => "bool_type"
  | .unreadableTruthValue => "bool_parsing"
  | .noMoment => "datetime_type"
  | .unreadableMoment => "datetime_from_date_parsing"
  | .momentOutOfRange => "datetime_parsing"
  | .noList => "list_type"
  | .noObject => "dict_type"
  | .noRecord => "model_type"
  | .noPath => "path_type"
  | .notAbove => "greater_than"
  | .tooSmall => "greater_than_equal"
  | .tooLarge => "less_than_equal"
  | .unknownField => "extra_forbidden"
  | .inconsistent => "value_error"

/-- A misfit and its place, from the outermost record inwards. -/
structure Complaint where
  place : List Text
  misfit : Misfit
deriving DecidableEq

/-- A value that was read, or everything that is wrong with it. -/
inductive Checked (α : Type) where
  | accepted (value : α)
  | rejected (complaints : List Complaint)

namespace Checked

variable {α β : Type}

/-- A single complaint about the value itself. -/
def misfit (m : Misfit) : Checked α := .rejected [⟨[], m⟩]

/-- The value under a function. -/
def map (f : α → β) : Checked α → Checked β
  | accepted a => accepted (f a)
  | rejected cs => rejected cs

/-- A function and its argument; the complaints of both are kept. -/
def app : Checked (α → β) → Checked α → Checked β
  | accepted f, accepted a => accepted (f a)
  | accepted _, rejected cs => rejected cs
  | rejected cs, accepted _ => rejected cs
  | rejected cs, rejected ds => rejected (cs ++ ds)

instance : Functor Checked := ⟨map, fun a x => map (fun _ => a) x⟩

instance : Applicative Checked := { pure := accepted, seq := fun f x => app f (x ()) }

theorem map_eq_accepted {f : α → β} {x : Checked α} {b : β} :
    f <$> x = accepted b ↔ ∃ a, x = accepted a ∧ f a = b := by
  cases x with
  | accepted a => simp [Functor.map, map]
  | rejected cs => simp [Functor.map, map]

theorem seq_eq_accepted {f : Checked (α → β)} {x : Checked α} {b : β} :
    f <*> x = accepted b ↔ ∃ g a, f = accepted g ∧ x = accepted a ∧ g a = b := by
  cases f <;> cases x <;> simp [Seq.seq, app]

theorem seqLeft_eq_accepted {x : Checked α} {y : Checked β} {a : α} :
    x <* y = accepted a ↔ x = accepted a ∧ ∃ b, y = accepted b := by
  change Function.const β <$> x <*> y = accepted a ↔ _
  rw [seq_eq_accepted]
  cases x <;> cases y <;> simp [map_eq_accepted]

/-- A further condition on a value that was accepted. -/
def require (x : Checked α) (m : Misfit) (p : α → Bool) : Checked α :=
  match x with
  | accepted a => if p a then accepted a else misfit m
  | rejected cs => rejected cs

/-- The next reading of a value that was accepted. -/
def andThen (x : Checked α) (f : α → Checked β) : Checked β :=
  match x with
  | accepted a => f a
  | rejected cs => rejected cs

/-- Places the complaints inside a field. -/
def inside (name : Text) : Checked α → Checked α
  | accepted a => accepted a
  | rejected cs => rejected (cs.map fun c => { c with place := name :: c.place })

/-- All values, or the complaints of all. -/
def all : List (Checked α) → Checked (List α)
  | [] => accepted []
  | x :: xs => (x.map List.cons).app (all xs)

end Checked

end PackageAudit
