import PackageAudit.Json.Basic
import PackageAudit.Schema.Checked
import PackageAudit.Schema.Moment
import PackageAudit.Schema.Numeral
import PackageAudit.Text.Utf8
import PackageAudit.Tree.Path

/-! # Reading records from JSON

A record is read field by field. The readers are lenient in the way of configuration files: whole
numbers may be written as texts, as floating numbers without a fraction, or as truth values. What is
read as a number, a truth value or one of several names has to be free of surrogates; other texts
may hold them.
-/

namespace PackageAudit

namespace Schema

variable {α : Type}

/-- A text. -/
def text : Json → Checked Text
  | .str t => .accepted t
  | _ => .misfit .noText

/-- A text without surrogates, read on. -/
def unicode (t : Text) (read : Text → Checked α) : Checked α :=
  if t.any CodePoint.isSurrogate then .misfit .notUnicode else read t

/-- Whole numbers that are given with a floating point lie strictly between this number and its
opposite. -/
def integerLimit : Int := 0x8000000000000000

/-- A whole number. -/
def integer : Json → Checked Int
  | .int i => .accepted i
  | .bool b => .accepted (if b then 1 else 0)
  | .real x =>
    match x with
    | .finite _ _ _ =>
      match x.integer? with
      | some i => if i.natAbs < integerLimit then .accepted i else .misfit .integerTooLong
      | none => .misfit .fractional
    | _ => .misfit .notFinite
  | .str t => unicode t fun t =>
    match Numeral.integer t with
    | .ok i => .accepted i
    | .error .tooLong => .misfit .integerTooLong
    | .error .unreadable => .misfit .unreadableInteger
  | _ => .misfit .noInteger

/-- A whole number that is not below a bound. -/
def atLeast (bound : Nat) (v : Json) : Checked Nat :=
  ((integer v).require .tooSmall fun i => (bound : Int) ≤ i).map Int.toNat

/-- A whole number between zero and a hundred. -/
def percentage (v : Json) : Checked Nat :=
  (((integer v).require .tooSmall fun i => 0 ≤ i).require .tooLarge fun i => i ≤ 100).map Int.toNat

/-- A number. -/
def number : Json → Checked Binary64
  | .int i =>
    match Binary64.ofInt i with
    | .infinite _ => .misfit .noNumber
    | x => .accepted x
  | .bool b => .accepted (Binary64.ofInt (if b then 1 else 0))
  | .real x => .accepted x
  | .str t => unicode t fun t =>
    match Numeral.number? t with
    | some x => .accepted x
    | none => .misfit .unreadableNumber
  | _ => .misfit .noNumber

/-- The words that stand for a truth value. -/
def truthWords : List (Text × Bool) :=
  [("0", false), ("off", false), ("f", false), ("false", false), ("n", false), ("no", false),
    ("1", true), ("on", true), ("t", true), ("true", true), ("y", true), ("yes", true)]

/-- The truth value that a whole number stands for. -/
def truthOf (i : Int) : Checked Bool :=
  if i = 0 then .accepted false
  else if i = 1 then .accepted true
  else .misfit .unreadableTruthValue

/-- A truth value. -/
def truth : Json → Checked Bool
  | .bool b => .accepted b
  | .int i =>
    if -integerLimit ≤ i ∧ i < integerLimit then truthOf i else .misfit .noTruthValue
  | .real x =>
    match x.integer? with
    | some i => if i.natAbs < integerLimit then truthOf i else .misfit .noTruthValue
    | none => .misfit .noTruthValue
  | .str t => unicode t fun t =>
    match truthWords.lookup t.asciiLower with
    | some b => .accepted b
    | none => .misfit .unreadableTruthValue
  | _ => .misfit .noTruthValue

/-- Is a moment one of the years 1 to 9999? -/
def momentOf (era : Option Moment.Era) : Checked Unit :=
  if era = some .common then .accepted () else .misfit .momentOutOfRange

/-- A date or a date and a time of the years 1 to 9999, which is only looked at. -/
def moment : Json → Checked Unit
  | .int i =>
    match Binary64.ofInt i with
    | .infinite _ => .misfit .noMoment
    | _ => momentOf (Moment.ofNumber? i)
  | .real (.finite n s e) => momentOf (Moment.ofNumber? (Binary64.finite n s e).floor)
  | .real _ => .misfit .momentOutOfRange
  | .str t => unicode t fun t =>
    match Moment.ofText? t with
    | none => .misfit .unreadableMoment
    | era => momentOf era
  | _ => .misfit .noMoment

/-- A written path. -/
def path : Json → Checked Path
  | .str t => .accepted (.ofText t)
  | _ => .misfit .noPath

/-- One of the values of a type with named values. -/
def oneOf (values : List α) (name : α → Text) : Json → Checked α
  | .str t => unicode t fun t =>
    match values.find? (name · == t) with
    | some a => .accepted a
    | none => .misfit .notListed
  | _ => .misfit .notListed

/-- A value, or null for nothing. -/
def nullable (read : Json → Checked α) : Json → Checked (Option α)
  | .null => .accepted none
  | v => (read v).map some

/-- A list, with the complaints of each item under its position. -/
def list (read : Json → Checked α) : Json → Checked (List α)
  | .arr items =>
    Checked.all ((items.zipIdx).map fun (v, i) => (read v).inside (Text.ofNat i))
  | _ => .misfit .noList

/-- An object of any members. -/
def members : Json → Checked Json.Members
  | .obj ms => .accepted ms
  | _ => .misfit .noObject

/-- An object whose members are all of one kind, with the complaints of each under its name. -/
def table (read : Json → Checked α) : Json → Checked (List (Text × α))
  | .obj ms =>
    Checked.all (ms.map fun (name, v) => ((read v).map (name, ·)).inside (Utf8.legible name))
  | _ => .misfit .noObject

/-- A record inside a record. -/
def record (read : Json.Members → Checked α) : Json → Checked α
  | .obj ms => read ms
  | _ => .misfit .noRecord

/-- A field that has to be there. -/
def required (ms : Json.Members) (name : Text) (read : Json → Checked α) : Checked α :=
  match ms.get? name with
  | some v => (read v).inside name
  | none => (Checked.misfit .missing).inside name

/-- A field that has a value of its own when it is not there. -/
def defaulted (ms : Json.Members) (name : Text) (read : Json → Checked α) (value : α) : Checked α :=
  match ms.get? name with
  | some v => (read v).inside name
  | none => .accepted value

/-- A field that has to fit if it is there and is not kept. -/
def unkept (ms : Json.Members) (name : Text) (read : Json → Checked α) : Checked Unit :=
  defaulted ms name (fun v => (read v).map fun _ => ()) ()

end Schema

end PackageAudit
