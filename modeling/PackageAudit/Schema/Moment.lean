import PackageAudit.Schema.Numeral

/-! # Dates and times of day

A moment is written as a date, or as a date and a time of day with a separator between them. The
time may leave out its seconds and their fraction, and may be followed by its distance from
universal time. A number stands for the seconds since the beginning of 1970, or for the milliseconds
if it is large. Nothing is computed with moments here; the module only tells which ones can be read,
and which of them lie in the year 0, which dates can be written in and calendars leave out.
-/

namespace PackageAudit.Moment

/-- The number that two digits denote, and what follows them. -/
def twoDigits? : Text → Option (Nat × Text)
  | a :: b :: rest =>
    match a.digit?, b.digit? with
    | some m, some n => some (10 * m + n, rest)
    | _, _ => none
  | _ => none

/-- What follows a code point of a class. -/
def behind? (p : CodePoint → Bool) : Text → Option Text
  | [] => none
  | c :: rest => if p c then some rest else none

/-- What follows a code point. -/
def behindChar? (c : CodePoint) (t : Text) : Option Text := behind? (· == c) t

/-- The number of days of a month. -/
def daysIn (year month : Nat) : Nat :=
  if month = 2 then
    if year % 4 = 0 ∧ (year % 100 ≠ 0 ∨ year % 400 = 0) then 29 else 28
  else if month = 4 ∨ month = 6 ∨ month = 9 ∨ month = 11 then 30
  else 31

/-- Where a moment lies. -/
inductive Era where
  /-- In the years 1 to 9999. -/
  | common
  | yearZero
deriving Repr, DecidableEq

/-- The era of a date, and what follows the date. -/
def date? (t : Text) : Option (Era × Text) := do
  let (century, t) ← twoDigits? t
  let (year, t) ← twoDigits? t
  let t ← behindChar? '-' t
  let (month, t) ← twoDigits? t
  let t ← behindChar? '-' t
  let (day, t) ← twoDigits? t
  let year := 100 * century + year
  if 1 ≤ month ∧ month ≤ 12 ∧ 1 ≤ day ∧ day ≤ daysIn year month then
    some (if year = 0 then .yearZero else .common, t)
  else none

/-- What follows the fraction of a second, if there is one. -/
def behindFraction? (t : Text) : Option Text :=
  match behind? (fun c => c == CodePoint.ofChar '.' || c == CodePoint.ofChar ',') t with
  | none => some t
  | some t =>
    match Numeral.digits t with
    | ([], _) => none
    | (_, rest) => some rest

/-- What follows the seconds, if there are any. -/
def behindSeconds? (t : Text) : Option Text :=
  match behindChar? ':' t with
  | none => some t
  | some t => do
    let (second, t) ← twoDigits? t
    if second ≤ 59 then behindFraction? t else none

/-- What follows a time of day. -/
def behindTime? (t : Text) : Option Text := do
  let (hour, t) ← twoDigits? t
  let t ← behindChar? ':' t
  let (minute, t) ← twoDigits? t
  if hour ≤ 23 ∧ minute ≤ 59 then behindSeconds? t else none

/-- Is there nothing, or the distance from universal time and nothing else? It is less than a day.
The minus sign may also be the mathematical one. -/
def isZone (t : Text) : Bool :=
  match t with
  | [] => true
  | c :: rest =>
    if c.foldsTo 'z' then rest.isEmpty
    else if c == CodePoint.ofChar '+' || c == CodePoint.ofChar '-' || c.val == 0x2212 then
      match twoDigits? rest with
      | none => false
      | some (hours, rest) =>
        match twoDigits? ((behindChar? ':' rest).getD rest) with
        | some (minutes, []) => hours ≤ 23 && minutes ≤ 59
        | _ => false
    else false

/-- Can the separator stand between a date and a time? -/
def isSeparator (c : CodePoint) : Bool :=
  c.foldsTo 't' || c == CodePoint.ofChar ' ' || c == CodePoint.ofChar '_'

/-- The era of a date or of a date and a time. -/
def written? (t : Text) : Option Era :=
  match date? t with
  | none => none
  | some (era, []) => some era
  | some (era, rest) =>
    match (behind? isSeparator rest).bind behindTime? with
    | none => none
    | some zone => if isZone zone then some era else none

/-- Numbers above this one and below its opposite count milliseconds. -/
def secondsLimit : Int := 20000000000

/-- The second with which the year 0 begins. -/
def yearZeroStart : Int := -62167219200

/-- The second with which the year 1 begins. -/
def commonStart : Int := -62135596800

/-- The last second of the year 9999. -/
def commonEnd : Int := 253402300799

/-- The era of a moment that a whole number stands for. -/
def ofNumber? (n : Int) : Option Era :=
  let second := if secondsLimit < n || n < -secondsLimit then n / 1000 else n
  if second < yearZeroStart || commonEnd < second then none
  else some (if second < commonStart then .yearZero else .common)

/-- The greatest whole number that is not above the number that digits, perhaps with a point,
denote. With a point, the number is the binary64 number that is nearest. -/
def number? (t : Text) : Option Int :=
  let (negative, unsigned) := Numeral.sign t
  if !unsigned.all fun c => c.isDigit || c == CodePoint.ofChar '.' then none
  else if unsigned.contains (CodePoint.ofChar '.') then
    match Numeral.decimal? negative unsigned with
    | some (.finite n s e) => some (Binary64.finite n s e).floor
    | _ => none
  else if unsigned = [] then none
  else
    let n : Int := Text.toNat unsigned
    some (if negative then -n else n)

/-- The era of the moment that a text stands for. -/
def ofText? (t : Text) : Option Era := (written? t).or ((number? t).bind ofNumber?)

end PackageAudit.Moment
