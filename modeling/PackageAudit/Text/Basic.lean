/-! # Text

Text is a sequence of Unicode code points. Surrogates are allowed, because an escape inside a JSON
string may name one on its own; everything that is read from a file is free of them.

The module holds the type, literals, the search and split operations that the audit needs, and the
decimal and hexadecimal forms of numbers.
-/

namespace PackageAudit

/-- A Unicode code point, surrogates included. -/
abbrev CodePoint := Fin 0x110000

/-- A sequence of code points. -/
abbrev Text := List CodePoint

namespace CodePoint

/-- The code point of a character. -/
def ofChar (c : Char) : CodePoint :=
  ⟨c.toNat, by
    have h : c.toNat < 0xd800 ∨ (0xdfff < c.toNat ∧ c.toNat < 0x110000) := c.valid
    omega⟩

instance : Coe Char CodePoint := ⟨ofChar⟩

/-- The code point with a given number; numbers out of range stand for the replacement character. -/
def ofNat (n : Nat) : CodePoint :=
  if h : n < 0x110000 then ⟨n, h⟩ else ⟨0xfffd, by decide⟩

/-- Surrogates have no UTF-8 form. -/
def isSurrogate (c : CodePoint) : Bool := 0xd800 ≤ c.val && c.val ≤ 0xdfff

def isHighSurrogate (c : CodePoint) : Bool := 0xd800 ≤ c.val && c.val ≤ 0xdbff

def isLowSurrogate (c : CodePoint) : Bool := 0xdc00 ≤ c.val && c.val ≤ 0xdfff

/-- The value of an ASCII decimal digit. -/
def digit? (c : CodePoint) : Option Nat :=
  if 48 ≤ c.val ∧ c.val ≤ 57 then some (c.val - 48) else none

def isDigit (c : CodePoint) : Bool := c.digit?.isSome

/-- The value of an ASCII hexadecimal digit of either case. -/
def hexDigit? (c : CodePoint) : Option Nat :=
  if 48 ≤ c.val ∧ c.val ≤ 57 then some (c.val - 48)
  else if 97 ≤ c.val ∧ c.val ≤ 102 then some (c.val - 87)
  else if 65 ≤ c.val ∧ c.val ≤ 70 then some (c.val - 55)
  else none

end CodePoint

namespace Text

/-- The code points of a string. -/
def ofString (s : String) : Text := s.toList.map CodePoint.ofChar

instance : Coe String Text := ⟨ofString⟩

/-- The text as a string; a surrogate is shown as the replacement character. -/
def toDisplay (t : Text) : String :=
  String.ofList (t.map fun c => Char.ofNat (if c.isSurrogate then 0xfffd else c.val))

/-- Does the text come before another one in the order of code points? -/
def before (s t : Text) : Bool := s.lex t fun c d => c.val < d.val

/-- Does the text begin with another one? -/
def startsWith (t start : Text) : Bool := start.isPrefixOf t

/-- Does the text end with another one? -/
def endsWith (t ending : Text) : Bool := ending.isSuffixOf t

/-- Does `sub` occur anywhere in the text? -/
def holds (sub : Text) : Text → Bool
  | [] => sub.isEmpty
  | c :: rest => sub.isPrefixOf (c :: rest) || holds sub rest

/-- The pieces between the separators; there is always at least one. -/
def split (sep : CodePoint) : Text → List Text
  | [] => [[]]
  | c :: rest =>
    if c = sep then [] :: split sep rest
    else
      match split sep rest with
      | [] => [[c]]
      | piece :: pieces => (c :: piece) :: pieces

/-- The pieces with a separator between each two neighbours. -/
def join (sep : Text) (pieces : List Text) : Text := List.intercalate sep pieces

@[simp] theorem join_nil (sep : Text) : join sep [] = [] := rfl

@[simp] theorem join_singleton (sep piece : Text) : join sep [piece] = piece := by
  simp [join, List.intercalate]

@[simp] theorem join_cons_cons (sep piece next : Text) (pieces : List Text) :
    join sep (piece :: next :: pieces) = piece ++ sep ++ join sep (next :: pieces) := by
  simp [join, List.intercalate]

theorem split_ne_nil (sep : CodePoint) (t : Text) : t.split sep ≠ [] := by
  fun_induction split sep t <;> simp_all

theorem join_split (sep : CodePoint) (t : Text) : join [sep] (t.split sep) = t := by
  fun_induction split sep t with
  | case1 => rfl
  | case2 rest ih =>
    cases h : split sep rest with
    | nil => exact absurd h (split_ne_nil sep rest)
    | cons piece pieces =>
      rw [h] at ih
      rw [join_cons_cons, ih]
      rfl
  | case3 c rest _ h => exact absurd h (split_ne_nil sep rest)
  | case4 c rest _ piece pieces h ih =>
    rw [h] at ih
    cases pieces with
    | nil => simp_all
    | cons next pieces => simpa using ih

theorem notMem_of_mem_split {sep : CodePoint} {t piece : Text} (h : piece ∈ t.split sep) :
    sep ∉ piece := by
  fun_induction split sep t generalizing piece with
  | case1 => simp_all
  | case2 rest ih =>
    rcases List.mem_cons.mp h with rfl | h
    · simp
    · exact ih h
  | case3 c rest hc _ =>
    rw [List.mem_singleton.mp h]
    simpa using Ne.symm hc
  | case4 c rest hc first pieces eq ih =>
    rw [eq] at ih
    rcases List.mem_cons.mp h with rfl | h
    · simpa using ⟨Ne.symm hc, ih List.mem_cons_self⟩
    · exact ih (List.mem_cons_of_mem _ h)

/-- What follows the last separator, or the whole text if there is none. -/
def afterLast (sep : CodePoint) (t : Text) : Text :=
  (t.reverse.takeWhile (· ≠ sep)).reverse

/-- Every occurrence of one code point replaced. -/
def replaceEach (t : Text) (old : CodePoint) (new : Text) : Text :=
  t.flatMap fun c => if c = old then new else [c]

/-- Decimal digits, no sign. -/
def ofNat (n : Nat) : Text := (Nat.toDigits 10 n).map CodePoint.ofChar

/-- Decimal digits, after a minus sign for negative numbers. -/
def ofInt : Int → Text
  | .ofNat n => ofNat n
  | .negSucc n => '-' :: ofNat (n + 1)

/-- A run of the digit zero. -/
def zeros (n : Nat) : Text := List.replicate n (CodePoint.ofChar '0')

/-- Lower-case hexadecimal digits, padded with zeros to a least width. -/
def hex (width n : Nat) : Text :=
  let digits := (Nat.toDigits 16 n).map CodePoint.ofChar
  zeros (width - digits.length) ++ digits

/-- The number that a sequence of decimal digits denotes; other code points count as zero. -/
def toNat (digits : Text) : Nat :=
  digits.foldl (fun n c => 10 * n + c.digit?.getD 0) 0

end Text

end PackageAudit
