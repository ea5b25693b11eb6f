import PackageAudit.Text.Utf8

/-! # Names as bytes

A file system knows names as bytes, and so does an environment. A text stands for the bytes of its
UTF-8 form, in which each of the surrogates from U+DC80 to U+DCFF is a single byte that is no part
of any code point. Surrogates side by side may stand for bytes that do form a code point, so several
texts can name one thing; the file system answers with the one that `Name.plain` gives.
-/

namespace PackageAudit.Name

/-- Is the code point a surrogate that stands for a byte? -/
def standsForByte (c : CodePoint) : Bool := 0xdc80 ≤ c.val && c.val ≤ 0xdcff

/-- The bytes that a text stands for. -/
def bytes (t : Text) : List UInt8 :=
  t.flatMap fun c =>
    if standsForByte c then [(c.val - 0xdc00).toUInt8] else Utf8.encodePoint c

theorem bytes_append (t u : Text) : bytes (t ++ u) = bytes t ++ bytes u :=
  List.flatMap_append

/-- The number of bytes that a text stands for. -/
def size (t : Text) : Nat := (bytes t).length

/-- The code point that bytes begin with, and the number of its bytes. -/
def first? (bytes : List UInt8) : Option (CodePoint × Nat) :=
  [1, 2, 3, 4].findSome? fun n =>
    match Utf8.decode (bytes.take n) with
    | .ok [c] => some (c, n)
    | _ => none

/-- The text of bytes. A byte that is no part of a code point becomes its surrogate. -/
def ofBytes : List UInt8 → Text
  | [] => []
  | b :: rest =>
    match first? (b :: rest) with
    | some (c, n) => c :: ofBytes (rest.drop (n - 1))
    | none => CodePoint.ofNat (0xdc00 + b.toNat) :: ofBytes rest
termination_by bs => bs.length
decreasing_by all_goals simp only [List.length_drop, List.length_cons]; omega

/-- The text that the file system gives for the bytes of a text. -/
def plain (t : Text) : Text := if t.any standsForByte then ofBytes (bytes t) else t

theorem plain_eq_self {t : Text} (h : t.any standsForByte = false) : plain t = t := by
  simp [plain, h]

end PackageAudit.Name
