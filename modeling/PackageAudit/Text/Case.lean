import PackageAudit.Text.Basic
import PackageAudit.Text.CaseTable

/-! # Case

`Text.lower` is the full lower-case form: one code point has a form of two (U+0130), and a capital
sigma becomes the final sigma at the end of a word, that is, when the nearest code point before it
that is not case-ignorable is cased and the nearest one after it is not.

`CodePoint.foldsTo` compares a code point with an ASCII letter without regard to case; besides the
two letters themselves, U+0130 and U+0131 count as `i`, U+017F as `s` and U+212A as `k`.
-/

namespace PackageAudit

namespace CodePoint

def isCased (c : CodePoint) : Bool := CaseTable.inRuns CaseTable.casedRuns c.val

def isCaseIgnorable (c : CodePoint) : Bool := CaseTable.inRuns CaseTable.ignorableRuns c.val

/-- The lower-case partner of a code point, which is the code point itself if it has no other. -/
def lower (c : CodePoint) : CodePoint :=
  if c.val < 0x80 then
    if 65 ≤ c.val ∧ c.val ≤ 90 then ofNat (c.val + 32) else c
  else
    match CaseTable.lowerRows.find? fun (first, last, step, _) =>
        first ≤ c.val && c.val ≤ last && (c.val - first) % step == 0 with
    | some (_, _, _, offset) => ofNat (c.val + offset).toNat
    | none => c

/-- Are a code point and a lower-case ASCII letter the same up to case? Any other second argument is
compared as it stands. -/
def foldsTo (c letter : CodePoint) : Bool :=
  c == letter || (65 ≤ c.val && c.val ≤ 90 && c.val + 32 == letter.val) ||
  (c.val == 0x130 && letter.val == 105) || (c.val == 0x131 && letter.val == 105) ||
  (c.val == 0x17f && letter.val == 115) || (c.val == 0x212a && letter.val == 107)

end CodePoint

namespace Text

/-- The case of the nearest code point that is not case-ignorable. -/
def startsCased (t : Text) : Bool :=
  match t.dropWhile CodePoint.isCaseIgnorable with
  | [] => false
  | c :: _ => c.isCased

/-- Lower-case form of `t` when `before` precedes it, nearest first; the result is backwards and in
front of `done`. -/
def collectLower (before done : Text) : Text → Text
  | [] => done.reverse
  | c :: rest =>
    let image : Text :=
      if c.val = 0x3a3 then
        [CodePoint.ofNat (if startsCased before && !startsCased rest then 0x3c2 else 0x3c3)]
      else if c.val = 0x130 then [CodePoint.ofNat 0x307, CodePoint.ofChar 'i']
      else [c.lower]
    collectLower (c :: before) (image ++ done) rest

/-- The lower-case form of a text. -/
def lower (t : Text) : Text := collectLower [] [] t

/-- The text with its ASCII letters in lower case and all else as it is. -/
def asciiLower (t : Text) : Text := t.map fun c => if c.val < 0x80 then c.lower else c

/-- Does the text begin with a lower-case ASCII word, up to case? -/
def startsWithFolded (t word : Text) : Bool :=
  match word, t with
  | [], _ => true
  | _ :: _, [] => false
  | w :: ws, c :: cs => c.foldsTo w && startsWithFolded cs ws

/-- Is the text a lower-case ASCII word, up to case? -/
def foldsTo (t word : Text) : Bool := t.length == word.length && t.startsWithFolded word

end Text

end PackageAudit
