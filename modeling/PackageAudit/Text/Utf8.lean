import PackageAudit.Text.Basic

/-! # UTF-8

`Utf8.decode` reads strict UTF-8: the shortest form only, no surrogates, nothing above U+10FFFF. A
refusal names the longest beginning of a code point that went wrong, by its position and bytes.
`Utf8.encode` refuses surrogates and names the first run of them. Where a text has to be shown all
the same, `Utf8.legible` replaces them.
-/

namespace PackageAudit.Utf8

/-- Why bytes are no UTF-8. -/
inductive Flaw where
  /-- No code point begins with the byte. -/
  | badStart
  /-- The next byte cannot continue the code point. -/
  | badContinuation
  /-- The bytes end inside a code point. -/
  | truncated
deriving Repr, DecidableEq

/-- A refusal: the flaw, the position of its first byte and the bytes that belong to it. -/
structure DecodeError where
  flaw : Flaw
  position : Nat
  bytes : List UInt8
deriving Repr, DecidableEq

/-- The kinds of first byte, with the bits that they contribute. -/
inductive Lead where
  | single (bits : Nat)
  | two (bits : Nat)
  | three (bits : Nat)
  | four (bits : Nat)
  | invalid

/-- The kind of a first byte. -/
def lead (b : UInt8) : Lead :=
  let n := b.toNat
  if n < 0x80 then .single n
  else if n < 0xc2 then .invalid
  else if n < 0xe0 then .two (n - 0xc0)
  else if n < 0xf0 then .three (n - 0xe0)
  else if n < 0xf5 then .four (n - 0xf0)
  else .invalid

/-- The bits of a byte that may continue a code point. -/
def continuation? (b : UInt8) : Option Nat :=
  if 0x80 ≤ b.toNat ∧ b.toNat < 0xc0 then some (b.toNat - 0x80) else none

/-- The bits of a second byte, whose range the first byte may narrow: longer forms than needed,
surrogates and numbers above U+10FFFF end here. -/
def second? (first b : UInt8) : Option Nat :=
  (continuation? b).bind fun bits =>
    let n := first.toNat
    if (n = 0xe0 ∧ bits < 0x20) ∨ (n = 0xed ∧ 0x20 ≤ bits) ∨ (n = 0xf0 ∧ bits < 0x10) ∨
        (n = 0xf4 ∧ 0x10 ≤ bits) then none
    else some bits

/-- Decodes bytes from a position on; `done` holds the code points before it, backwards. -/
def decodeFrom (position : Nat) (done : Text) : List UInt8 → Except DecodeError Text
  | [] => .ok done.reverse
  | b :: rest =>
    match lead b with
    | .invalid => .error ⟨.badStart, position, [b]⟩
    | .single n => decodeFrom (position + 1) (CodePoint.ofNat n :: done) rest
    | .two n =>
      match rest with
      | [] => .error ⟨.truncated, position, [b]⟩
      | b1 :: rest =>
        match second? b b1 with
        | none => .error ⟨.badContinuation, position, [b]⟩
        | some n1 => decodeFrom (position + 2) (CodePoint.ofNat (n * 64 + n1) :: done) rest
    | .three n =>
      match rest with
      | [] => .error ⟨.truncated, position, [b]⟩
      | b1 :: rest =>
        match second? b b1 with
        | none => .error ⟨.badContinuation, position, [b]⟩
        | some n1 =>
          match rest with
          | [] => .error ⟨.truncated, position, [b, b1]⟩
          | b2 :: rest =>
            match continuation? b2 with
            | none => .error ⟨.badContinuation, position, [b, b1]⟩
            | some n2 =>
              decodeFrom (position + 3) (CodePoint.ofNat ((n * 64 + n1) * 64 + n2) :: done) rest
    | .four n =>
      match rest with
      | [] => .error ⟨.truncated, position, [b]⟩
      | b1 :: rest =>
        match second? b b1 with
        | none => .error ⟨.badContinuation, position, [b]⟩
        | some n1 =>
          match rest with
          | [] => .error ⟨.truncated, position, [b, b1]⟩
          | b2 :: rest =>
            match continuation? b2 with
            | none => .error ⟨.badContinuation, position, [b, b1]⟩
            | some n2 =>
              match rest with
              | [] => .error ⟨.truncated, position, [b, b1, b2]⟩
              | b3 :: rest =>
                match continuation? b3 with
                | none => .error ⟨.badContinuation, position, [b, b1, b2]⟩
                | some n3 =>
                  decodeFrom (position + 4)
                    (CodePoint.ofNat (((n * 64 + n1) * 64 + n2) * 64 + n3) :: done) rest

/-- The text that bytes encode. -/
def decode (bytes : List UInt8) : Except DecodeError Text := decodeFrom 0 [] bytes

/-- The words for a flaw. -/
def Flaw.message : Flaw → Text
  | .badStart => "invalid start byte"
  | .badContinuation => "invalid continuation byte"
  | .truncated => "unexpected end of data"

/-- The words for a refusal: one byte is shown, several are only located. -/
def DecodeError.message (e : DecodeError) : Text :=
  let place : Text :=
    match e.bytes with
    | [b] => "byte 0x" ++ Text.hex 2 b.toNat ++ " in position " ++ Text.ofNat e.position
    | bytes =>
      "bytes in position " ++ Text.ofNat e.position ++ "-" ++
        Text.ofNat (e.position + bytes.length - 1)
  "'utf-8' codec can't decode " ++ place ++ ": " ++ e.flaw.message

/-- A refusal to encode: the first run of surrogates and its position. -/
structure EncodeError where
  position : Nat
  run : Text
deriving DecidableEq

/-- The bytes of one code point. -/
def encodePoint (c : CodePoint) : List UInt8 :=
  let n := c.val
  if n < 0x80 then [n.toUInt8]
  else if n < 0x800 then [(0xc0 + n / 64).toUInt8, (0x80 + n % 64).toUInt8]
  else if n < 0x10000 then
    [(0xe0 + n / 4096).toUInt8, (0x80 + n / 64 % 64).toUInt8, (0x80 + n % 64).toUInt8]
  else
    [(0xf0 + n / 262144).toUInt8, (0x80 + n / 4096 % 64).toUInt8, (0x80 + n / 64 % 64).toUInt8,
      (0x80 + n % 64).toUInt8]

/-- The bytes that encode a text. -/
def encode (t : Text) : Except EncodeError (List UInt8) :=
  match t.findIdx? CodePoint.isSurrogate with
  | some i => .error ⟨i, (t.drop i).takeWhile CodePoint.isSurrogate⟩
  | none => .ok (t.flatMap encodePoint)

/-- The words for a refusal to encode. -/
def EncodeError.message (e : EncodeError) : Text :=
  let place : Text :=
    match e.run with
    | [c] => "character '\\u" ++ Text.hex 4 c.val ++ "' in position " ++ Text.ofNat e.position
    | run =>
      "characters in position " ++ Text.ofNat e.position ++ "-" ++
        Text.ofNat (e.position + run.length - 1)
  "'utf-8' codec can't encode " ++ place ++ ": surrogates not allowed"

/-- A text in which each surrogate is replaced by a replacement character for each of the three
bytes that it would take. -/
def legible (t : Text) : Text :=
  t.flatMap fun c => if c.isSurrogate then List.replicate 3 (CodePoint.ofNat 0xfffd) else [c]

end PackageAudit.Utf8
