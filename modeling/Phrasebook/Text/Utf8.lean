import Phrasebook.Text.Printable

/-!
# Phrasebook.Text.Utf8

Bytes as text: strict UTF-8, and one spelling for the ends of lines.

The decoder goes byte by byte. After the first byte of a character it holds the ranges in which the
bytes that follow must lie; a byte outside its range is not consumed, so an error names exactly the
bytes that could have begun a character.
-/

namespace Phrasebook.Text.Utf8

/-- Why bytes are not UTF-8. -/
inductive Reason where
  /-- No character begins with this byte. -/
  | invalidStart
  /-- A character is broken off by a byte that cannot continue it. -/
  | invalidContinuation
  /-- The bytes end within a character. -/
  | unexpectedEnd
  deriving DecidableEq

def Reason.message : Reason → String
  | .invalidStart => "invalid start byte"
  | .invalidContinuation => "invalid continuation byte"
  | .unexpectedEnd => "unexpected end of data"

/-- A run of bytes that is not UTF-8. -/
structure DecodeError where
  start : Nat
  size : Nat
  byte : UInt8
  reason : Reason

/-- The wording of an error: a single byte is shown, several are only counted. -/
def DecodeError.message (e : DecodeError) : String :=
  "'utf-8' codec can't decode " ++
    (if e.size = 1 then
      "byte 0x" ++ hex 2 e.byte.toNat ++ " in position " ++ toString e.start
    else
      "bytes in position " ++ toString e.start ++ "-" ++ toString (e.start + e.size - 1)) ++
    ": " ++ e.reason.message

/-- The ranges of the bytes that must follow a first byte, or none if no character begins with it.
    The narrower second ranges keep out long forms, surrogates and codes above U+10FFFF. -/
def continuations (lead : Nat) : Option (List (Nat × Nat)) :=
  let tail := (0x80, 0xBF)
  if lead < 0x80 then some []
  else if lead < 0xC2 then none
  else if lead < 0xE0 then some [tail]
  else if lead = 0xE0 then some [(0xA0, 0xBF), tail]
  else if lead = 0xED then some [(0x80, 0x9F), tail]
  else if lead < 0xF0 then some [tail, tail]
  else if lead = 0xF0 then some [(0x90, 0xBF), tail, tail]
  else if lead < 0xF4 then some [tail, tail, tail]
  else if lead = 0xF4 then some [(0x80, 0x8F), tail, tail]
  else none

/-- The bits of the code point that a first byte carries. -/
def leadBits (lead : Nat) : Nat :=
  if lead < 0x80 then lead else if lead < 0xE0 then lead % 0x20
  else if lead < 0xF0 then lead % 0x10 else lead % 0x08

/-- A character whose bytes have been read in part. -/
structure Partial where
  start : Nat
  byte : UInt8
  size : Nat
  code : Nat
  /-- The range of the next byte. -/
  next : Nat × Nat
  rest : List (Nat × Nat)

/-- The error of a character that is broken off. -/
def Partial.broken (p : Partial) (reason : Reason) : DecodeError :=
  ⟨p.start, p.size, p.byte, reason⟩

/-- Reads on at a position, with the characters read so far, last first. -/
def decodeFrom (position : Nat) (done : List Char) (pending : Option Partial) :
    List UInt8 → Except DecodeError (List Char)
  | [] =>
    match pending with
    | none => .ok done.reverse
    | some p => .error (p.broken .unexpectedEnd)
  | b :: bytes =>
    match pending with
    | none =>
      match continuations b.toNat with
      | none => .error ⟨position, 1, b, .invalidStart⟩
      | some [] => decodeFrom (position + 1) (Char.ofNat b.toNat :: done) none bytes
      | some (next :: rest) =>
        decodeFrom (position + 1) done (some ⟨position, b, 1, leadBits b.toNat, next, rest⟩) bytes
    | some p =>
      -- The byte that cannot follow is not part of what is broken off.
      if b.toNat < p.next.1 || p.next.2 < b.toNat then .error (p.broken .invalidContinuation)
      else
        let code := p.code * 0x40 + b.toNat % 0x40
        match p.rest with
        | [] => decodeFrom (position + 1) (Char.ofNat code :: done) none bytes
        | next :: rest =>
          decodeFrom (position + 1) done
            (some ⟨p.start, p.byte, p.size + 1, code, next, rest⟩) bytes

def decode (bytes : List UInt8) : Except DecodeError (List Char) :=
  decodeFrom 0 [] none bytes

end Phrasebook.Text.Utf8

namespace Phrasebook.Text

/-- Writes every end of a line, `\r\n`, `\r` or `\n`, as a line feed. -/
def unifyLineEnds : List Char → List Char
  | [] => []
  | '\r' :: '\n' :: rest => '\n' :: unifyLineEnds rest
  | '\r' :: rest => '\n' :: unifyLineEnds rest
  | c :: rest => c :: unifyLineEnds rest

end Phrasebook.Text
