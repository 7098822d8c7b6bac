/-!
# Phrasebook.Text.CodePoint

Texts as lists of code points.

A `String` holds characters, and what people write into documents is characters. A document can say
more: an escape may name one half of a surrogate pair, which is a code point but no character. Two
halves that come to stand side by side stay two code points, and differ from the character that a
pair of them encodes elsewhere. So keys and phrases are texts of code points, and every `String` is
one of them (`Text.ofString_inj`).

White space is what has the Unicode property White_Space, and the four information separators U+001C
to U+001F. The zero-width space U+200B and the byte order mark U+FEFF are none.
-/

namespace Phrasebook

structure CodePoint where
  val : Fin 0x110000
  deriving DecidableEq

namespace CodePoint

def toNat (c : CodePoint) : Nat :=
  c.val

def ofNat? (n : Nat) : Option CodePoint :=
  if h : n < 0x110000 then some ⟨n, h⟩ else none

theorem toNat_char_lt (c : Char) : c.toNat < 0x110000 := by
  have valid : c.toNat.isValidChar := c.valid
  unfold Nat.isValidChar at valid
  omega

def ofChar (c : Char) : CodePoint :=
  ⟨c.toNat, toNat_char_lt c⟩

theorem ofChar_inj {c d : Char} : ofChar c = ofChar d ↔ c = d := by
  constructor
  · intro h
    have numbers : c.toNat = d.toNat := congrArg (fun p => p.val.val) h
    exact Char.toNat_inj.mp numbers
  · rintro rfl
    rfl

end CodePoint

instance : Coe Char CodePoint := ⟨CodePoint.ofChar⟩

/-- A text of code points. -/
abbrev Text := List CodePoint

namespace Text

/-- Whether two texts are the same: goes along both as far as they agree. Looking a key up compares
    many texts, which this instance does faster than the one for all lists. -/
def decideEq : (s t : Text) → Decidable (s = t)
  | [], [] => isTrue rfl
  | [], d :: t => isFalse (List.cons_ne_nil d t).symm
  | c :: s, [] => isFalse (List.cons_ne_nil c s)
  | c :: s, d :: t =>
    if h : c = d then
      match decideEq s t with
      | isTrue same => isTrue (h ▸ same ▸ rfl)
      | isFalse differ => isFalse fun e => differ (List.cons.inj e).2
    else isFalse fun e => h (List.cons.inj e).1

instance : DecidableEq Text := decideEq

def ofChars (chars : List Char) : Text :=
  chars.map CodePoint.ofChar

def ofString (string : String) : Text :=
  ofChars string.toList

theorem ofString_inj {s t : String} : ofString s = ofString t ↔ s = t := by
  constructor
  · intro h
    exact String.toList_injective (List.map_inj_right (fun _ _ => CodePoint.ofChar_inj.mp) |>.mp h)
  · rintro rfl
    rfl

/-! ### Digits -/

def isDigit (c : Char) : Bool :=
  '0' ≤ c && c ≤ '9'

/-- The greatest number of digits that are read as one number. -/
def maxDigits : Nat := 4300

/-- A number in lower-case hexadecimal, with at least `width` digits. -/
def hex (width : Nat) (n : Nat) : String :=
  let digits := Nat.toDigits 16 n
  String.ofList (List.replicate (width - digits.length) '0' ++ digits)

/-- The value of a hexadecimal digit, in either case. -/
def hexDigit? (c : Char) : Option Nat :=
  if '0' ≤ c && c ≤ '9' then some (c.toNat - '0'.toNat)
  else if 'a' ≤ c && c ≤ 'f' then some (c.toNat - 'a'.toNat + 10)
  else if 'A' ≤ c && c ≤ 'F' then some (c.toNat - 'A'.toNat + 10)
  else none

/-! ### White space -/

/-- Whether a code point is white space, by its number. -/
def isBlankNumber (n : Nat) : Bool :=
  (0x09 ≤ n && n ≤ 0x0D) || (0x1C ≤ n && n ≤ 0x20) || n = 0x85 || n = 0xA0 || n = 0x1680 ||
    (0x2000 ≤ n && n ≤ 0x200A) || n = 0x2028 || n = 0x2029 || n = 0x202F || n = 0x205F || n = 0x3000

def isBlank (c : Char) : Bool :=
  isBlankNumber c.toNat

/-- What is left of some characters without the white space at their end. -/
def trimEndChars (chars : List Char) : List Char :=
  (chars.reverse.dropWhile isBlank).reverse

def trim (text : Text) : Text :=
  let isBlank (c : CodePoint) : Bool := isBlankNumber c.toNat
  ((text.dropWhile isBlank).reverse.dropWhile isBlank).reverse

end Text

instance : Coe String Text := ⟨Text.ofString⟩

end Phrasebook
