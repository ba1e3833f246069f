import PulseNull.Text.Bytes

/-! Texts by character: ASCII case, whitespace as `char::is_whitespace` knows it, trimming and
truncation at character boundaries. -/
namespace PulseNull.Text

def toAsciiLower (c : UInt8) : UInt8 := if 65 ≤ c && c ≤ 90 then c + 32 else c

def eqIgnoreAsciiCase (a b : Bytes) : Bool := a.map toAsciiLower = b.map toAsciiLower

def contains (part text : Bytes) : Bool := text.tails.any part.isPrefixOf

def isAsciiControl (c : UInt8) : Bool := c < 32 || c = 127

/-- The bytes after a leading whitespace character. -/
def stripBlank : Bytes → Option Bytes
  | 194 :: c :: rest => if c = 133 || c = 160 then some rest else none
  | 225 :: 154 :: 128 :: rest => some rest
  | 226 :: 128 :: c :: rest =>
    if (128 ≤ c && c ≤ 138) || c = 168 || c = 169 || c = 175 then some rest else none
  | 226 :: 129 :: 159 :: rest => some rest
  | 227 :: 128 :: 128 :: rest => some rest
  | c :: rest => if (9 ≤ c && c ≤ 13) || c = 32 then some rest else none
  | [] => none

/-- Nothing but whitespace: `trim().is_empty()`. -/
def blankFrom : Nat → Bytes → Bool
  | _, [] => true
  | 0, _ => false
  | n + 1, text => match stripBlank text with
    | some rest => blankFrom n rest
    | none => false

def blank (text : Bytes) : Bool := blankFrom text.length text

/-- What follows the leading whitespace. -/
def trimStartFrom : Nat → Bytes → Bytes
  | 0, text => text
  | n + 1, text => match stripBlank text with
    | some rest => trimStartFrom n rest
    | none => text

def trimStart (text : Bytes) : Bytes := trimStartFrom text.length text

/-- Everything up to the trailing whitespace. -/
def trimEnd : Bytes → Bytes
  | [] => []
  | c :: cs => if blank (c :: cs) then [] else c :: trimEnd cs

def trim (text : Bytes) : Bytes := trimEnd (trimStart text)

/-- The first `n` characters. -/
def takeChars : Nat → Bytes → Bytes
  | _, [] => []
  | n, c :: cs =>
    if isCont c then c :: takeChars n cs
    else match n with
      | 0 => []
      | n + 1 => c :: takeChars n cs

end PulseNull.Text
