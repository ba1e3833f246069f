import PulseNull.Json.Print

/-! A strict JSON reader: RFC grammar, paired surrogates, integers of 64 bits,
bounded nesting. Whether a float text is in range is the parameter `inRange`. -/
namespace PulseNull.Json
open Text (ascii isDigit digitsValue)

def isSpace (c : UInt8) : Bool := c = 32 || c = 10 || c = 9 || c = 13

def skipWs (inp : Bytes) : Bytes := inp.dropWhile isSpace

def expect : Bytes → Bytes → Option Bytes
  | [], inp => some inp
  | _ :: _, [] => none
  | p :: ps, c :: cs => if p = c then expect ps cs else none

def hexValue (c : UInt8) : Option Nat :=
  if isDigit c then some (c.toNat - 48)
  else if 97 ≤ c && c ≤ 102 then some (c.toNat - 87)
  else if 65 ≤ c && c ≤ 70 then some (c.toNat - 55)
  else none

def hex4 : Bytes → Option (Nat × Bytes)
  | a :: b :: c :: d :: rest => do
    let a ← hexValue a
    let b ← hexValue b
    let c ← hexValue c
    let d ← hexValue d
    return (((a * 16 + b) * 16 + c) * 16 + d, rest)
  | _ => none

/-- UTF-8 of a code point that is not a surrogate. -/
def encodeUtf8 (n : Nat) : Bytes :=
  if n < 0x80 then [UInt8.ofNat n]
  else if n < 0x800 then [UInt8.ofNat (0xC0 + n / 64), UInt8.ofNat (0x80 + n % 64)]
  else if n < 0x10000 then
    [UInt8.ofNat (0xE0 + n / 4096), UInt8.ofNat (0x80 + n / 64 % 64), UInt8.ofNat (0x80 + n % 64)]
  else
    [UInt8.ofNat (0xF0 + n / 262144), UInt8.ofNat (0x80 + n / 4096 % 64),
      UInt8.ofNat (0x80 + n / 64 % 64), UInt8.ofNat (0x80 + n % 64)]

/-- What follows `\u`. A surrogate is accepted only as the first of a pair. -/
def parseUnicode (inp : Bytes) : Option (Bytes × Bytes) := do
  let (n, rest) ← hex4 inp
  if 0xDC00 ≤ n && n ≤ 0xDFFF then none
  else if 0xD800 ≤ n && n ≤ 0xDBFF then do
    let rest ← expect [backslash, 117] rest
    let (m, rest) ← hex4 rest
    if 0xDC00 ≤ m && m ≤ 0xDFFF then
      some (encodeUtf8 (0x10000 + (n - 0xD800) * 1024 + (m - 0xDC00)), rest)
    else none
  else some (encodeUtf8 n, rest)

/-- What follows a backslash. -/
def parseEscape : Bytes → Option (Bytes × Bytes)
  | [] => none
  | c :: rest =>
    if c = quoteMark || c = backslash || c = 47 then some ([c], rest)
    else if c = 98 then some ([8], rest)
    else if c = 116 then some ([9], rest)
    else if c = 110 then some ([10], rest)
    else if c = 102 then some ([12], rest)
    else if c = 114 then some ([13], rest)
    else if c = 117 then parseUnicode rest
    else none

/-- A string after its opening quote, and what follows the closing one. -/
def parseString : Nat → Bytes → Option (Bytes × Bytes)
  | 0, _ | _ + 1, [] => none
  | fuel + 1, c :: rest =>
    if c = quoteMark then some ([], rest)
    else if c = backslash then do
      let (bs, rest) ← parseEscape rest
      let (s, rest) ← parseString fuel rest
      return (bs ++ s, rest)
    else if c < 32 then none
    else do
      let (s, rest) ← parseString fuel rest
      return (c :: s, rest)

/-- Digits of the integer part: one zero, or a run with no leading zero. -/
def parseInt : Bytes → Option (Bytes × Bytes)
  | [] => none
  | c :: rest =>
    if c = 48 then
      if rest.head?.any isDigit then none else some ([c], rest)
    else if isDigit c then some (c :: rest.takeWhile isDigit, rest.dropWhile isDigit)
    else none

/-- At least one digit. -/
def parseDigits (inp : Bytes) : Option (Bytes × Bytes) :=
  if inp.head?.any isDigit then some (inp.takeWhile isDigit, inp.dropWhile isDigit) else none

def parseFrac : Bytes → Option (Bytes × Bytes)
  | [] => some ([], [])
  | c :: rest =>
    if c = 46 then (parseDigits rest).map fun p => (c :: p.1, p.2) else some ([], c :: rest)

def parseSign : Bytes → Bytes × Bytes
  | [] => ([], [])
  | c :: rest => if c = 43 || c = minus then ([c], rest) else ([], c :: rest)

def parseExp : Bytes → Option (Bytes × Bytes)
  | [] => some ([], [])
  | c :: rest =>
    if c = 101 || c = 69 then
      (parseDigits (parseSign rest).2).map fun p => (c :: (parseSign rest).1 ++ p.1, p.2)
    else some ([], c :: rest)

/-- An integer that fits keeps its value; `-0` and everything else is a float. -/
def integer (negative : Bool) (n : Nat) : Num :=
  if negative then
    if h : 0 < n ∧ n ≤ 2^63 then .neg ⟨n - 1, by omega⟩ else .float
  else if h : n < 2^64 then .pos ⟨n, h⟩ else .float

/-- The number of a numeral, if it is one the reader can hold. -/
def numeral (inRange : Bytes → Bool) (negative : Bool) (ds frac exp : Bytes) : Option Num :=
  match if frac = [] ∧ exp = [] then integer negative (digitsValue ds) else .float with
  | .float => if inRange (ds ++ frac ++ exp) then some .float else none
  | n => some n

/-- An unsigned number. `negative` says that a minus sign was read before it. -/
def parseUnsigned (inRange : Bytes → Bool) (negative : Bool) (inp : Bytes) :
    Option (Num × Bytes) := do
  let (ds, rest) ← parseInt inp
  let (frac, rest) ← parseFrac rest
  let (exp, rest) ← parseExp rest
  (numeral inRange negative ds frac exp).map fun n => (n, rest)

def parseNumber (inRange : Bytes → Bool) : Bytes → Option (Num × Bytes)
  | [] => none
  | c :: rest =>
    if c = minus then parseUnsigned inRange true rest else parseUnsigned inRange false (c :: rest)

mutual
/-- One value and what follows it. `d` is the nesting still allowed. -/
def parseValue (inRange : Bytes → Bool) : Nat → Nat → Bytes → Option (Json × Bytes)
  | 0, _, _ => none
  | fuel + 1, d, inp =>
    match skipWs inp with
    | [] => none
    | c :: rest =>
      if c = 110 then (expect (ascii "ull") rest).map fun r => (.null, r)
      else if c = 116 then (expect (ascii "rue") rest).map fun r => (.bool true, r)
      else if c = 102 then (expect (ascii "alse") rest).map fun r => (.bool false, r)
      else if c = quoteMark then (parseString rest.length rest).map fun p => (.str p.1, p.2)
      else if c = openBracket then
        match d, skipWs rest with
        | 0, _ | _, [] => none
        | d + 1, e :: more =>
          if e = closeBracket then some (.arr [], more)
          else (parseItems inRange fuel d (e :: more)).map fun p => (.arr p.1, p.2)
      else if c = openBrace then
        match d, skipWs rest with
        | 0, _ | _, [] => none
        | d + 1, e :: more =>
          if e = closeBrace then some (.obj [], more)
          else (parseMembers inRange fuel d (e :: more)).map fun p => (.obj p.1, p.2)
      else (parseNumber inRange (c :: rest)).map fun p => (.num p.1, p.2)
/-- Items after `[` or a comma, through the closing bracket. -/
def parseItems (inRange : Bytes → Bool) : Nat → Nat → Bytes → Option (List Json × Bytes)
  | 0, _, _ => none
  | fuel + 1, d, inp => do
    let (v, rest) ← parseValue inRange fuel d inp
    match skipWs rest with
    | [] => none
    | c :: more =>
      if c = closeBracket then some ([v], more)
      else if c = comma then (parseItems inRange fuel d more).map fun p => (v :: p.1, p.2)
      else none
/-- Members after `{` or a comma, through the closing brace. -/
def parseMembers (inRange : Bytes → Bool) :
    Nat → Nat → Bytes → Option (List (Bytes × Json) × Bytes)
  | 0, _, _ => none
  | fuel + 1, d, inp => do
    let inp ← expect [quoteMark] (skipWs inp)
    let (k, rest) ← parseString inp.length inp
    let rest ← expect [colon] (skipWs rest)
    let (v, rest) ← parseValue inRange fuel d rest
    match skipWs rest with
    | [] => none
    | c :: more =>
      if c = closeBrace then some ([(k, v)], more)
      else if c = comma then (parseMembers inRange fuel d more).map fun p => ((k, v) :: p.1, p.2)
      else none
end

/-- Containers a document may nest. -/
def maxDepth : Nat := 127

/-- A whole document: one value with nothing but whitespace around it. -/
def parse (inRange : Bytes → Bool) (inp : Bytes) : Option Json := do
  let (v, rest) ← parseValue inRange (inp.length + 1) maxDepth inp
  if skipWs rest = [] then some v else none

end PulseNull.Json
