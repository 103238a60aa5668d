/-!
# Query strings

Parameters at the end of a URL: `name=text` joined by `&`. Letters, digits and `_.-~` stand for
themselves, a blank is a plus sign, and every other character is written as the hexadecimal digits of
its UTF-8 bytes.
-/

namespace FormRules.Query

/-- Whether a byte stands for itself. -/
def isPlainByte (b : UInt8) : Bool :=
  let n := b.toNat
  (48 ≤ n && n ≤ 57) || (65 ≤ n && n ≤ 90) || (97 ≤ n && n ≤ 122) || n = 95 || n = 46 || n = 45 || n = 126

/-- The digit of a number below sixteen. -/
def hexDigit (n : Nat) : Char := Char.ofNat (if n < 10 then 48 + n else 55 + n)

def encodeByte (b : UInt8) : List Char :=
  if isPlainByte b then [Char.ofNat b.toNat]
  else if b.toNat = 32 then ['+']
  else ['%', hexDigit (b.toNat / 16), hexDigit (b.toNat % 16)]

def encode (s : String) : String := String.ofList (s.toUTF8.toList.flatMap encodeByte)

def encodeAll (params : List (String × String)) : String :=
  "&".intercalate (params.map fun p => encode p.1 ++ "=" ++ encode p.2)

/-- A URL with parameters behind those that it may have. -/
def append (url : String) (params : List (String × String)) : String :=
  if params.isEmpty then url
  else url ++ (if url.toList.contains '?' then "&" else "?") ++ encodeAll params

end FormRules.Query
