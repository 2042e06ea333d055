import TreeQuery.Text.Printable

/-!
# Quoted text

How a text or a byte sequence is written inside a message. The quotes are apostrophes, or
double quotes when the text holds an apostrophe and no double quote. A backslash and the
chosen quote are escaped (in buffers of bytes the apostrophe instead), line feeds, carriage
returns and tabs have short escapes, and any other unprintable character is written as its
hexadecimal code point in the narrowest of three widths.
-/

namespace TreeQuery.Text

/-- The character U+0027. -/
def apostrophe : Char := Char.ofNat 0x27

/-- The quote in which a text is written. -/
def quoteFor (text : List Char) : Char :=
  if apostrophe ∈ text ∧ '"' ∉ text then '"' else apostrophe

/-- The lower-case hexadecimal digits of `n`, at least `width` of them. -/
def hexDigits (width n : Nat) : List Char :=
  let digits := Nat.toDigits 16 n
  List.replicate (width - digits.length) '0' ++ digits

/-- The escape of a code point in the narrowest width that holds it. -/
def codeEscape (n : Nat) : List Char :=
  if n < 0x100 then '\\' :: 'x' :: hexDigits 2 n
  else if n < 0x10000 then '\\' :: 'u' :: hexDigits 4 n
  else '\\' :: 'U' :: hexDigits 8 n

/-- The escapes that do not depend on what counts as printable. -/
def shortEscape? (quote c : Char) : Option (List Char) :=
  if c = '\\' ∨ c = quote then some ['\\', c]
  else if c = '\n' then some ['\\', 'n']
  else if c = '\r' then some ['\\', 'r']
  else if c = '\t' then some ['\\', 't']
  else none

def escapeChar (quote c : Char) : List Char :=
  (shortEscape? quote c).getD (if isPrintable c then [c] else codeEscape c.toNat)

def quoteChars (text : List Char) : List Char :=
  let quote := quoteFor text
  quote :: text.flatMap (escapeChar quote) ++ [quote]

/-- A text in quotes, all unprintable characters escaped. -/
def quoted (text : String) : String :=
  String.ofList (quoteChars text.toList)

def escapeByte (quote : Char) (byte : UInt8) : List Char :=
  let c := Char.ofNat byte.toNat
  (shortEscape? quote c).getD
    (if 0x20 ≤ byte ∧ byte < 0x7f then [c] else codeEscape byte.toNat)

/-- The quote in which bytes are written. -/
def quoteForBytes (bytes : List UInt8) : Char :=
  quoteFor (bytes.map fun byte => Char.ofNat byte.toNat)

/-- Bytes in quotes after the letter `b`, one sort of quote escaped among them: the bytes of
printable ASCII stand for themselves. -/
def bytesInQuotes (quote escaped : Char) (bytes : List UInt8) : String :=
  String.ofList ('b' :: quote :: bytes.flatMap (escapeByte escaped) ++ [quote])

/-- Fixed bytes: the chosen quote is escaped. -/
def quotedBytes (bytes : List UInt8) : String :=
  bytesInQuotes (quoteForBytes bytes) (quoteForBytes bytes) bytes

/-- Bytes of a buffer: apostrophes are escaped, whichever quote is chosen. -/
def quotedBuffer (bytes : List UInt8) : String :=
  bytesInQuotes (quoteForBytes bytes) apostrophe bytes

end TreeQuery.Text
