import Formulary.Random
import Formulary.Space

/-!
# Seeds given as text

A text that is a decimal number, with white space around it, is that seed. Any other text is hashed,
byte by byte and with its white space.
-/

namespace Formulary.Seed

/-- The number that decimal digits write. -/
def ofDigits (cs : List Char) : Nat := cs.foldl (fun n c => 10 * n + (c.toNat - '0'.toNat)) 0

/-- The characters without a leading plus sign. -/
def unsigned : List Char → List Char
  | '+' :: cs => cs
  | cs => cs

/-- The 64-bit number that a text writes in decimal. -/
def number? (cs : List Char) : Option UInt64 :=
  let digits := unsigned cs
  if !digits.isEmpty && digits.all Char.isDigit && ofDigits digits < UInt64.size then
    some (UInt64.ofNat (ofDigits digits))
  else none

/-- The hash of bytes: starting from an offset, each byte is mixed in by an exclusive or and a
multiplication with a prime. -/
def hash (bytes : List UInt8) : UInt64 :=
  bytes.foldl (fun h b => (h ^^^ b.toUInt64) * 0x00000100000001b3) 0xcbf29ce484222325

/-- The seed that a text stands for. -/
def ofText (text : String) : UInt64 :=
  (number? (Space.trim text.toList)).getD (hash text.toUTF8.toList)

end Formulary.Seed
