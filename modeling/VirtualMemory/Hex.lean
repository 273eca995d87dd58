/-!
# Hexadecimal text

Words are written in lower-case hexadecimal. Addresses and raw bits carry the mark `0x`
(`Hex.text`); a fixed-width column pads the digits with zeros (`Hex.padded`).
-/

namespace VirtualMemory

namespace Hex

variable {w : Nat}

/-- The digits of a word, without leading zeros; zero is written `0`. -/
def digits (x : BitVec w) : String := String.ofList (Nat.toDigits 16 x.toNat)

def text (x : BitVec w) : String := "0x" ++ digits x

/-- The mark `0x` and at least `count` digits, filled up with zeros. -/
def padded (count : Nat) (x : BitVec w) : String :=
  "0x" ++ String.ofList (List.replicate (count - (digits x).length) '0') ++ digits x

end Hex

/-- **A record as text**: its name and its fields, each behind its label, in braces. -/
def recordText (name : String) (fields : List (String × String)) : String :=
  name ++ " \x7b " ++ ", ".intercalate (fields.map fun f => f.1 ++ ": " ++ f.2) ++ " \x7d"

end VirtualMemory
