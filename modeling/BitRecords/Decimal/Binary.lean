import BitRecords.Decimal.Shortest

/-!
# Binary floating-point patterns and their text

A bit pattern of a binary format is a sign, a biased exponent and a fraction.
Its text is the shortest decimal that reads back, in positional notation.
-/

namespace BitRecords

/-- A binary interchange format, by the widths of its two lower parts. -/
structure BinaryFormat where
  fractionBits : Nat
  exponentBits : Nat
deriving DecidableEq

/-- What a bit pattern stands for. -/
inductive BinaryNumber where
  | nan
  | infinite (negative : Bool)
  | zero (negative : Bool)
  | finite (negative : Bool) (magnitude : RoundingInterval)
deriving DecidableEq

namespace BinaryFormat

def single : BinaryFormat := ⟨23, 8⟩

def double : BinaryFormat := ⟨52, 11⟩

/-- The exponent of the unit of the smallest numbers. -/
def minExponent (f : BinaryFormat) : Int :=
  2 - (1 <<< (f.exponentBits - 1) : Nat) - f.fractionBits

/-- Decodes sign, biased exponent and fraction. Below a number with fraction
zero the unit halves, since the number is the first of its binade; the smallest
normal number is the exception, since the unit below it is the same. -/
def number (f : BinaryFormat) (bits : Nat) : BinaryNumber :=
  let hidden := 1 <<< f.fractionBits
  let fraction := bits % hidden
  let biased := (bits >>> f.fractionBits) % (1 <<< f.exponentBits)
  let negative := (bits >>> (f.fractionBits + f.exponentBits)) % 2 == 1
  if biased == (1 <<< f.exponentBits) - 1 then
    if fraction == 0 then .infinite negative else .nan
  else if biased == 0 then
    if fraction == 0 then .zero negative
    else .finite negative (.ofBinary fraction f.minExponent false)
  else
    .finite negative
      (.ofBinary (hidden + fraction) (f.minExponent + (biased - 1))
        (fraction == 0 && biased != 1))

end BinaryFormat

namespace BinaryNumber

/-- Puts the sign in front of the text of a magnitude. -/
def signed (negative : Bool) (magnitude : String) : String :=
  if negative then "-" ++ magnitude else magnitude

/-- Zero keeps its sign and NaN has none. -/
def text : BinaryNumber → String
  | nan => "NaN"
  | infinite negative => signed negative "inf"
  | zero negative => signed negative "0"
  | finite negative magnitude => signed negative magnitude.shortest.positional

end BinaryNumber

end BitRecords
