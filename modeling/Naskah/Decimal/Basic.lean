/-!
# Decimals and their text

A decimal is a whole number of units `10 ^ exponent`. It is written without an
exponent, however long that gets.
-/

namespace Naskah

structure Decimal where
  digits : Nat
  exponent : Int
  deriving DecidableEq

def Decimal.ofDigits (cs : List Char) : Nat :=
  cs.foldl (fun n c => 10 * n + (c.toNat - '0'.toNat)) 0

/-- Positional text: zeros fill the places between the digits and the point. -/
def Decimal.text (d : Decimal) : String :=
  let digits := Nat.toDigits 10 d.digits
  match d.exponent with
  | .ofNat k => String.ofList (digits ++ List.replicate k '0')
  | .negSucc k =>
    let places := k + 1
    let padded := List.replicate (places + 1 - digits.length) '0' ++ digits
    let whole := padded.length - places
    String.ofList (padded.take whole ++ '.' :: padded.drop whole)

end Naskah
