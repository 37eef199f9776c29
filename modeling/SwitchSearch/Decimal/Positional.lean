import SwitchSearch.Decimal.Shortest

/-!
This module contains the text of a float in messages: the fewest digits that read back, written out
in positions without any exponent, and no point unless digits follow it.
-/

namespace SwitchSearch.Decimal

def layout (s : Scaled) : String :=
  let digits := Nat.toDigits 10 s.digits
  match s.exponent with
  | .ofNat e => String.ofList (digits ++ List.replicate e '0')
  | .negSucc e =>
    let places := e + 1
    let padded := List.replicate (places + 1 - digits.length) '0' ++ digits
    let whole := padded.length - places
    String.ofList (padded.take whole ++ '.' :: padded.drop whole)

def positional (x : Float) : String :=
  if x.isNaN then
    "NaN"
  else
    let sign := if x.toBits >>> 63 = 0 then "" else "-"
    let magnitude :=
      if x.isInf then
        "inf"
      else
        let b := Binary.ofFloat x
        if b.mantissa = 0 then "0" else layout (shortest b)
    sign ++ magnitude

end SwitchSearch.Decimal
