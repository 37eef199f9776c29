/-!
This module contains the shortest decimal number that reads back as a given binary number. A binary
number `m * 2 ^ q` owns the interval of all reals that round to it; of the grids `10 ^ e * ℕ` the
coarsest one with a point in that interval holds the answer.
-/

namespace SwitchSearch.Decimal

structure Binary where
  mantissa : Nat
  exponent : Int

structure Scaled where
  digits : Nat
  exponent : Int

structure Ratio where
  num : Nat
  den : Nat

namespace Ratio

def lt (a b : Ratio) : Bool := a.num * b.den < b.num * a.den

def le (a b : Ratio) : Bool := a.num * b.den ≤ b.num * a.den

end Ratio

namespace Binary

/--
The leading bit of a mantissa. Floats store the 52 bits below it only, and the least exponent tells
that the bit is missing.
-/
def implicitBit : Nat := 0x10000000000000

def minExponent : Int := -1074

def ofFloat (x : Float) : Binary :=
  let bits := x.toBits.toNat
  let stored := bits % implicitBit
  let biased := bits / implicitBit % 0x800
  if biased = 0 then
    { mantissa := stored, exponent := minExponent }
  else
    { mantissa := implicitBit + stored, exponent := minExponent + (biased - 1 : Nat) }

def ratio (quarters : Nat) (exponent : Int) : Ratio :=
  match exponent with
  | .ofNat e => { num := quarters <<< e, den := 4 }
  | .negSucc e => { num := quarters, den := 4 <<< (e + 1) }

def value (b : Binary) : Ratio :=
  ratio (4 * b.mantissa) b.exponent

def upper (b : Binary) : Ratio :=
  ratio (4 * b.mantissa + 2) b.exponent

def lower (b : Binary) : Ratio :=
  if b.mantissa = implicitBit ∧ minExponent < b.exponent then
    ratio (4 * b.mantissa - 1) b.exponent
  else
    ratio (4 * b.mantissa - 2) b.exponent

def owns (b : Binary) (r : Ratio) : Bool :=
  if b.mantissa % 2 = 0 then
    b.lower.le r && r.le b.upper
  else
    b.lower.lt r && r.lt b.upper

end Binary

namespace Scaled

def ratio (s : Scaled) : Ratio :=
  match s.exponent with
  | .ofNat e => { num := s.digits * Nat.pow 10 e, den := 1 }
  | .negSucc e => { num := s.digits, den := Nat.pow 10 (e + 1) }

def floor (r : Ratio) (exponent : Int) : Scaled where
  digits := match exponent with
    | .ofNat e => r.num / (r.den * Nat.pow 10 e)
    | .negSucc e => r.num * Nat.pow 10 (e + 1) / r.den
  exponent := exponent

def next (s : Scaled) : Scaled :=
  { s with digits := s.digits + 1 }

end Scaled

def reachesMiddle (low : Scaled) (r : Ratio) : Bool :=
  let double := low.ratio.num + low.next.ratio.num
  Ratio.le { num := double, den := 2 * low.ratio.den } r

/--
The point of the grid `10 ^ exponent * ℕ` that reads back as `b` and is nearest to it, the upper one
of two equally near points.
-/
def onGrid? (b : Binary) (exponent : Int) : Option Scaled :=
  let low := Scaled.floor b.value exponent
  let high := low.next
  match b.owns low.ratio, b.owns high.ratio with
  | true, true => if reachesMiddle low b.value then some high else some low
  | true, false => some low
  | false, true => some high
  | false, false => none

def gridExponents : List Int :=
  (List.range 640).map fun (i : Nat) => 310 - (i : Int)

def shortest (b : Binary) : Scaled :=
  (gridExponents.findSome? (onGrid? b)).getD { digits := 0, exponent := 0 }

end SwitchSearch.Decimal
