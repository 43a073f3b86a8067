import Assembler.Text

namespace Assembler

structure Decimal where
  digits : Nat
  exponent : Int
  deriving DecidableEq, Repr

structure Binary64 where
  significand : Nat
  exponent : Int
  -- the gap below the least significand of a binade is half as wide as the gap above it
  narrowBelow : Bool
  deriving DecidableEq, Repr

namespace Binary64

def ofBits (bits : UInt64) : Binary64 :=
  let fraction : Nat := bits.toNat % 0x10000000000000
  let biased : Nat := bits.toNat / 0x10000000000000 % 0x800
  if biased = 0 then ⟨fraction, -1074, false⟩
  else ⟨0x10000000000000 + fraction, (biased : Int) - 1075, fraction = 0 && biased ≠ 1⟩

def quarter (x : Binary64) : Nat := 1 <<< (x.exponent - 2).toNat

def scale (x : Binary64) : Nat := 1 <<< (2 - x.exponent).toNat

def value (x : Binary64) : Nat := 4 * x.significand * x.quarter

def low (x : Binary64) : Nat := (4 * x.significand - if x.narrowBelow then 1 else 2) * x.quarter

def high (x : Binary64) : Nat := (4 * x.significand + 2) * x.quarter

-- Whether `n / (d * scale)` is rounded to the number: a tie goes to the even significand.
def admits (x : Binary64) (n d : Nat) : Bool :=
  if x.significand % 2 = 0 then x.low * d ≤ n && n ≤ x.high * d
  else x.low * d < n && n < x.high * d

def magnitude (x : Binary64) : Int :=
  ((Text.decimal (x.value * Nat.pow 10 400 / x.scale)).length : Int) - 401

def candidate? (x : Binary64) (count : Nat) : Option Decimal :=
  let step : Int := x.magnitude + 1 - count
  let up := Nat.pow 10 step.toNat * x.scale
  let down := Nat.pow 10 (-step).toNat
  let below := x.value * down / up
  let distanceBelow := x.value * down - below * up
  let distanceAbove := (below + 1) * up - x.value * down
  let nearer :=
    if distanceBelow < distanceAbove then below
    else if distanceAbove < distanceBelow then below + 1
    else if below % 2 = 0 then below else below + 1
  let other := if nearer = below then below + 1 else below
  if x.admits (nearer * up) down then some ⟨nearer, step⟩
  else if x.admits (other * up) down then some ⟨other, step⟩
  else none

end Binary64

namespace Decimal

def stripped (d : Decimal) : Decimal :=
  let zeros := ((Text.decimal d.digits).reverse.takeWhile (· == '0')).length
  ⟨d.digits / Nat.pow 10 zeros, d.exponent + zeros⟩

def shortest (x : Binary64) : Decimal :=
  match (List.range' 1 17).findSome? x.candidate? with
  | some d => d.stripped
  | none => ⟨0, 0⟩

structure Form where
  least : Int
  greatest : Int

def text (form : Form) (d : Decimal) : Text :=
  let digits := Text.decimal d.digits
  let point := d.exponent + digits.length
  let zeros (n : Int) : Text := List.replicate n.toNat '0'
  if point - 1 < form.least ∨ form.greatest < point - 1 then
    let fraction := if digits.length = 1 then [] else '.' :: digits.drop 1
    digits.take 1 ++ fraction ++ 'e' :: (if point ≤ 0 then '-' else '+') ::
      Text.decimal (point - 1).natAbs
  else if point ≤ 0 then '0' :: '.' :: zeros (-point) ++ digits
  else if d.exponent ≥ 0 then digits ++ zeros d.exponent ++ ['.', '0']
  else digits.take point.toNat ++ '.' :: digits.drop point.toNat

end Decimal

end Assembler
