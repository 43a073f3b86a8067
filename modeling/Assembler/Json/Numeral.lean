import Assembler.Text.Digit
import Assembler.Decimal.Shortest

namespace Assembler.Json

structure Numeral where
  negative : Bool
  whole : Nat
  fraction : List Digit
  exponent : Option Int
  deriving DecidableEq, Repr

inductive Number where
  | integer (n : Int)
  | floating (bits : UInt64)
  deriving DecidableEq, Repr

namespace Number

def form : Decimal.Form := ⟨-5, 15⟩

def floatText (bits : UInt64) : Text :=
  let sign := if bits.toNat < 0x8000000000000000 then [] else ['-']
  let x := Binary64.ofBits bits
  sign ++ if x.significand = 0 then ['0', '.', '0'] else (Decimal.shortest x).text form

end Number

namespace Numeral

def ofNat (n : Nat) : Numeral := ⟨false, n, [], none⟩

def withExponent (n : Numeral) (negative : Bool) (digits : Nat) : Numeral :=
  { n with exponent := some (if negative then -digits else digits) }

def text (n : Numeral) : Text :=
  let sign (b : Bool) : Text := if b then ['-'] else []
  let fraction := if n.fraction.isEmpty then [] else '.' :: n.fraction.map Digit.char
  let exponent := match n.exponent with
    | none => []
    | some e => 'e' :: sign (e < 0) ++ Text.decimal e.natAbs
  sign n.negative ++ Text.decimal n.whole ++ fraction ++ exponent

def widest : Nat := 0xFFFFFFFFFFFFFFFF

def leading (n : Nat) : Nat × Nat :=
  if n ≤ widest then (n, 0)
  else
    let rest := leading (n / 10)
    (rest.1, rest.2 + 1)
termination_by n
decreasing_by simp only [widest] at *; omega

def appendFraction : Nat → List Digit → Nat × Nat
  | n, [] => (n, 0)
  | n, d :: ds =>
      if widest < n * 10 + d then (n, 0)
      else
        let rest := appendFraction (n * 10 + d) ds
        (rest.1, rest.2 + 1)

def power (n : Nat) : Float := Float.ofScientific 1 false n

def divide (x : Float) (n : Nat) : Float :=
  if n ≤ 308 then x / power n
  else if x == 0 then x
  else divide (x / power 308) (n - 308)
termination_by n

def scaled? (digits : Nat) (exponent : Int) : Option Float :=
  let x := digits.toUInt64.toFloat
  if exponent < 0 then some (divide x exponent.natAbs)
  else if exponent ≤ 308 then
    let y := x * power exponent.toNat
    if y.isInf then none else some y
  else if digits = 0 then some x
  else none

def float? (n : Numeral) : Option Float :=
  let whole := leading n.whole
  let digits := appendFraction whole.1 n.fraction
  let exponent := (whole.2 : Int) - digits.2 + n.exponent.getD 0
  (scaled? digits.1 exponent).map fun x => if n.negative then -x else x

def integer? (n : Numeral) : Option Int :=
  if !n.fraction.isEmpty || n.exponent.isSome then none
  else if n.negative then
    if 1 ≤ n.whole ∧ n.whole ≤ 0x8000000000000000 then some (-n.whole) else none
  else if n.whole ≤ widest then some n.whole
  else none

def number? (n : Numeral) : Option Number :=
  match n.integer? with
  | some i => some (.integer i)
  | none => n.float?.map fun x => .floating x.toBits

theorem number?_ofNat {n : Nat} (h : n ≤ widest) : (ofNat n).number? = some (.integer n) := by
  simp [number?, integer?, ofNat, h]

end Numeral

end Assembler.Json
