import TemplateTree.Basic

/-!
Double-precision magnitudes in exact arithmetic: rounding a quotient to the nearest double,
reading a decimal, and the shortest decimal that reads back as a given double. All computations
are on natural numbers, so no operation of the machine's floating point is involved.
-/

namespace TemplateTree
set_option autoImplicit false

/-- The finite double `significand * 2 ^ exponent`, with fewer than 54 significant bits. -/
structure Magnitude where
  significand : Nat
  exponent : Int
deriving DecidableEq, Repr, Inhabited

namespace Magnitude

/-- The quotient to the nearest integer, a half going to the even neighbour. -/
def roundDiv (num den : Nat) : Nat :=
  let floor := num / den
  let twice := 2 * (num % den)
  if twice < den then floor
  else if den < twice then floor + 1
  else floor + floor % 2

/-- A quotient measured in units of `base ^ power`. -/
def inUnits (base num den : Nat) (power : Int) : Nat × Nat :=
  if 0 ≤ power then (num, den * base.pow power.toNat) else (num * base.pow (-power).toNat, den)

/-- The double nearest to a quotient, or nothing when it would be infinite. -/
def ofQuotient (num den : Nat) : Option Magnitude :=
  let least : Int := max ((Nat.log2 num : Int) - Nat.log2 den - 53) (-1074)
  let rounded := fun power =>
    let units := inUnits 2 num den power
    roundDiv units.1 units.2
  [least, least + 1, least + 2].findSome? fun power =>
    if rounded power < Nat.pow 2 53 then
      if power ≤ 971 then some ⟨rounded power, power⟩ else none
    else none

/-- A magnitude as a quotient of naturals. -/
def quotient (m : Magnitude) : Nat × Nat := inUnits 2 m.significand 1 (-m.exponent)

def mul (a b : Magnitude) : Option Magnitude :=
  let (n, d) := a.quotient
  let (n', d') := b.quotient
  ofQuotient (n * n') (d * d')

def div (a b : Magnitude) : Option Magnitude :=
  let (n, d) := a.quotient
  let (n', d') := b.quotient
  ofQuotient (n * d') (d * n')

/-- The nearest double to a power of ten up to the largest finite one. -/
def powerOfTen (k : Nat) : Magnitude := (ofQuotient (Nat.pow 10 (min k 308)) 1).getD ⟨0, -1074⟩

/-- Divides by a power of ten, in steps that each round. -/
def shrink (m : Magnitude) (k : Nat) : Option Magnitude :=
  if m.significand = 0 then some m
  else if k ≤ 308 then m.div (powerOfTen k)
  else (m.div (powerOfTen 308)).bind fun m' => shrink m' (k - 308)
termination_by k

/-- The double for `digits * 10 ^ power`: the digits are rounded first and then scaled. -/
def ofDecimal (digits : Nat) (power : Int) : Option Magnitude :=
  (ofQuotient digits 1).bind fun m =>
    if 0 ≤ power then
      if m.significand = 0 then some m
      else if power.toNat ≤ 308 then m.mul (powerOfTen power.toNat)
      else none
    else m.shrink (-power).toNat

/-- The exponent of a quotient's leading decimal digit. -/
def leadingPower (num den : Nat) : Int :=
  let guess : Int := ((Nat.log2 num : Int) - Nat.log2 den) * 30103 / 100000
  let reaches := fun power =>
    let units := inUnits 10 num den power
    decide (units.2 ≤ units.1)
  ([guess + 2, guess + 1, guess, guess - 1].find? reaches).getD (guess - 2)

/-- Whether a decimal reads back as the magnitude: it lies no further away than half the
distance to the neighbouring doubles, the ends belonging to an even significand. -/
def readsBack (m : Magnitude) (digits : Nat) (power : Int) : Bool :=
  let unit := m.exponent - 2
  let lower := 4 * m.significand -
    (if m.significand = Nat.pow 2 52 ∧ -1074 < m.exponent then 1 else 2)
  let upper := 4 * m.significand + 2
  let (n, d) := if 0 ≤ power then (digits * Nat.pow 10 power.toNat, 1)
    else (digits, Nat.pow 10 (-power).toNat)
  let (n, d) := inUnits 2 n d unit
  if m.significand % 2 = 0 then lower * d ≤ n && n ≤ upper * d
  else lower * d < n && n < upper * d

/-- The fewest digits that read back, and the power of ten they are scaled by. Of two such
decimals of one length the nearer is taken. -/
def shortest (m : Magnitude) : Nat × Int :=
  let (num, den) := m.quotient
  let top := leadingPower num den
  let onGrid := fun (count : Nat) =>
    let power := top + 1 - count
    let units := inUnits 10 num den power
    let near := roundDiv units.1 units.2
    let floor := units.1 / units.2
    let other := if near = floor then floor + 1 else floor
    if m.readsBack near power then some (near, power)
    else if m.readsBack other power then some (other, power)
    else none
  ((List.range 17).findSome? fun i => onGrid (i + 1)).getD (0, 0)

/-- Decimal digits without the zeros at their end, and the power of ten that these were worth. -/
def dropTrailingZeros (digits : Nat) (power : Int) : Nat × Int :=
  if digits = 0 then (0, power)
  else if digits % 10 = 0 then dropTrailingZeros (digits / 10) (power + 1)
  else (digits, power)
termination_by digits

/-- Decimals whose leading digit is worth between these powers of ten are written with a point. -/
def positionalRange : Int × Int := (-5, 15)

/-- The magnitude's shortest decimal: with a point, and at least one digit after it, or with an
exponent that always carries its sign. -/
def render (m : Magnitude) : String :=
  if m.significand = 0 then "0.0"
  else
    let (digits, power) := m.shortest
    let (digits, power) := dropTrailingZeros digits power
    let text := Nat.toDigits 10 digits
    let top := power + text.length - 1
    if positionalRange.1 ≤ top ∧ top ≤ positionalRange.2 then
      if 0 ≤ power then
        String.ofList (text ++ List.replicate power.toNat '0') ++ ".0"
      else if 0 ≤ top then
        let whole := (top + 1).toNat
        String.ofList (text.take whole) ++ "." ++ String.ofList (text.drop whole)
      else "0." ++ String.ofList (List.replicate (-top - 1).toNat '0' ++ text)
    else
      let fraction := if text.length = 1 then "" else "." ++ String.ofList (text.drop 1)
      let sign := if 0 ≤ top then "+" else "-"
      String.ofList (text.take 1) ++ fraction ++ "e" ++ sign ++ toString top.natAbs

end Magnitude

end TemplateTree
