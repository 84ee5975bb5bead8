/-!
# Shortest decimals

A positive binary64 number is `m * 2 ^ q`, and the reals between the midpoints to its two neighbours
round to it. `Rounding.shortest` is the decimal with the fewest digits among them, and the nearest
of those.
-/

namespace Lox.Decimal

/-- What the bits of a binary64 number say. -/
inductive Parts where
  | nan
  | infinite (negative : Bool)
  /-- The number is `significand * 2 ^ exponent`, negated or not. -/
  | finite (negative : Bool) (significand : Nat) (exponent : Int)
  deriving DecidableEq, Repr

/-- The bit above the fifty-two bits of a fraction. -/
def hidden : Nat := 0x10000000000000

/-- One sign bit, eleven bits of exponent and fifty-two of fraction. -/
def Parts.ofFloat (x : Float) : Parts :=
  let bits : Nat := x.toBits.toNat
  let negative := decide (0x8000000000000000 ≤ bits)
  let exponent : Nat := bits / hidden % 0x800
  let fraction : Nat := bits % hidden
  if exponent = 2047 then
    if fraction = 0 then .infinite negative else .nan
  else if exponent = 0 then .finite negative fraction (-1074)
  else .finite negative (hidden + fraction) (exponent - 1075)

/-- A number and the interval that rounds to it, as numerators over one denominator. -/
structure Rounding where
  value : Nat
  low : Nat
  high : Nat
  denominator : Nat
  /-- Whether the two ends round to the number as well. -/
  closed : Bool

/-- Half a unit to each side, but a quarter below a power of two, where the spacing halves. -/
def Rounding.ofParts (significand : Nat) (exponent : Int) : Rounding :=
  let up := Nat.pow 2 exponent.toNat
  let below := if significand = hidden ∧ -1074 < exponent then 1 else 2
  { value := 4 * significand * up
    low := (4 * significand - below) * up
    high := (4 * significand + 2) * up
    denominator := 4 * Nat.pow 2 (-exponent).toNat
    closed := significand % 2 = 0 }

def Rounding.inUnits (r : Rounding) (k : Int) : Rounding :=
  let scale := Nat.pow 10 (-k).toNat
  { value := r.value * scale
    low := r.low * scale
    high := r.high * scale
    denominator := r.denominator * Nat.pow 10 k.toNat
    closed := r.closed }

/-- Whether the whole number `c` rounds to the value. -/
def Rounding.contains (r : Rounding) (c : Nat) : Bool :=
  let c := c * r.denominator
  if r.closed then r.low ≤ c && c ≤ r.high else r.low < c && c < r.high

/-- The whole number next to the value that rounds to it: the nearer of two, and of two as near the
upper one where `tieUp` says so of the lower. -/
def Rounding.nearest? (r : Rounding) (tieUp : Nat → Bool) : Option Nat :=
  let c := r.value / r.denominator
  match r.contains c, r.contains (c + 1) with
  | false, false => none
  | true, false => some c
  | false, true => some (c + 1)
  | true, true =>
    match compare (2 * r.value) ((2 * c + 1) * r.denominator) with
    | .lt => some c
    | .gt => some (c + 1)
    | .eq => some (if tieUp c then c + 1 else c)

def digitCount (n : Nat) : Nat := (Nat.toDigits 10 n).length

/-- The exponent of the first digit of a positive value. -/
def Rounding.magnitude (r : Rounding) : Int :=
  if r.denominator ≤ r.value then digitCount (r.value / r.denominator) - 1
  else
    let places := digitCount (r.denominator / r.value) - 1
    if r.value * Nat.pow 10 places = r.denominator then -places else -places - 1

/-- The decimal `d.ddd * 10 ^ exponent`, whose last digit is not zero. -/
structure Digits where
  digits : List Char
  exponent : Int
  deriving DecidableEq, Repr

def Digits.ofNat (c : Nat) (k : Int) : Digits :=
  let all := Nat.toDigits 10 c
  { digits := (all.reverse.dropWhile (· == '0')).reverse
    exponent := k + all.length - 1 }

def Digits.zero : Digits := ⟨['0'], 0⟩

/-- Seventeen digits tell any two binary64 numbers apart, so one of the first seventeen grids has a
hit. -/
def Rounding.shortest (r : Rounding) (tieUp : Nat → Bool) : Digits :=
  let first := r.magnitude
  let hit (n : Nat) : Option Digits :=
    ((r.inUnits (first - n)).nearest? tieUp).map (Digits.ofNat · (first - n))
  ((List.range 17).findSome? hit).getD .zero

/-- The shortest decimal that reads back as `significand * 2 ^ exponent`. -/
def Digits.shortest (significand : Nat) (exponent : Int) (tieUp : Nat → Bool) : Digits :=
  if significand = 0 then .zero else (Rounding.ofParts significand exponent).shortest tieUp

/-- Every digit of the whole part of `significand * 2 ^ exponent`. -/
def Digits.whole (significand : Nat) (exponent : Int) : Digits :=
  let n := significand * Nat.pow 2 exponent.toNat / Nat.pow 2 (-exponent).toNat
  if n = 0 then .zero else .ofNat n 0

theorem Rounding.closed_inUnits (r : Rounding) (k : Int) : (r.inUnits k).closed = r.closed := rfl

/-- What `nearest?` finds rounds to the value. -/
theorem Rounding.contains_of_nearest? {r : Rounding} {tieUp : Nat → Bool} {c : Nat}
    (h : r.nearest? tieUp = some c) : r.contains c = true := by
  simp only [Rounding.nearest?] at h
  split at h
  · cases h
  · cases h; assumption
  · cases h; assumption
  · split at h <;> cases h
    · assumption
    · assumption
    · split <;> assumption

end Lox.Decimal
