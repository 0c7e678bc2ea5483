import EbLang.Binary64

/-!
# Shortest decimal text

A binary64 number is written with the fewest digits that read back as the same number, and of those
with the digits nearest to it, an exact tie going up.

The decimals that read back as `m · 2 ^ q` fill an interval around it, whose ends belong to it if
`m` is even.  For one, two, … seventeen digits the two neighbours of the number on that decimal grid
are tried; the first grid with a neighbour inside the interval gives the digits.
-/

namespace EbLang.Binary64

/-- A positive number `units · 2 ^ exponent`. -/
structure Scaled where
  /-- How many units. -/
  units : Nat
  /-- The power of two of one unit. -/
  exponent : Int

def compareDecimal (c : Nat) (g : Int) (x : Scaled) : Ordering :=
  compare (c * tenPow g.toNat * twoPow (-x.exponent).toNat)
    (x.units * twoPow x.exponent.toNat * tenPow (-g).toNat)

/-- The interval of reals that round to a finite number. -/
structure Neighbourhood where
  low : Scaled
  /-- The number itself. -/
  mid : Scaled
  /-- The upper end. -/
  high : Scaled
  /-- Whether the ends belong to the interval. -/
  closed : Bool

/-- The reals that round to `m · 2 ^ q`.  Just above a power of two the numbers below are twice as
dense as those above. -/
def neighbourhood (m : Nat) (q : Int) : Neighbourhood where
  low := ⟨if m = leadingBit ∧ q ≠ -1074 then 4 * m - 1 else 4 * m - 2, q - 2⟩
  mid := ⟨4 * m, q - 2⟩
  high := ⟨4 * m + 2, q - 2⟩
  closed := m % 2 == 0

/-- Whether `c · 10 ^ g` reads back as the number. -/
def Neighbourhood.accepts (n : Neighbourhood) (c : Nat) (g : Int) : Bool :=
  (match compareDecimal c g n.low with
    | .lt => false
    | .eq => n.closed
    | .gt => true) &&
  (match compareDecimal c g n.high with
    | .lt => true
    | .eq => n.closed
    | .gt => false)

def floorUnits (x : Scaled) (g : Int) : Nat :=
  x.units * twoPow x.exponent.toNat * tenPow (-g).toNat /
    (twoPow (-x.exponent).toNat * tenPow g.toNat)

/-- The neighbour of the number on the grid of `10 ^ g` that reads back as it, the nearer one if
both do. -/
def onGrid? (n : Neighbourhood) (g : Int) : Option Nat :=
  let c := floorUnits n.mid g
  let below := n.accepts c g
  let above := n.accepts (c + 1) g
  if below && above then
    -- The midpoint of the two neighbours decides, and a tie goes up.
    match compareDecimal (10 * c + 5) (g - 1) n.mid with
    | .gt => some c
    | _ => some (c + 1)
  else if below then some c
  else if above then some (c + 1)
  else none

/-- The least exponent `p` with the number below `10 ^ p`, found from its binary logarithm. -/
def decimalExponent (m : Nat) (q : Int) : Int :=
  let p := (q + m.log2) * 30103 / 100000 + 1
  match compareDecimal 1 p ⟨m, q⟩ with
  | .gt => p
  | _ => p + 1

/-- The first of the next `count` grids, from `10 ^ g` down, with a hit. -/
def searchGrids (n : Neighbourhood) (g : Int) : Nat → Option (Nat × Int)
  | 0 => none
  | count + 1 =>
    match onGrid? n g with
    | some c => some (c, g)
    | none => searchGrids n (g - 1) count

/-- The digits without the zeros at their end. -/
def stripZeros (ds : List Char) : List Char := (ds.reverse.dropWhile (· == '0')).reverse

/-- The shortest digits of `m · 2 ^ q` and the power of ten `p` for which the number is
`0.digits · 10 ^ p`. -/
def shortestDigits (m : Nat) (q : Int) : List Char × Int :=
  match searchGrids (neighbourhood m q) (decimalExponent m q - 1) 17 with
  | none => ([], 0)
  | some (c, g) =>
    let ds := Nat.toDigits 10 c
    (stripZeros ds, g + ds.length)

/-! ## Layout of the digits -/

/-- Where the text of a number turns from plain to exponent form. -/
structure Layout where
  /-- Numbers `0.digits · 10 ^ p` with `p` at most this are written with an exponent. -/
  smallest : Int
  /-- Numbers `0.digits · 10 ^ p` with `p` above this are written with an exponent. -/
  largest : Int

/-- Plain form from `0.0001` to below `10 ^ 16`. -/
def plainLayout : Layout := ⟨-4, 16⟩

/-- Plain form, with at least one digit on either side of the point. -/
def plainText (ds : List Char) (p : Int) : List Char :=
  if p ≤ 0 then ['0', '.'] ++ List.replicate (-p).toNat '0' ++ ds
  else
    let n := p.toNat
    let whole := ds.take n ++ List.replicate (n - ds.length) '0'
    let part := ds.drop n
    whole ++ ['.'] ++ if part.isEmpty then ['0'] else part

/-- Exponent form, with one digit before the point and no point without need. -/
def exponentText (ds : List Char) (p : Int) : List Char :=
  let part := ds.drop 1
  ds.take 1 ++ (if part.isEmpty then [] else '.' :: part) ++ ['e'] ++ (toString (p - 1)).toList

def toText (x : Binary64) : String :=
  match x.view with
  | .nan => "NaN"
  | .infinite s => if s then "-inf" else "inf"
  | .finite s m q =>
    let body :=
      if m = 0 then ['0', '.', '0']
      else
        let (ds, p) := shortestDigits m q
        if p ≤ plainLayout.smallest ∨ plainLayout.largest < p then exponentText ds p
        else plainText ds p
    String.ofList (if s then '-' :: body else body)

end EbLang.Binary64
