import Mathlib.Data.Int.Bitwise
import Mathlib.Data.Nat.Size
import Sagittarius.Number.ModExpt

/-!
# Arithmetic on elliptic curves

The points of `(math ec)`, with the arithmetic of their coordinates for curves over prime fields and
over binary fields.

* `FieldMethods` : the methods that the library selects by the type of the field;
* `fpMethods` : curves `y² = x³ + ax + b` over `Fp`;
* `f2mMethods` : curves `y² + xy = x³ + ax² + b` over `F2m`, whose elements are numbers that hold
  the coefficients of a polynomial in their bits;
* `ecPointTwice`, `ecPointAdd`, `ecPointNegate`, `ecPointMul` : the operations on points.

`mod-inverse` and `mod-expt` belong to the system.  The first is a parameter; the second is
`Sg_ModExpt`, with the exponentiation in the representation of Montgomery as its parameter.
-/

namespace Sagittarius.Ec

/-- The ways in which the operations can fail. -/
inductive EcError where
  /-- `#f` where a number is needed -/
  | wrongType
  /-- `bitwise-bit-set?` of a negative index -/
  | negativeIndex
  /-- `x is zero or negative` -/
  | inverseOfZero
  /-- the loop of `f2m-inverse` does not come to an end -/
  | noEnd
  deriving DecidableEq, Repr

/-- A point; a coordinate can be `#f`. -/
structure EcPoint (C : Type) where
  x : Option C
  y : Option C
  deriving DecidableEq, Repr

/-- The point at infinity. -/
def ecInfinityPoint {C : Type} : EcPoint C := ⟨none, none⟩

/-- An affine point. -/
def makeEcPoint {C : Type} (x y : C) : EcPoint C := ⟨some x, some y⟩

/-- `field-ec-point-twice`, `field-ec-point-add` and `field-ec-point-negate` for points with the
given coordinates. -/
structure FieldMethods (C : Type) where
  twice : C → C → Except EcError (EcPoint C)
  add : C → C → C → C → Except EcError (EcPoint C)
  negate : C → C → Except EcError (EcPoint C)

/-! ### Prime fields -/

section PrimeField

variable (montgomery : ℕ → ℕ → ℕ → ℕ) (modInverse : ℤ → ℤ → ℤ)

/-- The sum modulo `p`. -/
def modAdd (a b p : ℤ) : ℤ := (a + b) % p

/-- The difference modulo `p`. -/
def modSub (a b p : ℤ) : ℤ := (a - b) % p

/-- `mod-mul`; the product is not reduced. -/
def modMul (a b p : ℤ) : ℤ := (a % p) * (b % p)

/-- The quotient modulo `p`. -/
def modDiv (a b p : ℤ) : ℤ := (a * modInverse b p) % p

/-- `mod-square` squares with `mod-expt`. -/
def modSquare (a p : ℤ) : ℤ := sgModExpt montgomery a 2 p.toNat

/-- The negative modulo `p`. -/
def modNegate (a p : ℤ) : ℤ := (-a) % p

/-- `field-ec-point-twice` for `Fp` -/
def fpTwice (p a xx xy : ℤ) : EcPoint ℤ :=
  if xy = 0 then ecInfinityPoint
  else
    let gamma := modDiv modInverse (modAdd (modMul (modSquare montgomery xx p) 3 p) a p)
      (modMul xy 2 p) p
    let x3 := modSub (modSquare montgomery gamma p) (modMul xx 2 p) p
    let y3 := modSub (modMul gamma (modSub xx x3 p) p) xy p
    makeEcPoint x3 y3

/-- `field-ec-point-add` for `Fp` -/
def fpAdd (p a xx xy yx yy : ℤ) : EcPoint ℤ :=
  if xx = yx then
    if xy = yy then fpTwice montgomery modInverse p a xx xy else ecInfinityPoint
  else
    let gamma := modDiv modInverse (modSub yy xy p) (modSub yx xx p) p
    let x3 := modSub (modSub (modSquare montgomery gamma p) xx p) yx p
    let y3 := modSub (modMul gamma (modSub xx x3 p) p) xy p
    makeEcPoint x3 y3

/-- The methods of `ec-field-fp`. -/
def fpMethods (p a : ℤ) : FieldMethods ℤ where
  twice xx xy := pure (fpTwice montgomery modInverse p a xx xy)
  add xx xy yx yy := pure (fpAdd montgomery modInverse p a xx xy yx yy)
  negate xx xy := pure (makeEcPoint xx (modNegate xy p))

end PrimeField

/-! ### Binary fields -/

/-- `ec-field-f2m`: a binary field, with its reduction polynomial. -/
structure F2mField where
  m : ℕ
  k1 : ℕ
  k2 : ℕ
  k3 : ℕ

namespace F2mField

variable (f : F2mField)

/-- `f2m-ppb?`: the polynomial is a pentanomial. -/
def ppb : Bool := !(f.k2 = 0 || f.k3 = 0)

/-- `f2m-add`: the sum of polynomials. -/
def add (x y : ℕ) : ℕ := if y = 0 then x else x ^^^ y

/-- `mult-z-mod` of `f2m-mul`: the product with `z`. -/
def multZMod (a : ℕ) : ℕ :=
  let az := a <<< 1
  if az.testBit f.m then
    let bm := (1 <<< az.size) - 1 - (1 <<< f.m)
    let r := az &&& bm
    if f.ppb then r ^^^ 1 ^^^ (1 <<< f.k1) ^^^ (1 <<< f.k2) ^^^ (1 <<< f.k3)
    else r ^^^ 1 ^^^ (1 <<< f.k1)
  else az

/-- The loop of `f2m-mul`, with `n` rounds left. -/
def mulLoop (ax : ℕ) : ℕ → ℕ → ℕ → ℕ → ℕ
  | 0, _, _, cz => cz
  | n + 1, i, bx, cz =>
    mulLoop ax n (i + 1) (f.multZMod bx) (if ax.testBit i then cz ^^^ bx else cz)

/-- `f2m-mul`: the product modulo the polynomial. -/
def mul (x y : ℕ) : ℕ :=
  f.mulLoop x (f.m - 1) 1 (f.multZMod y) (if x.testBit 0 then y else 0)

/-- The reduction polynomial, as `f2m-inverse` makes it. -/
def reduction : ℕ :=
  (1 <<< f.m) ||| 1 ||| (1 <<< f.k1) ||| (if f.ppb then 1 <<< f.k2 else 0) |||
    (if f.ppb then 1 <<< f.k3 else 0)

/-- The loop of `f2m-inverse`, which is given a number of rounds. -/
def inverseLoop : ℕ → ℕ → ℕ → ℕ → ℕ → Except EcError ℕ
  | 0, _, _, _, _ => throw .noEnd
  | n + 1, uz, vz, g1z, g2z =>
    if uz = 0 then pure g2z
    else if uz.size < vz.size then
      let j := vz.size - uz.size
      inverseLoop n (vz ^^^ (uz <<< j)) uz (g2z ^^^ (g1z <<< j)) g1z
    else
      let j := uz.size - vz.size
      inverseLoop n (uz ^^^ (vz <<< j)) vz (g1z ^^^ (g2z <<< j)) g2z

/-- `f2m-inverse`; each round makes one of the numbers shorter. -/
def inverse (x : ℕ) : Except EcError ℕ :=
  if x = 0 then throw .inverseOfZero
  else inverseLoop (x.size + f.reduction.size + 1) x f.reduction 1 0

/-- `f2m-div`: the product with the inverse. -/
def div (x y : ℕ) : Except EcError ℕ := do return f.mul x (← f.inverse y)

/-- `f2m-square`: the product of `x` with itself. -/
def square (x : ℕ) : ℕ := f.mul x x

/-- `field-ec-point-twice` for `F2m` -/
def twice (a xx xy : ℕ) : Except EcError (EcPoint ℕ) :=
  if xx = 0 then pure ecInfinityPoint
  else do
    let l1 := add (← f.div xy xx) xx
    let x3 := add (add (f.square l1) l1) a
    let y3 := add (add (f.square xx) (f.mul l1 x3)) x3
    return makeEcPoint x3 y3

/-- `field-ec-point-add` for `F2m` -/
def addPoints (a xx xy yx yy : ℕ) : Except EcError (EcPoint ℕ) :=
  let dx := add xx yx
  let dy := add xy yy
  if dx = 0 then
    if dy = 0 then f.twice a xx xy else pure ecInfinityPoint
  else do
    let L ← f.div dy dx
    let x3 := add (add (add (f.square L) L) dx) a
    let y3 := add (add (f.mul L (add xx x3)) x3) xy
    return makeEcPoint x3 y3

end F2mField

/-- The methods of `ec-field-f2m`. -/
def f2mMethods (f : F2mField) (a : ℕ) : FieldMethods ℕ where
  twice := f.twice a
  add := f.addPoints a
  negate xx xy := pure (makeEcPoint xx (F2mField.add xx xy))

/-! ### Points -/

section Points

variable {C : Type} (F : FieldMethods C)

/-- `ec-point-infinity?`: a coordinate is missing. -/
def EcPoint.infinity (p : EcPoint C) : Bool := p.x.isNone || p.y.isNone

/-- Doubles a point. -/
def ecPointTwice (p : EcPoint C) : Except EcError (EcPoint C) :=
  match p.x, p.y with
  | some x, some y => F.twice x y
  | _, _ => pure p

/-- The sum of two points. -/
def ecPointAdd (p q : EcPoint C) : Except EcError (EcPoint C) :=
  match p.x, p.y, q.x, q.y with
  | some xx, some xy, some yx, some yy => F.add xx xy yx yy
  | some _, some _, _, _ => pure p
  | _, _, _, _ => pure q

/-- `ec-point-negate`, which does not look whether the point is at infinity. -/
def ecPointNegate (p : EcPoint C) : Except EcError (EcPoint C) :=
  match p.x, p.y with
  | some x, some y => F.negate x y
  | _, _ => throw .wrongType

/-- The length in bits. -/
def bitwiseLength (n : ℤ) : ℕ := if 0 ≤ n then n.toNat.size else (-n - 1).toNat.size

/-- `bitwise-bit-set?`.  A fixnum is shifted, with its sign; of a bignum the magnitude is tested. -/
def bitwiseBitSet (n : ℤ) (i : ℕ) : Bool :=
  if FixnumRange n then n.testBit i else n.natAbs.testBit i

/-- The loop of `ec-point-mul`. -/
def mulLoop (p neg : EcPoint C) (h k : ℤ) : ℕ → EcPoint C → Except EcError (EcPoint C)
  | 0, R => pure R
  | i + 1, R => do
    let R ← ecPointTwice F R
    let hbit := bitwiseBitSet h (i + 1)
    if hbit = bitwiseBitSet k (i + 1) then mulLoop p neg h k i R
    else mulLoop p neg h k i (← ecPointAdd F R (if hbit then p else neg))

/-- `ec-point-mul`.  The index starts two below the length of `3k`; if it starts below zero, the
first bit that is tested has no place. -/
def ecPointMul (p : EcPoint C) (k : ℤ) : Except EcError (EcPoint C) := do
  let h := k * 3
  let neg ← ecPointNegate F p
  if bitwiseLength h < 2 then
    let _ ← ecPointTwice F p
    throw .negativeIndex
  else mulLoop F p neg h k (bitwiseLength h - 2) p

end Points

end Sagittarius.Ec
