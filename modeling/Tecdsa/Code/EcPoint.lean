import Tecdsa.Code.Field

/-!
# `src/secp256k1.cpp`, `src/ec_point.cpp`: affine points of secp256k1

A function that reaches `mod_inv` takes the build and may stop on its `assert`;
the others are pure.  The body of such a function, here and in the signing
modules, is written once with `mod_inv` as a parameter `inv` (`pointAddWith`);
the source's function is that body at `modInv build`.
-/

namespace Tecdsa

namespace Secp256k1

def p : Int := 0xFFFFFFFFFFFFFFFFFFFFFFFFFFFFFFFFFFFFFFFFFFFFFFFFFFFFFFFEFFFFFC2F
def a : Int := 0
def b : Int := 7
def gx : Int := 0x79BE667EF9DCBBAC55A06295CE870B07029BFCDB2DCE28D959F2815B16F81798
def gy : Int := 0x483ADA7726A3C4655DA4FBFC0E1108A8FD17B448A68554199C47D08FFB10D4B8
def n : Int := 0xFFFFFFFFFFFFFFFFFFFFFFFFFFFFFFFEBAAEDCE6AF48A03BBFD25E8CD0364141

end Secp256k1

/-- Point at infinity: `infinity = true`, with `x` and `y` unused. -/
structure AffinePoint where
  x : Int
  y : Int
  infinity : Bool
deriving DecidableEq, Repr

/-- The two-argument constructor: a finite point. -/
def AffinePoint.ofXY (x y : Int) : AffinePoint := ⟨x, y, false⟩

/-- `operator==`; not equality of the records, which differ in `x` and `y`
when both are at infinity. -/
instance : BEq AffinePoint where
  beq P other :=
    if P.infinity != other.infinity then false
    else if P.infinity then true
    else P.x == other.x && P.y == other.y

def identity : AffinePoint := ⟨0, 0, true⟩

def generator : AffinePoint := .ofXY Secp256k1.gx Secp256k1.gy

def isOnCurve (P : AffinePoint) : Bool :=
  if P.infinity then true
  else
    let p := Secp256k1.p
    let lhs := modMul P.y P.y p
    let xSq := modMul P.x P.x p
    let xCu := modMul xSq P.x p
    let ax := modMul Secp256k1.a P.x p
    let rhs := modAdd (modAdd xCu ax p) Secp256k1.b p
    lhs == rhs

def pointNeg (P : AffinePoint) : AffinePoint :=
  if P.infinity then P else .ofXY P.x (modNeg P.y Secp256k1.p)

/-! ## Operations that invert -/

section
variable {m : Type → Type} [Monad m] (inv : Int → Int → m Int)

def pointDoubleWith (P : AffinePoint) : m AffinePoint :=
  let p := Secp256k1.p
  if P.infinity then pure P
  else if P.y = 0 then pure identity
  else do
    let xSq := modMul P.x P.x p
    let threeXsq := modMul 3 xSq p
    let numerator := modAdd threeXsq Secp256k1.a p
    let denom := modMul 2 P.y p
    let slope := modMul numerator (← inv denom p) p
    let slopeSq := modMul slope slope p
    let twoX := modMul 2 P.x p
    let xR := modSub slopeSq twoX p
    let xMinusXr := modSub P.x xR p
    let yR := modSub (modMul slope xMinusXr p) P.y p
    return .ofXY xR yR

def pointAddWith (P Q : AffinePoint) : m AffinePoint :=
  let p := Secp256k1.p
  if P.infinity then pure Q
  else if Q.infinity then pure P
  else if P.x = Q.x then
    -- same x: either P = Q, or P = -Q and the sum is O
    if P.y = Q.y then pointDoubleWith inv P else pure identity
  else do
    let num := modSub Q.y P.y p
    let denom := modSub Q.x P.x p
    let slope := modMul num (← inv denom p) p
    let slopeSq := modMul slope slope p
    let sumX := modAdd P.x Q.x p
    let xR := modSub slopeSq sumX p
    let xMinusXr := modSub P.x xR p
    let yR := modSub (modMul slope xMinusXr p) P.y p
    return .ofXY xR yR

/-- The loop of `scalar_mul` from bit `i` on, with `todo` bits left of
`numBits`; the last doubling is skipped. -/
def scalarMulLoopWith (k : Int) (numBits : Nat) : (todo i : Nat) → (R Q : AffinePoint) → m AffinePoint
  | 0, _, R, _ => pure R
  | todo + 1, i, R, Q => do
    let R ← if mpzTstbit k i then pointAddWith inv R Q else pure R
    let Q ← if i + 1 < numBits then pointDoubleWith inv Q else pure Q
    scalarMulLoopWith k numBits todo (i + 1) R Q

/-- `scalar_mul`: a negative scalar recurses once, on `-k` and `-P`. -/
def scalarMulWith (k : Int) (P : AffinePoint) : m AffinePoint :=
  if P.infinity then pure P
  else if k = 0 then pure identity
  else if k < 0 then scalarMulWith (-k) (pointNeg P)
  else
    let numBits := mpzSizeinbase2 k
    scalarMulLoopWith inv k numBits numBits 0 identity P
termination_by if k < 0 then 1 else 0
decreasing_by simp only [if_pos ‹k < 0›, if_neg (show ¬ (-k < 0) by omega)]; omega

end

def pointDouble (build : Build) (P : AffinePoint) : Run AffinePoint :=
  pointDoubleWith (modInv build) P

def pointAdd (build : Build) (P Q : AffinePoint) : Run AffinePoint :=
  pointAddWith (modInv build) P Q

def scalarMulLoop (build : Build) (k : Int) (numBits todo i : Nat) (R Q : AffinePoint) :
    Run AffinePoint :=
  scalarMulLoopWith (modInv build) k numBits todo i R Q

def scalarMul (build : Build) (k : Int) (P : AffinePoint) : Run AffinePoint :=
  scalarMulWith (modInv build) k P

end Tecdsa
