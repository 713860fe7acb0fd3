import Tecdsa.Code.Ecdsa

/-!
# `src/beaver.cpp`, `src/tecdsa.cpp`: two-party signing on additive shares

`beaver_mul`, `masked_inverse` and `threshold_sign` each run both parties.
Their bodies are written as functions that return every value they open
(`beaverMulRun`, `maskedInverseRun`, `thresholdSignRun`), the source's
functions on top of them.
-/

namespace Tecdsa

/-! ## Beaver triples -/

/-- Shares of `(a, b, c)` with `c = a b`. -/
structure BeaverTriple where
  a1 : Int
  a2 : Int
  b1 : Int
  b2 : Int
  c1 : Int
  c2 : Int
deriving DecidableEq, Repr

def generateTriple (q : Int) : Rand BeaverTriple := do
  let a ← uniformBelow q
  let b ← uniformBelow q
  let c := modMul a b q
  let a1 ← uniformBelow q
  let a2 := modSub a a1 q
  let b1 ← uniformBelow q
  let b2 := modSub b b1 q
  let c1 ← uniformBelow q
  let c2 := modSub c c1 q
  return ⟨a1, a2, b1, b2, c1, c2⟩

/-- The opened `d`, `e` and the shares of the product. -/
structure BeaverRun where
  d : Int
  e : Int
  z1 : Int
  z2 : Int
deriving DecidableEq, Repr

def beaverMulRun (x1 x2 y1 y2 : Int) (T : BeaverTriple) (q : Int) : BeaverRun :=
  let d1 := modSub x1 T.a1 q
  let d2 := modSub x2 T.a2 q
  let e1 := modSub y1 T.b1 q
  let e2 := modSub y2 T.b2 q
  let d := modAdd d1 d2 q
  let e := modAdd e1 e2 q
  let z1 := modAdd T.c1 (modMul d T.b1 q) q
  let z1 := modAdd z1 (modMul e T.a1 q) q
  let z1 := modAdd z1 (modMul d e q) q
  let z2 := modAdd T.c2 (modMul d T.b2 q) q
  let z2 := modAdd z2 (modMul e T.a2 q) q
  ⟨d, e, z1, z2⟩

def beaverMul (x1 x2 y1 y2 : Int) (T : BeaverTriple) (q : Int) : Int × Int :=
  let run := beaverMulRun x1 x2 y1 y2 T q
  (run.z1, run.z2)

/-! ## Key generation and presigning -/

structure ThresholdKey where
  skA : Int
  skB : Int
  Q : AffinePoint
deriving DecidableEq, Repr

structure ThresholdPresign where
  kA : Int
  kB : Int
  R : AffinePoint
  r : Int
  sk1 : Int
  sk2 : Int
  k1 : Int
  k2 : Int
deriving DecidableEq, Repr

def thresholdKeygen (build : Build) : Rand ThresholdKey := do
  let n := Secp256k1.n
  let skA ← uniformNonzeroBelow n
  let skB ← uniformNonzeroBelow n
  let sk := modMul skA skB n
  let Q ← scalarMul build sk generator
  return ⟨skA, skB, Q⟩

/-- `mod_inv` among the draws. -/
def drawnInv (build : Build) (a q : Int) : Rand Int := modInv build a q

section
variable {m : Type → Type} [Monad m] [MonadLiftT Rand m] (inv : Int → Int → m Int)

def thresholdPresignWith (key : ThresholdKey) : m ThresholdPresign := do
  let n := Secp256k1.n
  let kA ← uniformNonzeroBelow n
  let kB ← uniformNonzeroBelow n
  let k := modMul kA kB n
  let R ← scalarMulWith inv k generator
  if R.infinity then (Draws.throw (.thrown "threshold_presign: R at infinity") : Rand ThresholdPresign)
  else
    let r := R.x.tmod n
    let sk := modMul key.skA key.skB n
    let sk1 ← uniformBelow n
    let sk2 := modSub sk sk1 n
    let k1 ← uniformBelow n
    let k2 := modSub k k1 n
    return ⟨kA, kB, R, r, sk1, sk2, k1, k2⟩

end

def thresholdPresign (build : Build) (key : ThresholdKey) : Rand ThresholdPresign :=
  thresholdPresignWith (drawnInv build) key

/-! ## Signing -/

/-- The mask shares, the opened values and the shares of the inverse. -/
structure MaskedRun where
  r1 : Int
  r2 : Int
  mul : BeaverRun
  m : Int
  kinv1 : Int
  kinv2 : Int
deriving DecidableEq, Repr

/-- Everything `threshold_sign` computes up to the opened `s`. -/
structure SignRun where
  tripleInv : BeaverTriple
  inv : MaskedRun
  tripleS : BeaverTriple
  mul : BeaverRun
  s : Int
deriving DecidableEq, Repr

section
variable {m : Type → Type} [Monad m] [MonadLiftT Rand m] (inv : Int → Int → m Int)

def maskedInverseRunWith (k1 k2 : Int) (triple : BeaverTriple) (q : Int) : m MaskedRun := do
  let r1 ← uniformBelow q
  let r2 ← uniformBelow q
  let mul := beaverMulRun k1 k2 r1 r2 triple q
  let m := modAdd mul.z1 mul.z2 q
  let mInv ← inv m q
  let kinv1 := modMul r1 mInv q
  let kinv2 := modMul r2 mInv q
  return ⟨r1, r2, mul, m, kinv1, kinv2⟩

/-- Steps A to E, before the test of `s`. -/
def thresholdSignRunWith (presign : ThresholdPresign) (h : Sha256Hash) : m SignRun := do
  let n := Secp256k1.n
  let z := hashToScalar h n
  let rSk1 := modMul presign.r presign.sk1 n
  let rSk2 := modMul presign.r presign.sk2 n
  let zd1 := modAdd z rSk1 n
  let zd2 := rSk2
  let tripleInv ← generateTriple n
  let inv ← maskedInverseRunWith inv presign.k1 presign.k2 tripleInv n
  let tripleS ← generateTriple n
  let mul := beaverMulRun inv.kinv1 inv.kinv2 zd1 zd2 tripleS n
  let s := modAdd mul.z1 mul.z2 n
  return ⟨tripleInv, inv, tripleS, mul, s⟩

/-- The key is not used. -/
def thresholdSignWith (_key : ThresholdKey) (presign : ThresholdPresign) (h : Sha256Hash) : m Signature := do
  let run ← thresholdSignRunWith inv presign h
  if run.s = 0 then
    (Draws.throw (.thrown "threshold_sign: s == 0 (cosmically unlikely)") : Rand Signature)
  else return ⟨presign.r, normalizeLowS run.s Secp256k1.n⟩

end

def maskedInverseRun (build : Build) (k1 k2 : Int) (triple : BeaverTriple) (q : Int) : Rand MaskedRun :=
  maskedInverseRunWith (drawnInv build) k1 k2 triple q

@[simp] theorem maskedInverseRunWith_drawnInv (build : Build) :
    maskedInverseRunWith (drawnInv build) = maskedInverseRun build := rfl

def maskedInverse (build : Build) (k1 k2 : Int) (triple : BeaverTriple) (q : Int) :
    Rand (Int × Int) := do
  let run ← maskedInverseRun build k1 k2 triple q
  return (run.kinv1, run.kinv2)

def thresholdSignRun (build : Build) (presign : ThresholdPresign) (h : Sha256Hash) : Rand SignRun :=
  thresholdSignRunWith (drawnInv build) presign h

@[simp] theorem thresholdSignRunWith_drawnInv (build : Build) :
    thresholdSignRunWith (drawnInv build) = thresholdSignRun build := rfl

def thresholdSign (build : Build) (key : ThresholdKey) (presign : ThresholdPresign)
    (h : Sha256Hash) : Rand Signature :=
  thresholdSignWith (drawnInv build) key presign h

end Tecdsa
