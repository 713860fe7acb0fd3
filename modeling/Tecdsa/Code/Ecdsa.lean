import Tecdsa.Code.EcPoint
import Tecdsa.Code.Rfc6979
import Tecdsa.Code.Rng

/-!
# `src/ecdsa.cpp`: key generation, signing, verification

A message is the octets `msg[0..len)`; the `std::string` overloads only
reinterpret theirs.
-/

namespace Tecdsa

structure KeyPair where
  d : Int
  Q : AffinePoint
deriving DecidableEq, Repr

structure Signature where
  r : Int
  s : Int
deriving DecidableEq, Repr

def normalizeLowS (s n : Int) : Int :=
  let halfN := n.tdiv 2
  if s > halfN then n - s else s

def generateKeypair (build : Build) : Rand KeyPair := do
  let d ← uniformNonzeroBelow Secp256k1.n
  let Q ← scalarMul build d generator
  return ⟨d, Q⟩

section
variable {m : Type → Type} [Monad m] [MonadLiftT Run m] (inv : Int → Int → m Int)

/-- The end of `sign_with_hash`: `s = k⁻¹ (z + r d)`, low. -/
def signSPhaseWith (d z k r : Int) : m Signature :=
  let n := Secp256k1.n
  do
    let kInv ← inv k n
    let rd := modMul r d n
    let zPlusRd := modAdd z rd n
    let s := modMul kInv zPlusRd n
    if s = 0 then (throw (.thrown "ECDSA sign: s == 0 (cosmically unlikely)") : Run Unit)
    return ⟨r, normalizeLowS s n⟩

/-- `sign_with_hash` from its nonce on. -/
def signWithNonceWith (d z k : Int) : m Signature :=
  let n := Secp256k1.n
  do
    let R ← scalarMulWith inv k generator
    let r := R.x.tmod n
    if r = 0 then (throw (.thrown "ECDSA sign: r == 0 (cosmically unlikely)") : Run Unit)
    signSPhaseWith inv d z k r

def signWithHashWith (fuel : Nat) (d : Int) (h : Sha256Hash) : m Signature :=
  let n := Secp256k1.n
  do
    let z := hashToScalar h n
    let k ← deriveNonce fuel d h n
    signWithNonceWith inv d z k

end

def signSPhase (build : Build) (d z k r : Int) : Run Signature :=
  signSPhaseWith (modInv build) d z k r

def signWithNonce (build : Build) (d z k : Int) : Run Signature :=
  signWithNonceWith (modInv build) d z k

def signWithHash (build : Build) (fuel : Nat) (d : Int) (h : Sha256Hash) : Run Signature :=
  signWithHashWith (modInv build) fuel d h

def sign (build : Build) (fuel : Nat) (d : Int) (msg : Octets) : Run Signature :=
  signWithHash build fuel d (doubleSha256 msg)

/-- `verify` after its hashing, which reads nothing but the message: `z` is the
message's scalar. -/
def verifyScalar (build : Build) (Q : AffinePoint) (z r s : Int) : Run Bool :=
  let n := Secp256k1.n
  if r < 1 ∨ r ≥ n then .ok false
  else if s < 1 ∨ s ≥ n then .ok false
  else do
    let w ← modInv build s n
    let u1 := modMul z w n
    let u2 := modMul r w n
    let X1 ← scalarMul build u1 generator
    let X2 ← scalarMul build u2 Q
    let X ← pointAdd build X1 X2
    if X.infinity then return false
    return X.x.tmod n == r

def verify (build : Build) (Q : AffinePoint) (msg : Octets) (r s : Int) : Run Bool :=
  let h := doubleSha256 msg
  verifyScalar build Q (hashToScalar h Secp256k1.n) r s

end Tecdsa
