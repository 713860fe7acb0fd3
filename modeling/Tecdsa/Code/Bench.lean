import Tecdsa.Code.Paillier
import Tecdsa.Code.Threshold
import Tecdsa.Lib.Outcomes

/-!
# `bench/bench_all.cpp`: the scenarios of the benchmark

A scenario is the list of the values its lambda hands to `do_not_optimize`, one
for each index; the timings and what is printed of them are left out.  The
vectors made before the scenarios are one list of records, read with a test of
the index.

OpenSSL is seen in one thing only, whether it makes the key of an index
(`opensslKey`); what A0 signs with these keys is freed at once.
-/

namespace Tecdsa

namespace Bench

def kWarmup : Nat := 10

/-- `const int total = opts.iterations + kWarmup` -/
def totalInputs (iterations : Nat) : Run Nat :=
  if iterations + kWarmup < 2 ^ 31 then .ok (iterations + kWarmup) else .error .overrun

/-- `run_benchmark`: `f(0) … f(warmup - 1)`, then `f(warmup + i)` for `i < n`. -/
def runBenchmark {α : Type} (n warmup : Nat) (f : Nat → Rand α) : Rand (List α) := do
  let warm ← Draws.forLoop f warmup 0
  let timed ← Draws.forLoop (fun i => f (warmup + i)) n 0
  return warm ++ timed

/-! ## Inputs -/

/-- `"benchmark message #" + std::to_string(i)` -/
def benchMessage (i : Nat) : Octets := ("benchmark message #" ++ toString i).toUTF8.toList

/-- What the vectors hold at one index. -/
structure Input where
  singleKey : KeyPair
  coSignerKey : KeyPair
  thresholdKey : ThresholdKey
  thresholdPresign : ThresholdPresign
  hash : Sha256Hash
  nonceK : Int
  nonceR : Int

def makeInput (build : Build) (opensslKey : Nat → Bool) (i : Nat) : Rand Input := do
  let single ← generateKeypair build
  let coSigner ← generateKeypair build
  let tk ← thresholdKeygen build
  let p ← thresholdPresign build tk
  let h := doubleSha256 (benchMessage i)
  let k ← uniformNonzeroBelow Secp256k1.n
  let R ← scalarMul build k generator
  if opensslKey i then return ⟨single, coSigner, tk, p, h, k, R.x.tmod Secp256k1.n⟩
  else Draws.throw (.exited 1)

/-- `v[i]`; outside the vector the behaviour is undefined. -/
def readAt {α : Type} (v : List α) (i : Nat) : Run α :=
  match v[i]? with
  | some a => .ok a
  | none => .error .overrun

/-! ## Scenarios -/

/-- A1: the body of `signSPhase` without the test of `s`. -/
def sPhaseOnly (build : Build) (x : Input) : Run Signature := do
  let n := Secp256k1.n
  let halfN := n.tdiv 2
  let z := hashToScalar x.hash n
  let kin ← modInv build x.nonceK n
  let rd := modMul x.nonceR x.singleKey.d n
  let zd := modAdd z rd n
  let s := modMul kin zd n
  let s := if s > halfN then n - s else s
  return ⟨x.nonceR, s⟩

section
variable (build : Build) (fuel : Nat) (inputs : List Input)

def scenarioA0 (i : Nat) : Rand Unit := do
  let _ ← readAt inputs i
  return ()

def scenarioA1 (i : Nat) : Rand Signature := do
  let x ← readAt inputs i
  sPhaseOnly build x

def scenarioA2 (i : Nat) : Rand Signature := do
  let x ← readAt inputs i
  signWithHash build fuel x.singleKey.d x.hash

def scenarioB (i : Nat) : Rand (Signature × Signature) := do
  let x ← readAt inputs i
  let sigA ← signWithHash build fuel x.singleKey.d x.hash
  let sigB ← signWithHash build fuel x.coSignerKey.d x.hash
  return (sigA, sigB)

def scenarioC1 (i : Nat) : Rand Signature := do
  let x ← readAt inputs i
  thresholdSign build x.thresholdKey x.thresholdPresign x.hash

def scenarioC2 (i : Nat) : Rand (ThresholdPresign × Signature) := do
  let x ← readAt inputs i
  let p ← thresholdPresign build x.thresholdKey
  let sig ← thresholdSign build x.thresholdKey p x.hash
  return (p, sig)

def scenarioC3 (pub : Paillier.PublicKey) (beaverShares : List Int) (i : Nat) : Rand (Signature × Int) := do
  let x ← readAt inputs i
  let sig ← thresholdSign build x.thresholdKey x.thresholdPresign x.hash
  let share ← readAt beaverShares i
  let ct ← Paillier.encrypt share pub
  return (sig, ct)

end

/-! ## The program -/

structure Report where
  inputs : List Input
  a1 : List Signature
  a2 : List Signature
  b : List (Signature × Signature)
  c1 : List Signature
  c2 : List (ThresholdPresign × Signature)
  paillierKeys : Paillier.KeyPair
  beaverShares : List Int
  c3 : List (Signature × Int)

/-- `main` after the command line; `keyTape` is the generator that
`generate_keys` seeds for itself. -/
def benchAll (build : Build) (fuel : Nat) (mpzNextprime : Int → Int) (keyTape : List Int)
    (opensslKey : Nat → Bool) (iterations : Nat) : Rand Report := do
  let total ← totalInputs iterations
  let inputs ← Draws.forLoop (makeInput build opensslKey) total 0
  let _ ← runBenchmark iterations kWarmup (scenarioA0 inputs)
  let a1 ← runBenchmark iterations kWarmup (scenarioA1 build inputs)
  let a2 ← runBenchmark iterations kWarmup (scenarioA2 build fuel inputs)
  let b ← runBenchmark iterations kWarmup (scenarioB build fuel inputs)
  let c1 ← runBenchmark iterations kWarmup (scenarioC1 build inputs)
  let c2 ← runBenchmark iterations kWarmup (scenarioC2 build inputs)
  let kp ← ((Paillier.generateKeys mpzNextprime 1024).run keyTape).1
  let shares ← Draws.forLoop (fun _ => uniformNonzeroBelow Secp256k1.n) total 0
  let c3 ← runBenchmark iterations kWarmup (scenarioC3 build inputs kp.pub shares)
  return ⟨inputs, a1, a2, b, c1, c2, kp, shares, c3⟩

end Bench

end Tecdsa
