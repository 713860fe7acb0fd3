import Tecdsa.Code.Rng

/-!
# `src/paillier.cpp`: Paillier encryption

`mpz_nextprime` is a parameter.  `generate_keys` seeds a generator of its own
from the operating system; its draws are a tape like those of `Rng`.
-/

namespace Tecdsa.Paillier

structure PublicKey where
  n : Int
  g : Int
  n2 : Int
deriving DecidableEq, Repr

structure PrivateKey where
  lambda : Int
  mu : Int
deriving DecidableEq, Repr

structure KeyPair where
  pub : PublicKey
  priv : PrivateKey
deriving DecidableEq, Repr

/-! ## GMP -/

/-- `mpz_urandomb`: an integer in `[0, 2^bits)`. -/
def mpzUrandomb (bits : Nat) : Rand Int :=
  Draws.draw .exhausted fun x => decide (0 ≤ x) && decide (x < 2 ^ bits)

def mpzSetbit (x : Int) (bit : Nat) : Int := if mpzTstbit x bit then x else x + 2 ^ bit

/-! ## Keys -/

/-- `(u - 1) / n`; mpz_class division truncates. -/
def L (u n : Int) : Int := (u - 1).tdiv n

def pickRCoprimeToN (n : Int) : Rand Int :=
  Draws.doWhile .exhausted (uniformNonzeroBelow n) fun r => Int.gcd r n != 1

section
variable (mpzNextprime : Int → Int)

/-- `prime_bits` is an `unsigned int`: `prime_bits - 1` wraps. -/
def genPrime (primeBits : UInt32) : Rand Int :=
  Draws.doWhile .exhausted
    (do
      let out ← mpzUrandomb primeBits.toNat
      let out := mpzSetbit out (primeBits - 1).toNat
      return mpzNextprime out)
    fun out => mpzSizeinbase2 out != primeBits.toNat

/-- The two primes of `generate_keys`. -/
def genPrimes (primeBits : UInt32) : Rand (Int × Int) :=
  Draws.doWhile .exhausted
    (do
      let p ← genPrime mpzNextprime primeBits
      let q ← Draws.doWhile .exhausted (genPrime mpzNextprime primeBits) fun q => q == p
      return (p, q))
    fun (p, q) => mpzSizeinbase2 (p * q) != 2 * primeBits.toNat

/-- What `generate_keys` computes from its primes. -/
def keysOfPrimes (p q : Int) : Run KeyPair :=
  let n := p * q
  let n2 := n * n
  let g := n + 1
  let pm1 := p - 1
  let qm1 := q - 1
  let gcdPq : Int := Int.gcd pm1 qm1
  let lambda := (pm1 * qm1).tdiv gcdPq
  let u := mpzPowm g lambda n2
  let Lval := L u n
  match mpzInvert Lval n with
  | none => .error (.thrown "paillier: mu inversion failed")
  | some mu => .ok ⟨⟨n, g, n2⟩, ⟨lambda, mu⟩⟩

def generateKeys (primeBits : UInt32) : Rand KeyPair := do
  let (p, q) ← genPrimes mpzNextprime primeBits
  keysOfPrimes p q

end

/-! ## Encryption and decryption -/

def encrypt (m : Int) (pk : PublicKey) : Rand Int :=
  if m < 0 ∨ m ≥ pk.n then
    Draws.throw (.thrown "paillier::encrypt: m out of range [0, N)")
  else do
    let r ← pickRCoprimeToN pk.n
    let gm := mpzPowm pk.g m pk.n2
    let rn := mpzPowm r pk.n pk.n2
    let c := (gm * rn).tmod pk.n2
    return c

def decrypt (c : Int) (pk : PublicKey) (sk : PrivateKey) : Int :=
  let u := mpzPowm c sk.lambda pk.n2
  let Lval := L u pk.n
  (Lval * sk.mu).tmod pk.n

end Tecdsa.Paillier
