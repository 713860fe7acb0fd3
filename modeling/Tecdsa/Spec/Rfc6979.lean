import Mathlib.Data.Nat.Size
import Tecdsa.Spec.Fips180

/-!
# RFC 6979, sections 2.3 and 3.2, on bit strings

`hmac` is the HMAC in use and `hlen` the length of its output in bits, a
multiple of 8.
-/

namespace Rfc6979

/-! ## Conversions (2.3) -/

/-- The smallest `qlen` with `q < 2 ^ qlen`. -/
def qlen (q : Nat) : Nat := q.size

/-- `qlen` rounded up to whole octets. -/
def rlen (q : Nat) : Nat := 8 * ((qlen q + 7) / 8)

/-- The leftmost `qlen` bits, or zeros put in front of a shorter input. -/
def bits2int (q : Nat) (b : Bits) : Nat :=
  Bits.toNat (if qlen q < b.length then b.take (qlen q)
    else List.replicate (qlen q - b.length) false ++ b)

def int2octets (q x : Nat) : Bits := Bits.ofNat (rlen q) x

def bits2octets (q : Nat) (b : Bits) : Bits := int2octets q (bits2int q b % q)

/-! ## Generation of the nonce (3.2) -/

structure State where
  K : Bits
  V : Bits

def octet (v : Nat) : Bits := Bits.ofNat 8 v

section
variable (hmac : Bits → Bits → Bits) (hlen : Nat)

/-- Steps b to g, for the private key `x` and the hashed message `h1`. -/
def seed (q x : Nat) (h1 : Bits) : State :=
  let V := (List.replicate (hlen / 8) (octet 0x01)).flatten
  let K := (List.replicate (hlen / 8) (octet 0x00)).flatten
  let K := hmac K (V ++ octet 0x00 ++ int2octets q x ++ bits2octets q h1)
  let V := hmac K V
  let K := hmac K (V ++ octet 0x01 ++ int2octets q x ++ bits2octets q h1)
  let V := hmac K V
  ⟨K, V⟩

/-- `V` and `T` after `j` of the blocks of step h.2. -/
def blocks (st : State) : Nat → Bits × Bits
  | 0 => (st.V, [])
  | j + 1 =>
    let (V, T) := blocks st j
    let V := hmac st.K V
    (V, T ++ V)

@[simp] theorem blocks_succ (st : State) (j : Nat) :
    blocks hmac st (j + 1) = (hmac st.K (blocks hmac st j).1,
      (blocks hmac st j).2 ++ hmac st.K (blocks hmac st j).1) := rfl

/-- Whole blocks until `T` has at least `qlen` bits. -/
def blockCount (q : Nat) : Nat := (qlen q + hlen - 1) / hlen

/-- Step h.3: the candidate. -/
def candidate (q : Nat) (st : State) : Nat := bits2int q (blocks hmac st (blockCount hlen q)).2

/-- The end of step h, after a rejected candidate. -/
def reseed (q : Nat) (st : State) : State :=
  let V := (blocks hmac st (blockCount hlen q)).1
  let K := hmac st.K (V ++ octet 0x00)
  let V := hmac K V
  ⟨K, V⟩

/-- The state at the start of round `i` of step h. -/
def round (q x : Nat) (h1 : Bits) : Nat → State
  | 0 => seed hmac hlen q x h1
  | i + 1 => reseed hmac hlen q (round q x h1 i)

/-- `k` is the first candidate in `[1, q - 1]`. -/
def IsNonce (q x : Nat) (h1 : Bits) (k : Nat) : Prop :=
  ∃ i, candidate hmac hlen q (round hmac hlen q x h1 i) = k ∧ (1 ≤ k ∧ k ≤ q - 1) ∧
    ∀ j < i, ¬ (1 ≤ candidate hmac hlen q (round hmac hlen q x h1 j) ∧
      candidate hmac hlen q (round hmac hlen q x h1 j) ≤ q - 1)

/-- `blockCount` blocks reach `qlen` bits and fewer do not. -/
theorem blockCount_spec (q : Nat) (hpos : 0 < hlen) (j : Nat) :
    qlen q ≤ j * hlen ↔ blockCount hlen q ≤ j := by
  unfold blockCount
  rw [Nat.div_le_iff_le_mul hpos]
  omega

end

/-- HMAC with SHA-256, on bit strings of whole octets. -/
def hmacSha256 (K text : Bits) : Bits :=
  (Rfc2104.hmac Fips180.sha256Octets 64 (Octets.ofBits K) (Octets.ofBits text)).toBits

end Rfc6979
