import Mathlib.Data.Nat.NthRoot.Defs
import Mathlib.Data.Nat.Prime.Basic
import Tecdsa.Lib.Octets

/-!
# FIPS 180-4: SHA-256 of a bit string; RFC 2104: HMAC of octet strings

Written from the standards, over bit strings and 32-bit words.  The constants
are not tables but what the standard says they are: the first 32 bits of the
fractional parts of roots of the first primes.

The standard's messages are shorter than `2 ^ 64` bits; `pad` writes the length
modulo `2 ^ 64`, so it is the standard's on those and defined on all.
-/

namespace Fips180

abbrev Word := BitVec 32

/-! ## Functions (4.1.2) -/

def ROTR (n : Nat) (x : Word) : Word := x.rotateRight n
def SHR (n : Nat) (x : Word) : Word := x >>> n
def Ch (x y z : Word) : Word := (x &&& y) ^^^ (~~~x &&& z)
def Maj (x y z : Word) : Word := (x &&& y) ^^^ (x &&& z) ^^^ (y &&& z)
def bigSigma0 (x : Word) : Word := ROTR 2 x ^^^ ROTR 13 x ^^^ ROTR 22 x
def bigSigma1 (x : Word) : Word := ROTR 6 x ^^^ ROTR 11 x ^^^ ROTR 25 x
def smallSigma0 (x : Word) : Word := ROTR 7 x ^^^ ROTR 18 x ^^^ SHR 3 x
def smallSigma1 (x : Word) : Word := ROTR 17 x ^^^ ROTR 19 x ^^^ SHR 10 x

/-! ## Constants (4.2.2, 5.3.3) -/

/-- The first 64 primes. -/
def primes : List Nat := (List.range 312).filter Nat.Prime

/-- The first 32 bits of the fractional part of the `degree`-th root of `m`. -/
def rootFraction (degree m : Nat) : Word :=
  BitVec.ofNat 32 (Nat.nthRoot degree (m * 2 ^ (32 * degree)))

def K (t : Nat) : Word := rootFraction 3 (primes.getD t 0)

/-- The eight words of a hash value, and the working variables. -/
structure Work where
  a : Word
  b : Word
  c : Word
  d : Word
  e : Word
  f : Word
  g : Word
  h : Word
deriving DecidableEq

def H0 : Work :=
  let root (i : Nat) := rootFraction 2 (primes.getD i 0)
  ⟨root 0, root 1, root 2, root 3, root 4, root 5, root 6, root 7⟩

/-! ## Preprocessing (5.1.1, 5.2.1) -/

/-- The smallest `k` with `l + 1 + k ≡ 448` modulo 512. -/
def zeroBits (l : Nat) : Nat := (960 - (l + 1) % 512) % 512

theorem zeroBits_spec (l : Nat) :
    (l + 1 + zeroBits l) % 512 = 448 ∧ ∀ k, (l + 1 + k) % 512 = 448 → zeroBits l ≤ k := by
  unfold zeroBits
  refine ⟨by omega, fun k hk => by omega⟩

def pad (M : Bits) : Bits :=
  M ++ [true] ++ List.replicate (zeroBits M.length) false ++ Bits.ofNat 64 M.length

def wordOfBits (bs : Bits) : Word := BitVec.ofNat 32 bs.toNat

/-- Word `t` of the 512-bit block `i`. -/
def block (M : Bits) (i t : Nat) : Word := wordOfBits ((M.drop (512 * i + 32 * t)).take 32)

/-! ## Hash computation (6.2.2) -/

/-- The message schedule of a block. -/
def W (M : Nat → Word) (t : Nat) : Word :=
  if t < 16 then M t
  else smallSigma1 (W M (t - 2)) + W M (t - 7) + smallSigma0 (W M (t - 15)) + W M (t - 16)
termination_by t

/-- Step 3 for one `t`. -/
def step (v : Work) (k w : Word) : Work :=
  let T1 := v.h + bigSigma1 v.e + Ch v.e v.f v.g + k + w
  let T2 := bigSigma0 v.a + Maj v.a v.b v.c
  ⟨T1 + T2, v.a, v.b, v.c, v.d + T1, v.e, v.f, v.g⟩

def rounds (M : Nat → Word) (v : Work) : Nat → Work
  | 0 => v
  | t + 1 => step (rounds M v t) (K t) (W M t)

/-- Step 4. -/
def Work.add (H v : Work) : Work :=
  ⟨H.a + v.a, H.b + v.b, H.c + v.c, H.d + v.d, H.e + v.e, H.f + v.f, H.g + v.g, H.h + v.h⟩

/-- The hash value after `i` blocks. -/
def hashValue (M : Bits) : Nat → Work
  | 0 => H0
  | i + 1 => (hashValue M i).add (rounds (block M i) (hashValue M i) 64)

def Work.bits (v : Work) : Bits :=
  [v.a, v.b, v.c, v.d, v.e, v.f, v.g, v.h].flatMap fun w => Bits.ofNat 32 w.toNat

/-- The message digest of `M`. -/
def sha256 (M : Bits) : Bits := (hashValue (pad M) ((pad M).length / 512)).bits

/-- The same function from octets to octets. -/
def sha256Octets (M : Octets) : Octets := Octets.ofBits (sha256 M.toBits)

end Fips180

namespace Rfc2104

/-- `H(K XOR opad, H(K XOR ipad, text))` over a hash `H` with blocks of `B`
octets; a longer key is hashed first, a shorter one is filled with zeros. -/
def hmac (H : Octets → Octets) (B : Nat) (K text : Octets) : Octets :=
  let K := if K.length > B then H K else K
  let K := K ++ List.replicate (B - K.length) 0x00
  H (K.map (· ^^^ 0x5c) ++ H (K.map (· ^^^ 0x36) ++ text))

end Rfc2104
