import Tecdsa.Code.Sha256

/-!
# `src/rfc6979.cpp`: HMAC-SHA-256 and the deterministic nonce

The rejection loop of `derive_nonce` has no bound; `deriveNonce` takes the
number of rounds it may make and is `exhausted` after them.
-/

namespace Tecdsa

def kSha256BlockSize : Nat := 64
def kSha256OutputSize : Nat := 32

/-- `mpz_export` of `x ≠ 0`, most significant octet first, no leading zeros. -/
def mpzExport (x : Int) : Octets := Octets.ofNat ((mpzSizeinbase2 x + 7) / 8) x.natAbs

/-- `offset` is a `size_t`: for `x` longer than `rolen` it wraps, and
`mpz_export` writes outside `out`. -/
def int2octets (x : Int) (rolen : Nat) : Run Octets :=
  if x = 0 then .ok (List.replicate rolen 0)
  else
    let actual := (mpzSizeinbase2 x + 7) / 8
    if rolen < actual then .error .overrun
    else
      let offset := rolen - actual
      .ok (List.replicate offset 0 ++ mpzExport x)

def bits2int (data : Octets) (qlenBits : Nat) : Int :=
  let result := mpzImport data
  let bitsIn := data.length * 8
  if bitsIn > qlenBits then result >>> (bitsIn - qlenBits) else result

def bits2octets (data : Octets) (q : Int) (qlenBits rolen : Nat) : Run Octets :=
  let z := bits2int data qlenBits
  int2octets (z.tmod q) rolen

/-! ## HMAC -/

/-- `memcpy(dst, src, src.size())` -/
def memcpy (dst src : Octets) : Octets := src ++ dst.drop src.length

def hmacSha256 (key msg : Octets) : Sha256Hash :=
  let keyBlock := List.replicate kSha256BlockSize 0
  let keyBlock :=
    if key.length > kSha256BlockSize then memcpy keyBlock (sha256 key).val
    else memcpy keyBlock key
  let ipad := (List.range kSha256BlockSize).map fun i => keyBlock.getD i 0 ^^^ 0x36
  let opad := (List.range kSha256BlockSize).map fun i => keyBlock.getD i 0 ^^^ 0x5c
  let innerHash := sha256 (ipad ++ msg)
  sha256 (opad ++ innerHash.val)

/-! ## RFC 6979, section 3.2 -/

/-- The two variables the steps carry. -/
structure NonceState where
  K : Sha256Hash
  V : Sha256Hash

/-- Steps b to g. -/
def seedState (intD bitsH : Octets) : NonceState :=
  let V : Sha256Hash := ⟨List.replicate kSha256OutputSize 0x01, rfl⟩
  let K : Sha256Hash := ⟨List.replicate kSha256OutputSize 0x00, rfl⟩
  let K := hmacSha256 K.val (V.val ++ [0x00] ++ intD ++ bitsH)
  let V := hmacSha256 K.val V.val
  let K := hmacSha256 K.val (V.val ++ [0x01] ++ intD ++ bitsH)
  let V := hmacSha256 K.val V.val
  ⟨K, V⟩

/-- `while (T.size() < rolen) { V = HMAC_K(V); T = T || V; }` -/
def fillT (K : Sha256Hash) (rolen : Nat) (V : Sha256Hash) (T : Octets) : Sha256Hash × Octets :=
  if T.length < rolen then
    let V' := hmacSha256 K.val V.val
    fillT K rolen V' (T ++ V'.val)
  else (V, T)
termination_by rolen - T.length
decreasing_by simp only [List.length_append, (hmacSha256 K.val V.val).property]; omega

/-- The candidate of a round, and `V` after it. -/
def candidate (st : NonceState) (qlenBits rolen : Nat) : Int × Sha256Hash :=
  let (V, T) := fillT st.K rolen st.V []
  (bits2int (T.take rolen) qlenBits, V)

/-- `K = HMAC_K(V || 0x00); V = HMAC_K(V)` -/
def reseed (st : NonceState) : NonceState :=
  let K := hmacSha256 st.K.val (st.V.val ++ [0x00])
  let V := hmacSha256 K.val st.V.val
  ⟨K, V⟩

/-- Step h. -/
def candidateLoop (q : Int) (qlenBits rolen : Nat) : (fuel : Nat) → NonceState → Run Int
  | 0, _ => .error .exhausted
  | fuel + 1, st =>
    let (k, V) := candidate st qlenBits rolen
    if k ≥ 1 ∧ k < q then .ok k
    else candidateLoop q qlenBits rolen fuel (reseed ⟨st.K, V⟩)

theorem candidateLoop_succ (q : Int) (qlenBits rolen fuel : Nat) (st : NonceState) :
    candidateLoop q qlenBits rolen (fuel + 1) st =
      if (candidate st qlenBits rolen).1 ≥ 1 ∧ (candidate st qlenBits rolen).1 < q
      then .ok (candidate st qlenBits rolen).1
      else candidateLoop q qlenBits rolen fuel (reseed ⟨st.K, (candidate st qlenBits rolen).2⟩) := rfl

def deriveNonce (fuel : Nat) (d : Int) (h : Sha256Hash) (q : Int) : Run Int := do
  let qlenBits := mpzSizeinbase2 q
  let rolen := (qlenBits + 7) / 8
  let intD ← int2octets d rolen
  let bitsH ← bits2octets h.val q qlenBits rolen
  candidateLoop q qlenBits rolen fuel (seedState intD bitsH)

end Tecdsa
