import Tecdsa.Proof.Rfc6979
import Tecdsa.Proof.Sha256Eval
import Tecdsa.Proof.Verify

/-!
# The first candidate of a nonce

For the order of the curve a candidate is one HMAC, and `bits2octets` writes the
scalar of the hash: the first candidate is a function of the private key and
that scalar, and it is the nonce when it is in range.

    deriveNonce 1 d h n = .ok (nonceCandidate d (hash_to_scalar h n))      (deriveNonce_of_candidate)
-/

namespace Tecdsa

open Residue

theorem qlenBits_n : mpzSizeinbase2 Secp256k1.n = 256 := by decide

theorem n_lt_two_pow : Secp256k1.n < 2 ^ 256 := by decide

/-- `bits2octets` writes the scalar that `hash_to_scalar` computes. -/
theorem bits2octets_hash (h : Sha256Hash) :
    bits2octets h.val Secp256k1.n 256 32 = int2octets (hashToScalar h Secp256k1.n) 32 := by
  have hlen : ¬ (h.val.length * 8 > 256) := by
    rw [h.property]
    omega
  unfold bits2octets bits2int
  simp only [if_neg hlen]
  rfl

/-- One HMAC fills 32 octets. -/
theorem fillT_32 (K V : Sha256Hash) :
    fillT K 32 V [] = (hmacSha256 K.val V.val, (hmacSha256 K.val V.val).val) := by
  have hshort : ([] : Octets).length < 32 := by decide
  have hfull (V' : Sha256Hash) : fillT K 32 V' ([] ++ V'.val) = (V', V'.val) := by
    unfold fillT
    rw [List.nil_append, if_neg (Nat.not_lt.mpr V'.property.ge)]
  unfold fillT
  rw [if_pos hshort]
  exact hfull _

theorem candidate_32 (st : NonceState) : candidate st 256 32 =
    (mpzImport (hmacSha256 st.K.val st.V.val).val, hmacSha256 st.K.val st.V.val) := by
  have hlen := (hmacSha256 st.K.val st.V.val).property
  unfold candidate bits2int
  rw [fillT_32]
  simp only [List.take_of_length_le hlen.le, hlen, Nat.reduceMul, gt_iff_lt, lt_irrefl, if_false]

theorem deriveNonce_eq_candidateLoop {d z : Nat} (hd : (d : Int) < Secp256k1.n) {h : Sha256Hash}
    (hz : hashToScalar h Secp256k1.n = z) (fuel : Nat) :
    deriveNonce fuel d h Secp256k1.n =
      candidateLoop Secp256k1.n 256 32 fuel (seedState (Octets.ofNat 32 d) (Octets.ofNat 32 z)) := by
  have hzn := (hashToScalar_rep h).1.2
  have hn := n_lt_two_pow
  rw [hz] at hzn
  have hfits {x : Nat} (hx : (x : Int) < Secp256k1.n) : (x : Int).toNat < 2 ^ (8 * 32) := by omega
  have hintD := int2octets_eq 32 (Int.natCast_nonneg d) (hfits hd)
  have hbitsH := int2octets_eq 32 (Int.natCast_nonneg z) (hfits hzn)
  rw [Int.toNat_natCast] at hintD hbitsH
  rw [← hz, ← bits2octets_hash] at hbitsH
  unfold deriveNonce
  simp only [qlenBits_n, hintD, hbitsH, Run.ok_bind]

/-- The candidate of a state, as a number. -/
def NonceState.candidateNat (st : NonceState) : Nat := (hmacSha256 st.K.val st.V.val).val.toNat

/-- The first candidate for the private key `d` and the hash scalar `z`. -/
def nonceCandidate (d z : Nat) : Nat :=
  (seedState (Octets.ofNat 32 d) (Octets.ofNat 32 z)).candidateNat

theorem candidateLoop_of_candidate {st : NonceState} {k : Nat} (hk : st.candidateNat = k)
    (hrange : 1 ≤ (k : Int) ∧ (k : Int) < Secp256k1.n) (fuel : Nat) :
    candidateLoop Secp256k1.n 256 32 (fuel + 1) st = .ok (k : Int) := by
  have hcand : mpzImport (hmacSha256 st.K.val st.V.val).val = k := congrArg Nat.cast hk
  rw [candidateLoop_succ, candidate_32, hcand]
  exact if_pos hrange

theorem deriveNonce_of_candidate {d z k : Nat} (hd : (d : Int) < Secp256k1.n) {h : Sha256Hash}
    (hz : hashToScalar h Secp256k1.n = z) (hk : nonceCandidate d z = k)
    (hrange : 1 ≤ (k : Int) ∧ (k : Int) < Secp256k1.n) (fuel : Nat) :
    deriveNonce (fuel + 1) d h Secp256k1.n = .ok (k : Int) :=
  (deriveNonce_eq_candidateLoop hd hz (fuel + 1)).trans (candidateLoop_of_candidate hk hrange fuel)

end Tecdsa
