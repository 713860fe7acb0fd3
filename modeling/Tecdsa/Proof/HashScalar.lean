import Mathlib.Data.Set.Card
import Tecdsa.Proof.Verify

/-!
# The hashes of a scalar

`hash_to_scalar` reduces 256 bits modulo `n`, and `n < 2^256 < 2 n`: a scalar
below `2^256 - n` comes from two hashes, any other from one.

    hashToScalar_fibres
-/

namespace Tecdsa

open Residue

/-- The hash of 256 bits. -/
def toHash (v : ℕ) : Sha256Hash := ⟨Octets.ofNat 32 v, Octets.length_ofNat 32 v⟩

theorem mpzImport_toHash {v : ℕ} (hv : v < 2 ^ 256) : mpzImport (toHash v).val = v := by
  unfold mpzImport toHash
  rw [Octets.toNat_ofNat, Nat.mod_eq_of_lt hv]

theorem mpzImport_range (h : Sha256Hash) : 0 ≤ mpzImport h.val ∧ mpzImport h.val < 2 ^ 256 := by
  have hlt := Octets.toNat_lt h.val
  rw [h.property] at hlt
  unfold mpzImport
  exact ⟨by omega, by exact_mod_cast hlt⟩

theorem mpzImport_injective {h h' : Sha256Hash} (heq : mpzImport h.val = mpzImport h'.val) : h = h' := by
  apply Subtype.ext
  apply Octets.ext_toNat (h.property.trans h'.property.symm)
  unfold mpzImport at heq
  exact_mod_cast heq

/-- A hash is its scalar, or its scalar and `n`. -/
theorem hashToScalar_eq_iff {z : Int} (hz : Canon Secp256k1.n z) (h : Sha256Hash) :
    hashToScalar h Secp256k1.n = z ↔ mpzImport h.val = z ∨ mpzImport h.val = z + Secp256k1.n := by
  obtain ⟨h0, hlt⟩ := mpzImport_range h
  obtain ⟨hz0, hzn⟩ := hz
  have h2n : (2 : Int) ^ 256 < 2 * Secp256k1.n := by decide
  unfold hashToScalar
  rw [Int.tmod_eq_emod_of_nonneg h0]
  generalize mpzImport h.val = x at h0 hlt
  constructor
  · intro hx
    by_cases hxn : x < Secp256k1.n
    · rw [Int.emod_eq_of_lt h0 hxn] at hx
      exact Or.inl hx
    · rw [← Int.sub_emod_right, Int.emod_eq_of_lt (by omega) (by omega)] at hx
      exact Or.inr (by omega)
  · rintro (rfl | rfl)
    · exact Int.emod_eq_of_lt hz0 hzn
    · rw [Int.add_emod_right, Int.emod_eq_of_lt hz0 hzn]

/-- **The hashes of a scalar**: two below `2^256 - n`, one above; and hashes of
one scalar are equal or `n` apart. -/
theorem hashToScalar_fibres :
    (∀ z, Canon Secp256k1.n z → {h | hashToScalar h Secp256k1.n = z}.encard =
      if z < 2 ^ 256 - Secp256k1.n then 2 else 1) ∧
    ∀ h h' : Sha256Hash, hashToScalar h Secp256k1.n = hashToScalar h' Secp256k1.n ↔
      h = h' ∨ mpzImport h.val = mpzImport h'.val + Secp256k1.n ∨
        mpzImport h'.val = mpzImport h.val + Secp256k1.n := by
  refine ⟨?_, ?_⟩
  · intro z hz
    have hmem (h : Sha256Hash) := hashToScalar_eq_iff hz h
    obtain ⟨hz0, hzn⟩ := hz
    obtain ⟨v, rfl⟩ := Int.eq_ofNat_of_zero_le hz0
    have hn : Secp256k1.n < 2 ^ 256 := by decide
    have hn0 := n_pos
    have hv : mpzImport (toHash v).val = v := mpzImport_toHash (by omega)
    split
    · next hlow =>
      have hw : mpzImport (toHash (v + Secp256k1.n.toNat)).val = v + Secp256k1.n := by
        rw [mpzImport_toHash (by omega)]
        omega
      have hset : {h | hashToScalar h Secp256k1.n = v} = {toHash v, toHash (v + Secp256k1.n.toNat)} := by
        ext h
        rw [Set.mem_ofPred_eq, hmem, Set.mem_insert_iff, Set.mem_singleton_iff]
        constructor
        · rintro (hh | hh)
          · exact Or.inl (mpzImport_injective (hh.trans hv.symm))
          · exact Or.inr (mpzImport_injective (hh.trans hw.symm))
        · rintro (rfl | rfl)
          · exact Or.inl hv
          · exact Or.inr hw
      rw [hset, Set.encard_pair]
      intro heq
      rw [heq, hw] at hv
      omega
    · next hhigh =>
      have hset : {h | hashToScalar h Secp256k1.n = v} = {toHash v} := by
        ext h
        have hrange := mpzImport_range h
        rw [Set.mem_ofPred_eq, hmem, Set.mem_singleton_iff]
        constructor
        · rintro (hh | hh)
          · exact mpzImport_injective (hh.trans hv.symm)
          · omega
        · rintro rfl
          exact Or.inl hv
      rw [hset, Set.encard_singleton]
  · intro h h'
    have hz' := (hashToScalar_rep h').1
    have hself := (hashToScalar_eq_iff hz' h').mp rfl
    rw [hashToScalar_eq_iff hz' h]
    constructor
    · rintro (hh | hh)
      · rcases hself with hs | hs
        · exact Or.inl (mpzImport_injective (hh.trans hs.symm))
        · exact Or.inr (Or.inr (by omega))
      · rcases hself with hs | hs
        · exact Or.inr (Or.inl (by omega))
        · exact Or.inl (mpzImport_injective (hh.trans hs.symm))
    · have hn := n_pos
      have hrange := mpzImport_range h
      have hrange' := mpzImport_range h'
      have h2n : (2 : Int) ^ 256 < 2 * Secp256k1.n := by decide
      obtain ⟨hz0, hzn⟩ := hz'
      rintro (rfl | hh | hh)
      · exact hself
      · omega
      · omega

end Tecdsa
