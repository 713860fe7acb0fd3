import Tecdsa.Proof.CurveOrder
import Tecdsa.Proof.KeyFlow
import Tecdsa.Proof.MaskedInverse

/-!
# When the threshold path emits an `r` out of range

`sign_with_hash` throws on `r = 0`; `threshold_presign` tests that `R` is
finite and `threshold_sign` that `s` is not zero.  The x-coordinate `n` is on the
curve, so a finite `R` can have `r = 0`, and then `s = k⁻¹ z` is all that is
tested.

    EndsInRange … ↔ ¬ (R.x % n = 0, a mask, z ≠ 0)                   (thresholdSign_in_range_iff)
-/

namespace Tecdsa

open Residue SharedDivision

/-- The run throws, or stops on an `assert` where there are any, or returns a
signature in range. -/
def EndsInRange (build : Build) (out : Run Signature) : Prop :=
  (∃ what, out = .error (.thrown what)) ∨
    (build = .debug ∧ ∃ what, out = .error (.assertion what)) ∨
    ∃ sig, out = .ok sig ∧ (1 ≤ sig.r ∧ sig.r < Secp256k1.n) ∧
      1 ≤ sig.s ∧ sig.s ≤ Secp256k1.n / 2

/-- A presign with a finite nonce point, its `r` computed from it, and canonical
shares of `k ≠ 0` and of `sk`. -/
structure NoncePresign (p : ThresholdPresign) : Prop where
  valid : Valid p.R
  finite : p.R.infinity = false
  r : p.r = p.R.x.tmod Secp256k1.n
  sk1 : Canon Secp256k1.n p.sk1
  sk2 : Canon Secp256k1.n p.sk2
  k1 : Canon Secp256k1.n p.k1
  k2 : Canon Secp256k1.n p.k2
  k_ne_zero : (p.k1 + p.k2) % Secp256k1.n ≠ 0

section
variable {p : ThresholdPresign}

theorem NoncePresign.canon (hp : NoncePresign p) : CanonPresign p := by
  obtain ⟨ρ, -, hρ⟩ := tmod_n_rep hp.valid.denotes hp.finite
  exact ⟨by rw [hp.r]; exact hρ.1, hp.sk1, hp.sk2, hp.k1, hp.k2⟩

theorem NoncePresign.r_eq_zero_iff (hp : NoncePresign p) :
    p.r = 0 ↔ p.R.x % Secp256k1.n = 0 := by
  rw [hp.r, tmod_n_eq_emod hp.valid hp.finite]

/-- The presigns `threshold_presign` makes for a key of two shares. -/
theorem PresignDrawn.nonce {key : ThresholdKey} (hp : PresignDrawn key p)
    (hskA : NonzeroBelow Secp256k1.n key.skA) (hskB : NonzeroBelow Secp256k1.n key.skB) :
    NoncePresign p := by
  have hagreed := hp.agreed hskA hskB
  exact ⟨hp.R.valid, hp.finite, hp.r, hp.sk1, hagreed.shares.sk2, hp.k1, hagreed.shares.k2,
    hagreed.k_ne_zero⟩

/-! ## The two ends of a run -/

/-- Without a mask both builds end before a signature. -/
theorem endsInRange_of_unmasked (hp : CanonPresign p) (h : Sha256Hash) {t : Tape Int}
    (ht : t.All (Canon Secp256k1.n)) (hmask : (t.r1 + t.r2) % Secp256k1.n = 0) (build : Build)
    (key : ThresholdKey) (rest : List Int) :
    EndsInRange build ((thresholdSign build key p h).run (t.toList ++ rest)).1 := by
  cases build with
  | release =>
    rw [run_thresholdSign_unmasked hp h ht hmask]
    exact Or.inl ⟨_, rfl⟩
  | debug =>
    obtain ⟨hinv, hr1, hr2, -⟩ := ht
    obtain ⟨T, hT, hTrep⟩ := run_generateTriple hinv (t.r1 :: t.r2 :: (t.mul.toList ++ rest))
    have hstop := run_maskedInverseRun_unmasked_debug hp.k1 hp.k2 hTrep hr1 hr2 hmask
      (t.mul.toList ++ rest)
    have hrun : (thresholdSignRun .debug p h).run (t.toList ++ rest) =
        (.error (.assertion "mod_inv: a is not invertible modulo m"), t.mul.toList ++ rest) := by
      rw [Tape.toList_append]
      unfold thresholdSignRun thresholdSignRunWith
      simp only [Draws.liftM_self, maskedInverseRunWith_drawnInv, Draws.run_bind_of_ok hT, Draws.run_bind_of_error hstop]
    have hsign : (thresholdSign .debug key p h).run (t.toList ++ rest) =
        (.error (.assertion "mod_inv: a is not invertible modulo m"), t.mul.toList ++ rest) := by
      unfold thresholdSign thresholdSignWith
      exact Draws.run_bind_of_error hrun
    rw [hsign]
    exact Or.inr (Or.inl ⟨rfl, _, rfl⟩)

/-- With a mask and `r = 0` the run ends in range when it throws, for `z = 0`. -/
theorem endsInRange_iff_of_r_zero (hp : CanonPresign p) (hk : (p.k1 + p.k2) % Secp256k1.n ≠ 0)
    (h : Sha256Hash) {t : Tape Int} (ht : t.All (Canon Secp256k1.n))
    (hmask : (t.r1 + t.r2) % Secp256k1.n ≠ 0) (hr : p.r = 0) (build : Build) (key : ThresholdKey)
    (rest : List Int) : EndsInRange build ((thresholdSign build key p h).run (t.toList ++ rest)).1 ↔
      hashToScalar h Secp256k1.n = 0 := by
  have hk0 : (((p.k1 + p.k2) % Secp256k1.n : Int) : Fn) ≠ 0 :=
    (canon_emod n_pos (p.k1 + p.k2)).cast_ne_zero hk
  have hz := (hashToScalar_rep h).1.rep
  have hs := signScalar_rep ((p.k1 + p.k2) % Secp256k1.n) (hashToScalar h Secp256k1.n) p.r
    ((p.sk1 + p.sk2) % Secp256k1.n)
  rw [hr, Int.cast_zero, zero_mul, add_zero] at hs
  -- `s = k⁻¹ z`
  have hzero : signScalar ((p.k1 + p.k2) % Secp256k1.n) (hashToScalar h Secp256k1.n) 0
      ((p.sk1 + p.sk2) % Secp256k1.n) = 0 ↔ hashToScalar h Secp256k1.n = 0 := by
    rw [hs.eq_zero_iff, hz.eq_zero_iff, mul_eq_zero, or_iff_right (inv_ne_zero hk0)]
  rw [run_thresholdSign_masked hp hk h ht hmask build key rest rfl, hr]
  by_cases hz0 : hashToScalar h Secp256k1.n = 0
  · rw [if_pos (hzero.mpr hz0)]
    exact ⟨fun _ => hz0, fun _ => Or.inl ⟨_, rfl⟩⟩
  · rw [if_neg (fun h0 => hz0 (hzero.mp h0))]
    constructor
    · rintro (⟨what, hw⟩ | ⟨-, what, hw⟩ | ⟨sig, hsig, hrange, -⟩)
      · cases hw
      · cases hw
      · cases hsig
        have h1 := hrange.1
        simp at h1
    · intro h0
      exact absurd h0 hz0

/-- With a mask and `r ≠ 0` the run throws or returns a signature in range. -/
theorem endsInRange_of_r_ne_zero (hp : CanonPresign p) (hk : (p.k1 + p.k2) % Secp256k1.n ≠ 0)
    (h : Sha256Hash) {t : Tape Int} (ht : t.All (Canon Secp256k1.n))
    (hmask : (t.r1 + t.r2) % Secp256k1.n ≠ 0) (hr : p.r ≠ 0) (build : Build) (key : ThresholdKey)
    (rest : List Int) : EndsInRange build ((thresholdSign build key p h).run (t.toList ++ rest)).1 := by
  have hs := signScalar_rep ((p.k1 + p.k2) % Secp256k1.n) (hashToScalar h Secp256k1.n) p.r
    ((p.sk1 + p.sk2) % Secp256k1.n)
  rw [run_thresholdSign_masked hp hk h ht hmask build key rest rfl]
  split
  · exact Or.inl ⟨_, rfl⟩
  · next hs0 =>
    exact Or.inr (Or.inr ⟨_, rfl, hp.r.range hr, normalizeLowS_range hs.1 hs0⟩)

/-- **The threshold path ends in range exactly when `r ≠ 0`, or the mask or `z` is
zero**: the tests it makes are of `s`. -/
theorem thresholdSign_in_range_iff (hp : NoncePresign p) (h : Sha256Hash) {t : Tape Int}
    (ht : t.All (Canon Secp256k1.n)) (build : Build) (key : ThresholdKey) (rest : List Int) :
    EndsInRange build ((thresholdSign build key p h).run (t.toList ++ rest)).1 ↔
      (p.R.x % Secp256k1.n ≠ 0 ∨ (t.r1 + t.r2) % Secp256k1.n = 0 ∨
        hashToScalar h Secp256k1.n = 0) := by
  have hcanon := hp.canon
  by_cases hmask : (t.r1 + t.r2) % Secp256k1.n = 0
  · exact iff_of_true (endsInRange_of_unmasked hcanon h ht hmask build key rest)
      (Or.inr (Or.inl hmask))
  · by_cases hr : p.r = 0
    · rw [endsInRange_iff_of_r_zero hcanon hp.k_ne_zero h ht hmask hr build key rest]
      have hx := hp.r_eq_zero_iff.mp hr
      simp only [hx, hmask, ne_eq, not_true, false_or]
    · have hx : p.R.x % Secp256k1.n ≠ 0 := fun h0 => hr (hp.r_eq_zero_iff.mpr h0)
      exact iff_of_true (endsInRange_of_r_ne_zero hcanon hp.k_ne_zero h ht hmask hr build key rest)
        (Or.inl hx)

end

/-! ## The point with `x = n` -/

/-- A point of the curve whose x-coordinate is `n`. -/
def pointN : AffinePoint := .ofXY Secp256k1.n
  69186903114498750860896505739646488798970448350379198433587849548453839594014

theorem pointN_valid : Valid pointN := by decide +kernel

/-- `k = 1` and `sk = 1`, with the nonce point `pointN`. -/
def zeroPresign : ThresholdPresign := { samplePresign with R := pointN, r := 0 }

theorem zeroPresign_nonce : NoncePresign zeroPresign where
  valid := pointN_valid
  finite := rfl
  r := by decide
  sk1 := by decide
  sk2 := by decide
  k1 := by decide
  k2 := by decide
  k_ne_zero := by decide

/-- The hash that spells 1. -/
def oneHash : Sha256Hash := ⟨List.replicate 31 0 ++ [1], rfl⟩

theorem thresholdSign_in_range_sample : NoncePresign zeroPresign ∧
    EndsInRange .release
      ((thresholdSign .release sampleKey zeroPresign zeroHash).run (sampleTape.toList ++ [])).1 :=
  ⟨zeroPresign_nonce, (thresholdSign_in_range_iff zeroPresign_nonce zeroHash sampleTape_canon
    .release sampleKey []).mpr (Or.inr (Or.inr (by decide)))⟩

theorem signScalar_one : signScalar 1 1 0 1 = 1 :=
  (signScalar_rep 1 1 0 1).congr
    ⟨by decide, by rw [Int.cast_one, Int.cast_zero, inv_one, one_mul, zero_mul, add_zero]⟩

/-- On one tape `r = 0` is returned. -/
theorem run_zeroPresign (build : Build) :
    (thresholdSign build sampleKey zeroPresign oneHash).run sampleTape.toList = (.ok ⟨0, 1⟩, []) := by
  have hrun := run_thresholdSign_masked zeroPresign_nonce.canon zeroPresign_nonce.k_ne_zero oneHash
    sampleTape_canon (by decide) build sampleKey [] rfl
  rw [show (zeroPresign.k1 + zeroPresign.k2) % Secp256k1.n = 1 by decide,
    show (zeroPresign.sk1 + zeroPresign.sk2) % Secp256k1.n = 1 by decide,
    show hashToScalar oneHash Secp256k1.n = 1 by decide, show zeroPresign.r = 0 from rfl,
    signScalar_one, List.append_nil] at hrun
  rw [hrun]
  decide

/-- Some draws make `threshold_presign` return that nonce point. -/
theorem presign_reaches_pointN (build : Build) {key : ThresholdKey}
    (hskA : NonzeroBelow Secp256k1.n key.skA) (hskB : NonzeroBelow Secp256k1.n key.skB) :
    ∃ kA p, (thresholdPresign build key).run [kA, 1, 0, 0] = (.ok p, []) ∧ NoncePresign p ∧
      p.R = pointN := by
  obtain ⟨kA, hkA, -, hden⟩ := exists_scalarMul_eq pointN_valid rfl
  have hone : NonzeroBelow Secp256k1.n 1 := ⟨by decide, by decide⟩
  have hzero : Canon Secp256k1.n 0 := by decide
  obtain ⟨R, hrun, hR⟩ := run_thresholdPresign build key hkA hone hzero hzero []
  have hdrawn := (thresholdPresign_yields build key).returns _ _ _ hrun
  rw [Int.cast_one, mul_one] at hR
  have hRN : pointN = R := hden.record_unique hR rfl
  subst hRN
  exact ⟨kA, _, hrun, hdrawn.nonce hskA hskB, rfl⟩

/-- A nonce point with `x = n` is signed with, and `r = 0` emitted: for shares
of `k = 1`, and for the shares that some draws of `threshold_presign` make. -/
theorem thresholdSign_emits_zero_r : NoncePresign zeroPresign ∧ zeroPresign.R.x = Secp256k1.n ∧
    (thresholdSign .release sampleKey zeroPresign oneHash).run sampleTape.toList =
      (.ok ⟨0, 1⟩, []) ∧
    ¬ EndsInRange .release
      ((thresholdSign .release sampleKey zeroPresign oneHash).run sampleTape.toList).1 ∧
    ∃ kA p, (thresholdPresign .release sampleKey).run [kA, 1, 0, 0] = (.ok p, []) ∧
      NoncePresign p ∧ p.R = zeroPresign.R ∧ ¬ EndsInRange .release
        ((thresholdSign .release sampleKey p oneHash).run sampleTape.toList).1 := by
  have hone : hashToScalar oneHash Secp256k1.n ≠ 0 := by decide
  have emits {p : ThresholdPresign} (hp : NoncePresign p) (hR : p.R = pointN) :
      ¬ EndsInRange .release
        ((thresholdSign .release sampleKey p oneHash).run sampleTape.toList).1 := by
    have hr : p.r = 0 := by
      rw [hp.r, hR]
      decide
    have hiff := endsInRange_iff_of_r_zero hp.canon hp.k_ne_zero oneHash sampleTape_canon
      (by decide) hr .release sampleKey []
    rw [List.append_nil] at hiff
    exact fun h => hone (hiff.mp h)
  obtain ⟨kA, p, hrun, hp, hR⟩ := presign_reaches_pointN .release
    (show NonzeroBelow Secp256k1.n sampleKey.skA from ⟨by decide, by decide⟩)
    (show NonzeroBelow Secp256k1.n sampleKey.skB from ⟨by decide, by decide⟩)
  exact ⟨zeroPresign_nonce, rfl, run_zeroPresign .release, emits zeroPresign_nonce rfl, kA, p, hrun,
    hp, hR, emits hp hR⟩

end Tecdsa
