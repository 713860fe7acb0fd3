import Tecdsa.Proof.ThresholdSign

/-!
# When `masked_inverse` returns shares of the inverse

It opens `m = k r` and inverts it; the mask `r = r1 + r2` is drawn as two
shares that are each uniform, so nothing keeps it from being zero.  With a
mask the shares sum to the inverse, in both builds; without one the Debug
build stops on the `assert` of `mod_inv` and the Release build returns two
zeros.

    InverseShares … ↔ (r1 + r2) % q ≠ 0                              (maskedInverse_shares_iff)
-/

namespace Tecdsa

open Residue SharedDivision

/-- The run on the mask shares `r1`, `r2` inverts a unit and returns canonical
shares of the inverse of `k1 + k2`. -/
def InverseShares (build : Build) (k1 k2 : Int) (T : BeaverTriple) (q r1 r2 : Int)
    (rest : List Int) : Prop :=
  ∃ run, (maskedInverseRun build k1 k2 T q).run (r1 :: r2 :: rest) = (.ok run, rest) ∧
    (maskedInverse build k1 k2 T q).run (r1 :: r2 :: rest) = (.ok (run.kinv1, run.kinv2), rest) ∧
    Int.gcd run.m q = 1 ∧ Canon q run.kinv1 ∧ Canon q run.kinv2 ∧
    (run.kinv1 + run.kinv2) * (k1 + k2) % q = 1

theorem run_maskedInverse {build : Build} {k1 k2 q : Int} {T : BeaverTriple} {tape rest : List Int}
    {run : MaskedRun} (h : (maskedInverseRun build k1 k2 T q).run tape = (.ok run, rest)) :
    (maskedInverse build k1 k2 T q).run tape = (.ok (run.kinv1, run.kinv2), rest) := by
  unfold maskedInverse
  rw [Draws.run_bind_of_ok h]
  rfl

/-- The argument of `mod_inv` in a run that returns. -/
theorem maskedInverseRun_m {build : Build} {k1 k2 q r1 r2 : Int} {T : BeaverTriple}
    {rest rest' : List Int} {run : MaskedRun} (hr1 : Canon q r1) (hr2 : Canon q r2)
    (h : (maskedInverseRun build k1 k2 T q).run (r1 :: r2 :: rest) = (.ok run, rest')) :
    run.m = modAdd (beaverMulRun k1 k2 r1 r2 T q).z1 (beaverMulRun k1 k2 r1 r2 T q).z2 q := by
  unfold maskedInverseRun maskedInverseRunWith at h
  simp only [Draws.liftM_self, Draws.run_bind_of_ok (run_uniformBelow hr1 _),
    Draws.run_bind_of_ok (run_uniformBelow hr2 _)] at h
  obtain ⟨mInv, mid, -, hend⟩ := Draws.run_bind_eq_ok h
  cases hend
  rfl

section
variable {q : Int} [Fact q.toNat.Prime] {k1 k2 r1 r2 : Int} {T : BeaverTriple}
  {T' : Triple (ZMod q.toNat)}

theorem prime_gt_one : 1 < q := by
  have := (Fact.out : q.toNat.Prime).one_lt
  omega

theorem emod_sum_eq_zero_iff (a b : Int) :
    (a + b) % q = 0 ↔ (a : ZMod q.toNat) + (b : ZMod q.toNat) = 0 := by
  have hq : 0 < q := by
    have := prime_gt_one (q := q)
    omega
  rw [← Int.cast_add]
  exact (rep_emod hq (a + b)).eq_zero_iff

/-- With a mask: `r1 m⁻¹ + r2 m⁻¹ = k⁻¹`. -/
theorem inverseShares_of_mask (hk1 : Canon q k1) (hk2 : Canon q k2) (hT : TripleRep q T T')
    (hr1 : Canon q r1) (hr2 : Canon q r2) (hk : (k1 + k2) % q ≠ 0) (hmask : (r1 + r2) % q ≠ 0)
    (build : Build) (rest : List Int) : InverseShares build k1 k2 T q r1 r2 rest := by
  have hk0 : (k1 : ZMod q.toNat) + k2 ≠ 0 := fun h => hk ((emod_sum_eq_zero_iff k1 k2).mpr h)
  have hr0 : (r1 : ZMod q.toNat) + r2 ≠ 0 := fun h => hmask ((emod_sum_eq_zero_iff r1 r2).mpr h)
  have hm0 := mul_ne_zero hk0 hr0
  have hq := prime_gt_one (q := q)
  obtain ⟨run, hrun, hrep⟩ := run_maskedInverseRun hk1.rep hk2.rep hT hr1 hr2
    (show build = .release ∨ _ from Or.inr hm0) rest
  refine ⟨run, hrun, run_maskedInverse hrun, ?_, hrep.kinv1.1, hrep.kinv2.1, ?_⟩
  · rw [← isUnit_cast_iff (by omega), hrep.m.2]
    exact hm0.isUnit
  · have hone : (((run.kinv1 + run.kinv2) * (k1 + k2) : Int) : ZMod q.toNat) = ((1 : Int) : _) := by
      rw [Int.cast_mul, Int.cast_add, hrep.kinv1.2, hrep.kinv2.2, Int.cast_add, Int.cast_one]
      field_simp
    rw [cast_eq_cast_iff (by omega)] at hone
    rw [hone, Int.emod_eq_of_lt (by omega) hq]

/-- Without a mask zero is opened. -/
theorem opened_of_unmasked (hk1 : Canon q k1) (hk2 : Canon q k2) (hT : TripleRep q T T')
    (hr1 : Canon q r1) (hr2 : Canon q r2) (hmask : (r1 + r2) % q = 0) :
    modAdd (beaverMulRun k1 k2 r1 r2 T q).z1 (beaverMulRun k1 k2 r1 r2 T q).z2 q = 0 := by
  have hmul := beaverMulRun_rep hk1.rep hk2.rep hr1.rep hr2.rep hT
  have hm := (modAdd_rep hmul.z1 hmul.z2).of_cast (mul_sum _ _ _ _ _)
  rw [(emod_sum_eq_zero_iff r1 r2).mp hmask, mul_zero] at hm
  exact hm.eq_zero_iff.mpr rfl

/-- Without a mask no run inverts a unit. -/
theorem not_inverseShares_of_unmasked (hk1 : Canon q k1) (hk2 : Canon q k2) (hT : TripleRep q T T')
    (hr1 : Canon q r1) (hr2 : Canon q r2) (hmask : (r1 + r2) % q = 0) (build : Build)
    (rest : List Int) : ¬ InverseShares build k1 k2 T q r1 r2 rest := by
  rintro ⟨run, hrun, -, hgcd, -⟩
  have hq := prime_gt_one (q := q)
  rw [maskedInverseRun_m hr1 hr2 hrun, opened_of_unmasked hk1 hk2 hT hr1 hr2 hmask,
    Int.gcd_zero_left] at hgcd
  omega

/-- The Debug build stops on the `assert` of `mod_inv`. -/
theorem run_maskedInverseRun_unmasked_debug (hk1 : Canon q k1) (hk2 : Canon q k2)
    (hT : TripleRep q T T') (hr1 : Canon q r1) (hr2 : Canon q r2) (hmask : (r1 + r2) % q = 0)
    (rest : List Int) : (maskedInverseRun .debug k1 k2 T q).run (r1 :: r2 :: rest) =
      (.error (.assertion "mod_inv: a is not invertible modulo m"), rest) := by
  have hq := prime_gt_one (q := q)
  have hinv : modInv .debug (modAdd (beaverMulRun k1 k2 r1 r2 T q).z1
      (beaverMulRun k1 k2 r1 r2 T q).z2 q) q =
        .error (.assertion "mod_inv: a is not invertible modulo m") := by
    have hgcd : Int.gcd 0 q ≠ 1 := by
      rw [Int.gcd_zero_left]
      omega
    rw [opened_of_unmasked hk1 hk2 hT hr1 hr2 hmask, modInv, mpzInvert_eq_none hgcd]
  unfold maskedInverseRun maskedInverseRunWith drawnInv
  simp only [Draws.liftM_self, Draws.run_bind_of_ok (run_uniformBelow hr1 _),
    Draws.run_bind_of_ok (run_uniformBelow hr2 _), hinv]
  rfl

/-- The Release build goes on with the inverse that `mod_inv` left at zero. -/
theorem run_maskedInverse_unmasked (hk1 : Canon q k1) (hk2 : Canon q k2) (hT : TripleRep q T T')
    (hr1 : Canon q r1) (hr2 : Canon q r2) (hmask : (r1 + r2) % q = 0) (rest : List Int) :
    (maskedInverse .release k1 k2 T q).run (r1 :: r2 :: rest) = (.ok (0, 0), rest) := by
  obtain ⟨run, hrun, hrep⟩ := run_maskedInverseRun hk1.rep hk2.rep hT hr1 hr2 (Or.inl rfl) rest
  have hm0 := (emod_sum_eq_zero_iff r1 r2).mp hmask
  have h1 : run.kinv1 = 0 := hrep.kinv1.eq_zero_iff.mpr (by rw [hm0, mul_zero, inv_zero, mul_zero])
  have h2 : run.kinv2 = 0 := hrep.kinv2.eq_zero_iff.mpr (by rw [hm0, mul_zero, inv_zero, mul_zero])
  rw [run_maskedInverse hrun, h1, h2]

end

/-- **`masked_inverse` inverts exactly when there is a mask**, modulo every
prime, for every triple `generate_triple` makes, in both builds. -/
theorem maskedInverse_shares_iff {q k1 k2 r1 r2 : Int} (hq : q.toNat.Prime) (hk1 : Canon q k1)
    (hk2 : Canon q k2) (hk : (k1 + k2) % q ≠ 0) {T : BeaverTriple} {tape mid : List Int}
    (hT : (generateTriple q).run tape = (.ok T, mid)) (hr1 : Canon q r1) (hr2 : Canon q r2)
    (build : Build) (rest : List Int) :
    InverseShares build k1 k2 T q r1 r2 rest ↔ (r1 + r2) % q ≠ 0 := by
  have : Fact q.toNat.Prime := ⟨hq⟩
  obtain ⟨t, ht, rfl⟩ := generateTriple_eq_ok hT
  obtain ⟨T₀, hT₀, hrep⟩ := run_generateTriple ht mid
  rw [hT₀] at hT
  cases hT
  constructor
  · intro hshares hmask
    exact not_inverseShares_of_unmasked hk1 hk2 hrep hr1 hr2 hmask build rest hshares
  · intro hmask
    exact inverseShares_of_mask hk1 hk2 hrep hr1 hr2 hk hmask build rest

/-! ## The shares `k1 = 0`, `k2 = 1` and the triple of zeros -/

def zeroTriple : BeaverTriple := ⟨0, 0, 0, 0, 0, 0⟩

theorem generateTriple_zeros : (generateTriple Secp256k1.n).run [0, 0, 0, 0, 0] =
    (.ok zeroTriple, []) := by decide +kernel

theorem maskedInverse_shares_sample :
    InverseShares .release 0 1 zeroTriple Secp256k1.n 1 0 [] ∧
      ¬ InverseShares .release 0 1 zeroTriple Secp256k1.n 1 (Secp256k1.n - 1) [] :=
  ⟨(maskedInverse_shares_iff Secp256k1.prime_n (by decide) (by decide) (by decide)
      generateTriple_zeros (by decide) (by decide) .release []).mpr (by decide),
    mt (maskedInverse_shares_iff Secp256k1.prime_n (by decide) (by decide) (by decide)
      generateTriple_zeros (by decide) (by decide) .release []).mp (by decide)⟩

/-- The draws 1 and `n - 1` leave no mask: two zeros are returned. -/
theorem maskedInverse_zero_mask : Secp256k1.n.toNat.Prime ∧ (0 + 1) % Secp256k1.n ≠ 0 ∧
    (generateTriple Secp256k1.n).run [0, 0, 0, 0, 0] = (.ok zeroTriple, []) ∧
    (maskedInverse .release 0 1 zeroTriple Secp256k1.n).run [1, Secp256k1.n - 1] =
      (.ok (0, 0), []) ∧
    ¬ InverseShares .release 0 1 zeroTriple Secp256k1.n 1 (Secp256k1.n - 1) [] := by
  have hrun : (maskedInverse .release 0 1 zeroTriple Secp256k1.n).run [1, Secp256k1.n - 1] =
      (.ok (0, 0), []) := by decide +kernel
  refine ⟨Secp256k1.prime_n, by decide, generateTriple_zeros, hrun, ?_⟩
  rintro ⟨run, -, hrun', -, -, -, hone⟩
  rw [hrun] at hrun'
  injection hrun' with hpair
  injection hpair with hpair
  injection hpair with h1 h2
  rw [← h1, ← h2] at hone
  revert hone
  decide

end Tecdsa
