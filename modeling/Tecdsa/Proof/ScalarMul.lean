import Tecdsa.Lib.Ladder
import Tecdsa.Proof.CurveGroup

/-!
# `scalar_mul` computes integer multiples, and `G` has order `n`

    Denotes P A → scalarMul build k P = .ok R, Denotes R (k • A)     (scalarMul_denotes)
    addOrderOf G = n                                                 (addOrderOf_G)

The loop invariant at bit `i` is `R = (k mod 2^i) P`, `Q = 2^i P`.
-/

namespace Tecdsa

open Residue WeierstrassCurve.Affine

/-! ## The loop -/

theorem mod_two_pow_succ (k i : Nat) :
    k % 2 ^ (i + 1) = k % 2 ^ i + (if k.testBit i then 2 ^ i else 0) := by
  rw [Nat.mod_pow_succ, ← Nat.toNat_testBit]
  cases k.testBit i <;> simp

theorem scalarMulLoop_succ (build : Build) (k : Int) (numBits todo i : Nat) (R Q : AffinePoint) :
    scalarMulLoop build k numBits (todo + 1) i R Q =
      ((if mpzTstbit k i then pointAdd build R Q else .ok R) >>= fun R' =>
        (if i + 1 < numBits then pointDouble build Q else .ok Q) >>= fun Q' =>
          scalarMulLoop build k numBits todo (i + 1) R' Q') := by
  unfold scalarMulLoop
  rw [scalarMulLoopWith]
  split <;> split <;> rfl

theorem scalarMulLoop_denotes {b : Fp} (k numBits : Nat) (A : PointsOf b) :
    ∀ (todo i : Nat) (R Q : AffinePoint), i + todo = numBits → Denotes R ((k % 2 ^ i) • A) →
      (todo ≠ 0 → Denotes Q ((2 ^ i) • A)) →
      ∃ S, (∀ build, scalarMulLoop build k numBits todo i R Q = .ok S) ∧
        Denotes S ((k % 2 ^ numBits) • A) := by
  intro todo
  induction todo with
  | zero =>
    intro i R Q hi hR _
    have : i = numBits := by omega
    subst this
    exact ⟨R, fun build => rfl, hR⟩
  | succ todo ih =>
    intro i R Q hi hR hQ
    have hQ' := hQ (by omega)
    -- the addition, made when bit `i` is set
    obtain ⟨R', hR', hRden⟩ : ∃ R', (∀ build, (if mpzTstbit k i then pointAdd build R Q
        else .ok R) = .ok R') ∧ Denotes R' ((k % 2 ^ (i + 1)) • A) := by
      rw [mod_two_pow_succ]
      cases hb : k.testBit i with
      | true =>
        obtain ⟨R', hR', hden⟩ := pointAdd_denotes hR hQ'
        rw [← add_nsmul] at hden
        exact ⟨R', fun build => by rw [← hR' build]; simp [mpzTstbit, Int.testBit, hb], by simpa using hden⟩
      | false => exact ⟨R, fun build => by simp [mpzTstbit, Int.testBit, hb], by simpa using hR⟩
    -- the doubling, skipped after the last bit
    obtain ⟨Q', hQ', hQden⟩ : ∃ Q', (∀ build, (if i + 1 < numBits then pointDouble build Q
        else .ok Q) = .ok Q') ∧ (todo ≠ 0 → Denotes Q' ((2 ^ (i + 1)) • A)) := by
      by_cases hlast : i + 1 < numBits
      · obtain ⟨Q', hQ'', hden⟩ := pointDouble_denotes hQ'
        rw [← mul_nsmul', ← pow_succ'] at hden
        exact ⟨Q', fun build => by rw [if_pos hlast, hQ'' build], fun _ => hden⟩
      · exact ⟨Q, fun build => by rw [if_neg hlast], fun h => absurd h (by omega)⟩
    obtain ⟨S, hS, hSden⟩ := ih (i + 1) R' Q' (by omega) hRden hQden
    refine ⟨S, ?_, hSden⟩
    intro build
    rw [scalarMulLoop_succ, hR' build, Run.ok_bind, hQ' build]
    exact hS build

/-! ## All scalars -/

theorem scalarMul_pos {k : Int} (build : Build) {P : AffinePoint} (hinf : ¬ P.infinity = true) (hk : 0 < k) :
    scalarMul build k P = scalarMulLoop build k (mpzSizeinbase2 k) (mpzSizeinbase2 k) 0 identity P := by
  unfold scalarMul
  rw [scalarMulWith, if_neg hinf, if_neg (by omega), if_neg (by omega)]
  rfl

theorem scalarMul_natCast {b : Fp} (k : Nat) {P : AffinePoint} {A : PointsOf b} (hP : Denotes P A) :
    ∃ R, (∀ build, scalarMul build k P = .ok R) ∧ Denotes R (k • A) := by
  by_cases hinf : P.infinity = true
  · refine ⟨P, fun build => by rw [scalarMul, scalarMulWith, if_pos hinf, Run.pure_eq_ok], ?_⟩
    have hA := hP.infinity_iff.mp hinf
    rwa [hA, nsmul_zero, ← hA]
  · by_cases hk : k = 0
    · subst hk
      refine ⟨identity, fun build => by rw [scalarMul, scalarMulWith, if_neg hinf]; simp, ?_⟩
      rw [zero_nsmul]
      exact .infinity
    · have hbits : k % 2 ^ mpzSizeinbase2 k = k := Nat.mod_eq_of_lt Nat.lt_log2_self
      obtain ⟨S, hS, hden⟩ := scalarMulLoop_denotes k (mpzSizeinbase2 k) A (mpzSizeinbase2 k) 0
        identity P (by omega) (by rw [pow_zero, Nat.mod_one, zero_nsmul]; exact .infinity)
        (fun _ => by rwa [pow_zero, one_nsmul])
      rw [hbits] at hden
      refine ⟨S, ?_, hden⟩
      intro build
      rw [scalarMul_pos _ hinf (by omega)]
      exact hS build

/-- **`scalar_mul` is the group's scalar multiplication**, in both builds. -/
theorem scalarMul_denotes {b : Fp} (k : Int) {P : AffinePoint} {A : PointsOf b} (hP : Denotes P A) :
    ∃ R, (∀ build, scalarMul build k P = .ok R) ∧ Denotes R (k • A) := by
  rcases Int.lt_or_le k 0 with hneg | hpos
  · by_cases hinf : P.infinity = true
    · refine ⟨P, fun build => by rw [scalarMul, scalarMulWith, if_pos hinf, Run.pure_eq_ok], ?_⟩
      have hA := hP.infinity_iff.mp hinf
      rwa [hA, zsmul_zero, ← hA]
    · obtain ⟨R, hR, hden⟩ := scalarMul_natCast k.natAbs (pointNeg_denotes hP)
      have hk : ((k.natAbs : Nat) : Int) = -k := by omega
      refine ⟨R, fun build => ?_, ?_⟩
      · unfold scalarMul at hR ⊢
        rw [scalarMulWith, if_neg hinf, if_neg (by omega), if_pos hneg, ← hk]
        exact hR build
      · rw [← natCast_zsmul, hk, neg_zsmul, zsmul_neg, neg_neg] at hden
        exact hden
  · obtain ⟨R, hR, hden⟩ := scalarMul_natCast k.toNat hP
    rw [← natCast_zsmul, Int.toNat_of_nonneg hpos] at hden
    rw [Int.toNat_of_nonneg hpos] at hR
    exact ⟨R, hR, hden⟩

/-! ## The generator -/

theorem generator_valid : Valid generator := by decide +kernel

/-- The generator as a group element. -/
noncomputable def G : Group := toGroup generator

theorem generator_denotes : Denotes generator G := generator_valid.denotes

theorem G_ne_zero : G ≠ 0 := by
  intro h
  have := generator_denotes.infinity_iff.mpr h
  cases this

/-- A checked ladder over the code's own constants. -/
def ladderCheck (bits k x y : Nat) : Bool :=
  Ladder.check Secp256k1.p.toNat 0 Secp256k1.gx.toNat Secp256k1.gy.toNat bits k x y

theorem nsmul_G_denotes {bits k x y : Nat} (h : ladderCheck bits k x y = true)
    (hx : (x : Int) < Secp256k1.p) (hy : (y : Int) < Secp256k1.p) :
    Denotes ⟨x, y, false⟩ (k • G) := by
  have hG := generator_denotes
  generalize G = A at hG ⊢
  cases hG with
  | finite hns hgx hgy =>
    have hcx : ((Secp256k1.gx.toNat : ℕ) : Fp) = _ := (Int.cast_natCast _).symm.trans hgx.2
    have hcy : ((Secp256k1.gy.toNat : ℕ) : Fp) = _ := (Int.cast_natCast _).symm.trans hgy.2
    obtain ⟨h', he⟩ := Ladder.smul_of_check Nat.cast_zero hcx hcy hns h
    rw [he]
    exact .finite h' (rep_natCast x hx) (rep_natCast y hy)

set_option maxRecDepth 20000 in
theorem ladderCheck_pred_n : ladderCheck 255 (Secp256k1.n - 1).toNat Secp256k1.gx.toNat
    (Secp256k1.p - Secp256k1.gy).toNat = true := by decide +kernel

/-- `n G = O`: the ladder ends at `(n - 1) G = -G`. -/
theorem n_nsmul_G : Secp256k1.n.toNat • G = 0 := by
  have hpred := nsmul_G_denotes ladderCheck_pred_n (by decide) (by decide)
  have hneg : (Secp256k1.n - 1).toNat • G = -G := hpred.unique (pointNeg_denotes generator_denotes)
  have hn : Secp256k1.n.toNat = (Secp256k1.n - 1).toNat + 1 := by decide
  rw [hn, succ_nsmul, hneg, neg_add_cancel]

/-- **`G` has order `n`.** -/
theorem addOrderOf_G : addOrderOf G = Secp256k1.n.toNat :=
  addOrderOf_eq_prime n_nsmul_G G_ne_zero

end Tecdsa
