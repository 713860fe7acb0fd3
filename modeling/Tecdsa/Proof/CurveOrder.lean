import Mathlib.FieldTheory.Finite.Basic
import Mathlib.GroupTheory.Perm.Cycle.Type
import Tecdsa.Proof.Scalars

/-!
# Every point of secp256k1 is a multiple of `G`

The order of the curve is a multiple of `n`, at most `2 (p + 1)` and odd, since
`-7` is not a cube modulo `p`.  So it is `n`.

    card_group                     Nat.card Group = n
    exists_scalarMul_eq            R = scalar_mul(k, G) for some k in [1, n - 1]
-/

namespace Tecdsa

open Residue WeierstrassCurve.Affine

/-! ## No point of order 2 -/

/-- `-7` and the modulus it is raised by. -/
def cubeTest : Lucas.Test := ⟨Secp256k1.p.toNat, (Secp256k1.p - 7).toNat, []⟩

theorem cubeTest_pow : cubeTest.pow ((Secp256k1.p.toNat - 1) / 3) ≠ 1 := by decide +kernel

theorem neg_seven_pow_ne_one : (-7 : Fp) ^ ((Secp256k1.p.toNat - 1) / 3) ≠ 1 := by
  have hroot : ((cubeTest.root : ℕ) : Fp) = -7 := by
    have hsum : cubeTest.root + 7 = Secp256k1.p.toNat := by decide
    have hcast : ((cubeTest.root + 7 : ℕ) : Fp) = 0 := by rw [hsum, ZMod.natCast_self]
    push_cast at hcast
    linear_combination hcast
  have h := cubeTest.cast_pow_eq_one (by decide) ((Secp256k1.p.toNat - 1) / 3) (by decide)
  intro hone
  rw [← hroot] at hone
  exact cubeTest_pow (h.mp hone)

/-- `-7` is not a cube. -/
theorem cube_add_seven_ne_zero (X : Fp) : X * X * X + 7 ≠ 0 := by
  intro h
  have hcube : X ^ 3 = -7 := by linear_combination h
  have hX : X ≠ 0 := by
    rintro rfl
    have h7 : ((7 : ℕ) : Fp) ≠ 0 := natCast_ne_zero 7 (by omega) (by decide)
    apply h7
    push_cast
    linear_combination h
  have hexp : 3 * ((Secp256k1.p.toNat - 1) / 3) = Secp256k1.p.toNat - 1 := by decide
  apply neg_seven_pow_ne_one
  rw [← hcube, ← pow_mul, hexp]
  exact ZMod.pow_card_sub_one_eq_one hX

theorem eq_zero_of_two_nsmul {A : Group} (h : (2 : ℕ) • A = 0) : A = 0 := by
  cases A with
  | zero => rfl
  | some X Y hXY =>
    exfalso
    obtain ⟨h', hneg⟩ := ShortCurve.neg_some hXY
    rw [two_nsmul] at h
    have heq := (eq_neg_of_add_eq_zero_left h).trans hneg
    rw [Point.some.injEq] at heq
    have hY : Y = 0 := by
      have : 2 * Y = 0 := by linear_combination heq.2
      exact (mul_eq_zero.mp this).resolve_left two_ne_zero_Fp
    have hcurve := (nonsingular_iff X Y).mp hXY
    rw [hY, mul_zero] at hcurve
    exact cube_add_seven_ne_zero X hcurve.symm

/-! ## The order -/

theorem card_group : Nat.card Group = Secp256k1.n.toNat := by
  have hle : Nat.card Group ≤ 2 * (Secp256k1.p.toNat + 1) := by
    have h := ShortCurve.card_point_le (a := (0 : Fp)) (b := 7)
    rwa [Nat.card_zmod] at h
  have hsmall : 2 * (Secp256k1.p.toNat + 1) < Secp256k1.n.toNat * 3 := by decide
  have hpos : 0 < Nat.card Group := Nat.card_pos
  obtain ⟨k, hk⟩ := addOrderOf_G ▸ addOrderOf_dvd_natCard G
  have hk3 : k < 3 := by
    by_contra hge
    have := Nat.mul_le_mul_left Secp256k1.n.toNat (show 3 ≤ k by omega)
    omega
  have hk0 : k ≠ 0 := by
    rintro rfl
    omega
  have hk2 : k ≠ 2 := by
    rintro rfl
    -- an even order has an element of order 2
    have : Fact (Nat.Prime 2) := ⟨Nat.prime_two⟩
    obtain ⟨A, hA⟩ := exists_prime_addOrderOf_dvd_card' 2 (Dvd.intro_left _ hk.symm)
    have hzero := eq_zero_of_two_nsmul (hA ▸ addOrderOf_nsmul_eq_zero A)
    rw [hzero, addOrderOf_zero] at hA
    omega
  rw [hk, show k = 1 by omega, Nat.mul_one]

theorem secp_base_surjective : Function.Surjective secp.base := by
  refine (secp_base_injective.bijective_of_nat_card_le ?_).2
  rw [card_group, Nat.card_zmod]

/-- **Every finite point of the curve is a multiple of `G`.** -/
theorem exists_scalarMul_eq {R : AffinePoint} (hR : Valid R) (hfin : R.infinity = false) :
    ∃ k : Int, (1 ≤ k ∧ k < Secp256k1.n) ∧ (∀ build, scalarMul build k generator = .ok R) ∧
      Denotes R (secp.base (k : Fn)) := by
  obtain ⟨κ, hκ⟩ := secp_base_surjective (toGroup R)
  have hden : Denotes R (secp.base κ) := hκ ▸ hR.denotes
  have hrep := rep_lift n_pos κ
  obtain ⟨S, hS, hdenS⟩ := scalarMul_base hrep
  have hSR : R = S := hden.record_unique hdenS hfin
  have hκ0 : κ ≠ 0 := by
    rintro rfl
    rw [map_zero] at hden
    have := hden.infinity_iff.mpr rfl
    rw [hfin] at this
    cases this
  have hne : lift κ ≠ 0 := fun h => hκ0 (hrep.eq_zero_iff.mp h)
  refine ⟨lift κ, hrep.1.range hne, ?_, ?_⟩
  · rw [hSR]
    exact hS
  · rw [hrep.2]
    exact hden

end Tecdsa
