import Tecdsa.Code.Ecdsa
import Tecdsa.Lib.EcdsaEquation
import Tecdsa.Proof.PointArith

/-!
# `verify` decides the signing equation

secp256k1 is an `EcdsaGroup`: `G` has order `n`, so its multiples are a
homomorphism from `Fn`, and the coordinate of a point is `x mod n`.

    verify build Q msg r s = .ok b, b = true ↔ r, s in range and secp.Accepts   (verify_spec)
-/

namespace Tecdsa

open Residue WeierstrassCurve.Affine

/-! ## secp256k1 as a signature group -/

/-- `x ↦ x G` from the integers. -/
noncomputable def mulG : ℤ →+ Group := zmultiplesHom Group G

theorem mulG_apply (x : Int) : mulG x = x • G := rfl

theorem mulG_n : mulG (Secp256k1.n.toNat : ℤ) = 0 := by
  rw [mulG_apply, natCast_zsmul, n_nsmul_G]

/-- The x-coordinate reduced modulo `n`. -/
def coordX : Group → Option Fn
  | .zero => none
  | .some X _ _ => some (X.val : Fn)

/-- The group of `G`. -/
noncomputable def secp : EcdsaGroup Fn Group where
  base := ZMod.lift _ ⟨mulG, mulG_n⟩
  coord := coordX
  coord_zero := rfl
  coord_neg P := by
    cases P with
    | zero => rfl
    | some X Y h => rw [Point.neg_some]; rfl

theorem secp_base_intCast (x : Int) : secp.base (x : Fn) = x • G := ZMod.lift_coe _ _ _

theorem secp_base_injective : Function.Injective secp.base := by
  rw [injective_iff_map_eq_zero]
  intro x hx
  obtain ⟨x, rfl⟩ := ZMod.intCast_surjective x
  rw [secp_base_intCast, ← addOrderOf_dvd_iff_zsmul_eq_zero, addOrderOf_G] at hx
  exact (ZMod.intCast_zmod_eq_zero_iff_dvd x Secp256k1.n.toNat).mpr hx

/-- A multiple of `G` by a scalar that is not zero is finite. -/
theorem Denotes.finite_of_ne_zero {R : AffinePoint} {κ : Fn} (hR : Denotes R (secp.base κ))
    (hκ : κ ≠ 0) : R.infinity = false := by
  rw [Bool.eq_false_iff]
  intro hinf
  exact hκ (secp_base_injective ((hR.infinity_iff.mp hinf).trans (map_zero secp.base).symm))

/-- What `X.x % n` is. -/
theorem tmod_n_rep {R : AffinePoint} {A : Group} (hR : Denotes R A) (hfin : R.infinity = false) :
    ∃ r : Fn, secp.coord A = some r ∧ Rep Secp256k1.n (R.x.tmod Secp256k1.n) r := by
  cases hR with
  | infinity => cases hfin
  | @finite x y X Y h hx hy =>
    refine ⟨(X.val : Fn), rfl, ?_⟩
    have hval : ((X.val : Nat) : Int) = x := hx.lift_eq
    rw [Int.tmod_eq_emod_of_nonneg hx.1.1, ← hval, ← Int.cast_natCast X.val]
    exact rep_emod n_pos _

/-- `%` on the x-coordinate of a finite valid point. -/
theorem tmod_n_eq_emod {R : AffinePoint} (hR : Valid R) (hfin : R.infinity = false) :
    R.x.tmod Secp256k1.n = R.x % Secp256k1.n := by
  rcases hR with h | ⟨hx, -⟩
  · rw [hfin] at h
    cases h
  · exact Int.tmod_eq_emod_of_nonneg hx.1

theorem coord_of_infinity {R : AffinePoint} {A : Group} (hR : Denotes R A) (hinf : R.infinity = true) :
    secp.coord A = none := by
  rw [hR.infinity_iff.mp hinf]
  exact secp.coord_zero

/-- Comparing `X.x % n` with a canonical `r` compares coordinates. -/
theorem tmod_n_eq_iff {R : AffinePoint} {A : Group} (hR : Denotes R A) (hfin : R.infinity = false)
    {r : Int} {ρ : Fn} (hr : Rep Secp256k1.n r ρ) :
    R.x.tmod Secp256k1.n = r ↔ secp.coord A = some ρ := by
  obtain ⟨r', hcoord, hrep⟩ := tmod_n_rep hR hfin
  rw [hrep.eq_iff hr, hcoord, Option.some.injEq]

theorem hashToScalar_rep (h : Sha256Hash) :
    Rep Secp256k1.n (hashToScalar h Secp256k1.n) ((mpzImport h.val : Int) : Fn) := by
  unfold hashToScalar
  rw [Int.tmod_eq_emod_of_nonneg (show 0 ≤ mpzImport h.val from Int.natCast_nonneg _)]
  exact rep_emod n_pos _

/-! ## `verify` -/

/-- The scalar a message is hashed to. -/
def msgScalar (msg : Octets) : Fn := (hashToScalar (doubleSha256 msg) Secp256k1.n : Int)

theorem msgScalar_rep (msg : Octets) :
    Rep Secp256k1.n (hashToScalar (doubleSha256 msg) Secp256k1.n) (msgScalar msg) :=
  (hashToScalar_rep _).1.rep

theorem scalarMul_base {k : Int} {κ : Fn} (hk : Rep Secp256k1.n k κ) :
    ∃ R, (∀ build, scalarMul build k generator = .ok R) ∧ Denotes R (secp.base κ) := by
  obtain ⟨R, hR, hden⟩ := scalarMul_denotes k generator_denotes
  rw [← secp_base_intCast, hk.2] at hden
  exact ⟨R, hR, hden⟩

/-- A scalar known modulo `n` multiplies a multiple of `G`. -/
theorem scalarMul_multiple {k : Int} {κ δ : Fn} (hk : Rep Secp256k1.n k κ) {Q : AffinePoint}
    (hQ : Denotes Q (secp.base δ)) :
    ∃ R, (∀ build, scalarMul build k Q = .ok R) ∧ Denotes R (secp.base (κ * δ)) := by
  obtain ⟨R, hR, hden⟩ := scalarMul_denotes k hQ
  rw [← map_zsmul, zsmul_eq_mul, hk.2] at hden
  exact ⟨R, hR, hden⟩

theorem verifyScalar_out_of_range {build : Build} {Q : AffinePoint} {z r s : Int}
    (h : ¬ ((1 ≤ r ∧ r < Secp256k1.n) ∧ 1 ≤ s ∧ s < Secp256k1.n)) :
    verifyScalar build Q z r s = .ok false := by
  unfold verifyScalar
  by_cases hr : r < 1 ∨ r ≥ Secp256k1.n
  · rw [if_pos hr]
  · rw [if_neg hr, if_pos (by omega)]

/-- In range `verify` is its last test, made on a point that the caller names. -/
theorem verifyScalar_in_range {build : Build} {Q X1 X2 X : AffinePoint} {z r s w : Int}
    (hr : 1 ≤ r ∧ r < Secp256k1.n) (hs : 1 ≤ s ∧ s < Secp256k1.n)
    (hw : modInv build s Secp256k1.n = .ok w)
    (hX1 : scalarMul build (modMul z w Secp256k1.n) generator = .ok X1)
    (hX2 : scalarMul build (modMul r w Secp256k1.n) Q = .ok X2) (hX : pointAdd build X1 X2 = .ok X) :
    verifyScalar build Q z r s = .ok (if X.infinity then false else X.x.tmod Secp256k1.n == r) := by
  unfold verifyScalar
  rw [if_neg (by omega), if_neg (by omega)]
  simp only [hw, hX1, hX2, hX, Run.ok_bind]
  cases X.infinity <;> rfl

/-- `verify` in range, from the hash scalar on, when `u₂ Q` is the multiple of
`G` that the key `δ` makes it. -/
theorem verifyScalar_iff_accepts {Q : AffinePoint} {δ ζ : Fn} {z r s : Int} (hz : Rep Secp256k1.n z ζ)
    (hr : 1 ≤ r ∧ r < Secp256k1.n) (hs : 1 ≤ s ∧ s < Secp256k1.n)
    (hQ : ∀ u : Int, Rep Secp256k1.n u ((r : Fn) * (s : Fn)⁻¹) →
      ∃ X2, (∀ build, scalarMul build u Q = .ok X2) ∧ Denotes X2 (secp.base ((r : Fn) * (s : Fn)⁻¹ * δ))) :
    ∃ b, (∀ build, verifyScalar build Q z r s = .ok b) ∧
      (b = true ↔ secp.Accepts δ ζ (r : Fn) (s : Fn)) := by
  have hrr := (canon_of_range hr).rep
  obtain ⟨w, hw, hwr⟩ := modInv_rep (canon_of_range hs).rep (cast_ne_zero_of_range hs)
  obtain ⟨X1, hX1, hden1⟩ := scalarMul_base (modMul_rep hz hwr)
  obtain ⟨X2, hX2, hden2⟩ := hQ _ (modMul_rep hrr hwr)
  obtain ⟨X, hX, hden⟩ := pointAdd_denotes hden1 hden2
  refine ⟨_, fun build => verifyScalar_in_range hr hs (hw build) (hX1 build) (hX2 build) (hX build), ?_⟩
  unfold EcdsaGroup.Accepts
  cases hinf : X.infinity with
  | true => simp [coord_of_infinity hden hinf]
  | false => rw [← tmod_n_eq_iff hden hinf hrr]; simp

/-- `verify` on a multiple of `G`, from the hash scalar on: it returns, in both
builds, and says whether the range tests pass and the verifier's equation holds. -/
theorem verifyScalar_spec {Q : AffinePoint} {δ ζ : Fn} (hQ : Denotes Q (secp.base δ)) {z : Int}
    (hz : Rep Secp256k1.n z ζ) (r s : Int) :
    ∃ b, (∀ build, verifyScalar build Q z r s = .ok b) ∧
      (b = true ↔ ((1 ≤ r ∧ r < Secp256k1.n) ∧ 1 ≤ s ∧ s < Secp256k1.n) ∧
        secp.Accepts δ ζ (r : Fn) (s : Fn)) := by
  by_cases hrange : (1 ≤ r ∧ r < Secp256k1.n) ∧ 1 ≤ s ∧ s < Secp256k1.n
  · obtain ⟨b, hb, hiff⟩ := verifyScalar_iff_accepts hz hrange.1 hrange.2 fun u hu => scalarMul_multiple hu hQ
    exact ⟨b, hb, by rw [hiff, and_iff_right hrange]⟩
  · exact ⟨false, fun build => verifyScalar_out_of_range hrange, by simp [hrange]⟩

theorem verify_out_of_range {build : Build} {Q : AffinePoint} {msg : Octets} {r s : Int}
    (h : ¬ ((1 ≤ r ∧ r < Secp256k1.n) ∧ 1 ≤ s ∧ s < Secp256k1.n)) :
    verify build Q msg r s = .ok false := by
  unfold verify
  exact verifyScalar_out_of_range h

/-- `verify` on a multiple of `G`. -/
theorem verify_spec {Q : AffinePoint} {δ : Fn} (hQ : Denotes Q (secp.base δ)) (msg : Octets)
    (r s : Int) :
    ∃ b, (∀ build, verify build Q msg r s = .ok b) ∧
      (b = true ↔ ((1 ≤ r ∧ r < Secp256k1.n) ∧ 1 ≤ s ∧ s < Secp256k1.n) ∧
        secp.Accepts δ (msgScalar msg) (r : Fn) (s : Fn)) :=
  verifyScalar_spec hQ (msgScalar_rep msg) r s

/-- A nonce, in the words of the code. -/
theorem signs_iff_nonce (δ ζ : Fn) {r s : Int} (hr : 1 ≤ r ∧ r < Secp256k1.n) :
    secp.Signs δ ζ (r : Fn) (s : Fn) ↔
      ∃ k : Int, (1 ≤ k ∧ k < Secp256k1.n) ∧
        (∃ K, (∀ build, scalarMul build k generator = .ok K) ∧ K.x.tmod Secp256k1.n = r) ∧
        (s : Fn) = (k : Fn)⁻¹ * (ζ + (r : Fn) * δ) := by
  have hrr := (canon_of_range hr).rep
  constructor
  · rintro ⟨κ, hκ, hcoord, hs⟩
    have hk := rep_lift n_pos κ
    obtain ⟨K, hK, hden⟩ := scalarMul_base hk
    have hfin := hden.finite_of_ne_zero hκ
    have hk0 : lift κ ≠ 0 := fun h => hκ (hk.eq_zero_iff.mp h)
    refine ⟨lift κ, hk.1.range hk0,
      ⟨K, hK, (tmod_n_eq_iff hden hfin hrr).mpr hcoord⟩, ?_⟩
    rw [hk.2]
    exact hs
  · rintro ⟨k, hk, ⟨K, hK, hx⟩, hs⟩
    have hk0 := cast_ne_zero_of_range hk
    obtain ⟨K', hK', hden⟩ := scalarMul_base (canon_of_range hk).rep
    have : K' = K := Except.ok.inj ((hK' .release).symm.trans (hK .release))
    subst this
    exact ⟨k, hk0, (tmod_n_eq_iff hden (hden.finite_of_ne_zero hk0) hrr).mp hx, hs⟩

/-- **`verify` accepts exactly the solutions of the signing equation**, for
every integer `d` and all integers `r`, `s`.  It returns in the Debug build
too, so no `mod_inv` on the way fails its `assert`. -/
theorem verify_iff_signing_equation (d : Int) :
    ∃ Q, (∀ build, scalarMul build d generator = .ok Q) ∧ ∀ (msg : Octets) (r s : Int),
      ∃ b, (∀ build, verify build Q msg r s = .ok b) ∧
        (b = true ↔ (1 ≤ r ∧ r < Secp256k1.n) ∧ (1 ≤ s ∧ s < Secp256k1.n) ∧
          ∃ k : Int, (1 ≤ k ∧ k < Secp256k1.n) ∧
            (∃ K, (∀ build, scalarMul build k generator = .ok K) ∧ K.x.tmod Secp256k1.n = r) ∧
            (s : Fn) = (k : Fn)⁻¹ *
              ((hashToScalar (doubleSha256 msg) Secp256k1.n : Int) + (r : Fn) * (d : Fn))) := by
  obtain ⟨Q, hQ, hden⟩ := scalarMul_denotes d generator_denotes
  rw [← secp_base_intCast] at hden
  refine ⟨Q, hQ, ?_⟩
  intro msg r s
  obtain ⟨b, hb, hiff⟩ := verify_spec hden msg r s
  refine ⟨b, hb, hiff.trans ?_⟩
  rw [and_assoc]
  apply and_congr_right
  intro hr
  apply and_congr_right
  intro hs
  rw [EcdsaGroup.accepts_iff_signs (cast_ne_zero_of_range hs)]
  exact signs_iff_nonce _ _ hr

end Tecdsa
