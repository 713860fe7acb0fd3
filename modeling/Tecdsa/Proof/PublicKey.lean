import Tecdsa.Proof.Verify

/-!
# What `verify` says about the public key

`verify` never looks whether `Q` is a finite point of the curve.  In the build
without `assert` it returns on every `Q`.  It vouches for no invalid key where
the range tests fail, and where the key drops out of `u₁ G + u₂ Q` because its
order on a curve of its own divides `r / s`, unless the signature is one under
the private key 0, which anybody can make:

    VouchCondition Q msg r s → Vouches Q msg r s                     (verify_vouches)
    … ↔ … for Q infinite, or of an order that divides r / s

For the other invalid keys nothing in `verify` stands between the key and the
answer: every finite point with `x % n ≥ 1` is accepted for the scalar 0
(`verifyScalar_accepts_key`).
-/

namespace Tecdsa

open Residue WeierstrassCurve.Affine

/-! ## The Release build always returns -/

theorem modInv_release_returns (a m : Int) : ∃ r, modInv .release a m = .ok r := by
  unfold modInv
  cases mpzInvert a m with
  | none => exact ⟨0, rfl⟩
  | some r => exact ⟨r, rfl⟩

theorem pointDouble_release_returns (P : AffinePoint) : ∃ R, pointDouble .release P = .ok R := by
  obtain ⟨i, hi⟩ := modInv_release_returns (modMul 2 P.y Secp256k1.p) Secp256k1.p
  unfold pointDouble pointDoubleWith
  simp only [hi, Run.ok_bind, Run.pure_eq_ok]
  split
  · exact ⟨_, rfl⟩
  · split <;> exact ⟨_, rfl⟩

theorem pointAdd_release_returns (P Q : AffinePoint) : ∃ R, pointAdd .release P Q = .ok R := by
  obtain ⟨i, hi⟩ := modInv_release_returns (modSub Q.x P.x Secp256k1.p) Secp256k1.p
  unfold pointAdd pointAddWith
  simp only [hi, Run.ok_bind, Run.pure_eq_ok]
  by_cases hP : P.infinity = true
  · exact ⟨Q, if_pos hP⟩
  · by_cases hQ : Q.infinity = true
    · exact ⟨P, by rw [if_neg hP, if_pos hQ]⟩
    · rw [if_neg hP, if_neg hQ]
      by_cases hx : P.x = Q.x
      · rw [if_pos hx]
        by_cases hy : P.y = Q.y
        · rw [if_pos hy]
          exact pointDouble_release_returns P
        · exact ⟨identity, by rw [if_neg hy]⟩
      · exact ⟨_, by rw [if_neg hx]⟩

theorem scalarMulLoop_release_returns (k : Int) (numBits todo : Nat) :
    ∀ (i : Nat) (R Q : AffinePoint), ∃ S, scalarMulLoop .release k numBits todo i R Q = .ok S := by
  induction todo with
  | zero => exact fun i R Q => ⟨R, rfl⟩
  | succ todo ih =>
    intro i R Q
    obtain ⟨R', hR'⟩ : ∃ R', (if mpzTstbit k i then pointAdd .release R Q else .ok R) = .ok R' := by
      split
      · exact pointAdd_release_returns R Q
      · exact ⟨R, rfl⟩
    obtain ⟨Q', hQ'⟩ : ∃ Q', (if i + 1 < numBits then pointDouble .release Q else .ok Q) = .ok Q' := by
      split
      · exact pointDouble_release_returns Q
      · exact ⟨Q, rfl⟩
    rw [scalarMulLoop_succ, hR', Run.ok_bind, hQ']
    exact ih (i + 1) R' Q'

theorem scalarMul_release_returns (k : Int) (P : AffinePoint) :
    ∃ R, scalarMul .release k P = .ok R := by
  unfold scalarMul
  fun_induction scalarMulWith (modInv .release) k P with
  | case1 k P h => exact ⟨P, rfl⟩
  | case2 P h => exact ⟨identity, rfl⟩
  | case3 k P h h0 hneg ih => exact ih
  | case4 k P h h0 hneg numBits => exact scalarMulLoop_release_returns k numBits numBits 0 identity P

/-- The Release build returns whatever the public key. -/
theorem verify_release_returns (Q : AffinePoint) (msg : Octets) (r s : Int) :
    ∃ b, verify .release Q msg r s = .ok b := by
  by_cases hrange : (1 ≤ r ∧ r < Secp256k1.n) ∧ 1 ≤ s ∧ s < Secp256k1.n
  · obtain ⟨w, hw⟩ := modInv_release_returns s Secp256k1.n
    obtain ⟨X1, hX1⟩ := scalarMul_release_returns
      (modMul (hashToScalar (doubleSha256 msg) Secp256k1.n) w Secp256k1.n) generator
    obtain ⟨X2, hX2⟩ := scalarMul_release_returns (modMul r w Secp256k1.n) Q
    obtain ⟨X, hX⟩ := pointAdd_release_returns X1 X2
    exact ⟨_, verifyScalar_in_range hrange.1 hrange.2 hw hX1 hX2 hX⟩
  · exact ⟨false, verify_out_of_range hrange⟩

/-! ## Keys that drop out -/

/-- `r` and `s` pass the range tests. -/
abbrev InRange (r s : Int) : Prop := (1 ≤ r ∧ r < Secp256k1.n) ∧ 1 ≤ s ∧ s < Secp256k1.n

/-- `Q` is a point of a curve `y² = x³ + b`, and its order there divides the
residue `r / s`.  The point at infinity has order 1. -/
def KeyDropsOut (Q : AffinePoint) (r s : Int) : Prop :=
  ∃ (b : Fp) (A : PointsOf b) (u : Int), Denotes Q A ∧ Canon Secp256k1.n u ∧
    s * u % Secp256k1.n = r ∧ u • A = 0

/-- A signature under the private key 0: `s k = z` for a nonce `k` of `r`. -/
def SignedByZero (msg : Octets) (r s : Int) : Prop :=
  ∃ k : Int, (1 ≤ k ∧ k < Secp256k1.n) ∧
    (∃ K, (∀ build, scalarMul build k generator = .ok K) ∧ K.x.tmod Secp256k1.n = r) ∧
    s * k % Secp256k1.n = hashToScalar (doubleSha256 msg) Secp256k1.n

/-- The quotient `r / s` as a residue. -/
theorem quotient_rep {r s u : Int} (hs : 1 ≤ s ∧ s < Secp256k1.n) (hu : Canon Secp256k1.n u)
    (hsu : s * u % Secp256k1.n = r) : Rep Secp256k1.n u ((r : Fn) * (s : Fn)⁻¹) := by
  refine hu.rep.of_cast ?_
  rw [← hsu, cast_emod n_pos.le, Int.cast_mul, mul_comm (s : Fn),
    mul_inv_cancel_right₀ (cast_ne_zero_of_range hs)]

theorem exists_quotient {r s : Int} (hr : 1 ≤ r ∧ r < Secp256k1.n) (hs : 1 ≤ s ∧ s < Secp256k1.n) :
    ∃ u, Canon Secp256k1.n u ∧ s * u % Secp256k1.n = r := by
  have hrep := rep_lift n_pos ((r : Fn) * (s : Fn)⁻¹)
  refine ⟨_, hrep.1, (rep_emod n_pos _).congr ((canon_of_range hr).rep.of_cast ?_)⟩
  rw [Int.cast_mul, hrep.2, mul_comm (s : Fn), inv_mul_cancel_right₀ (cast_ne_zero_of_range hs)]

theorem keyDropsOut_of_infinity {Q : AffinePoint} (hQ : Q.infinity = true) {r s : Int} (h : InRange r s) :
    KeyDropsOut Q r s := by
  obtain ⟨u, hu, hsu⟩ := exists_quotient h.1 h.2
  exact ⟨7, 0, u, denotes_zero hQ, hu, hsu, zsmul_zero u⟩

/-- Without its key the equation is that of the private key 0. -/
theorem verify_dropsOut {Q : AffinePoint} {r s : Int} (hrange : InRange r s) (hQ : KeyDropsOut Q r s)
    (msg : Octets) :
    ∃ b, (∀ build, verify build Q msg r s = .ok b) ∧ (b = true ↔ SignedByZero msg r s) := by
  obtain ⟨hr, hs⟩ := hrange
  obtain ⟨c, A, u, hden, hu, hsu, hA⟩ := hQ
  obtain ⟨X2, hX2, hden2⟩ := scalarMul_denotes u hden
  -- `u₂ Q` is at infinity, as the key 0 would have it
  have hmul (v : Int) (hv : Rep Secp256k1.n v ((r : Fn) * (s : Fn)⁻¹)) :
      ∃ X, (∀ build, scalarMul build v Q = .ok X) ∧ Denotes X (secp.base ((r : Fn) * (s : Fn)⁻¹ * 0)) := by
    obtain rfl : v = u := hv.congr (quotient_rep hs hu hsu)
    refine ⟨X2, hX2, ?_⟩
    rw [mul_zero, map_zero]
    exact denotes_zero (hden2.infinity_iff.mpr hA)
  obtain ⟨b, hb, hiff⟩ := verifyScalar_iff_accepts (msgScalar_rep msg) hr hs hmul
  refine ⟨b, hb, hiff.trans ?_⟩
  rw [EcdsaGroup.accepts_iff_signs (cast_ne_zero_of_range hs), signs_iff_nonce _ _ hr]
  apply exists_congr
  intro k
  apply and_congr_right
  intro hk
  apply and_congr_right
  intro _
  have hk0 := cast_ne_zero_of_range hk
  rw [(rep_emod n_pos (s * k)).eq_iff (msgScalar_rep msg), mul_zero, add_zero, Int.cast_mul,
    eq_inv_mul_iff_mul_eq₀ hk0, mul_comm]

theorem scalarMul_unit {P : AffinePoint} (hP : P.infinity = false) (build : Build) :
    scalarMul build 1 P = .ok P := by
  rw [scalarMul_pos build (by simp [hP]) (by omega)]
  rfl

/-- At infinity any message whose scalar is not zero is signed by its scalar. -/
theorem verify_infinity_accepts {Q : AffinePoint} (hQ : Q.infinity = true) {msg : Octets}
    (hz : hashToScalar (doubleSha256 msg) Secp256k1.n ≠ 0) (build : Build) :
    verify build Q msg Secp256k1.gx (hashToScalar (doubleSha256 msg) Secp256k1.n) = .ok true := by
  have hs := (msgScalar_rep msg).1.range hz
  have hrange : InRange Secp256k1.gx (hashToScalar (doubleSha256 msg) Secp256k1.n) := ⟨by decide, hs⟩
  obtain ⟨b, hb, hiff⟩ := verify_dropsOut hrange (keyDropsOut_of_infinity hQ hrange) msg
  have hzero : SignedByZero msg Secp256k1.gx (hashToScalar (doubleSha256 msg) Secp256k1.n) := by
    refine ⟨1, by decide, ⟨generator, scalarMul_unit rfl, by decide⟩, ?_⟩
    rw [mul_one]
    exact (canon_of_range hs).emod_eq
  rw [hb build, hiff.mpr hzero]

/-! ## Keys of order two and three -/

/-- The curve through a point that has canonical coordinates. -/
theorem denotes_ownCurve {x y : Int} (hx : Canon Secp256k1.p x) (hy : Canon Secp256k1.p y) {b : Fp}
    (hb : b = (y : Fp) * y - (x : Fp) * x * x) (hb0 : b ≠ 0) :
    ∃ h : (ShortCurve.curve (0 : Fp) b).Nonsingular (x : Fp) (y : Fp), Denotes (.ofXY x y) (.some _ _ h) := by
  have h432 : ((432 : ℕ) : Fp) ≠ 0 := natCast_ne_zero 432 (by omega) (by decide)
  have hΔ : (ShortCurve.curve (0 : Fp) b).Δ ≠ 0 := by
    rw [ShortCurve.discriminant, show -16 * (4 * (0 : Fp) ^ 3 + 27 * b ^ 2) = -((432 : ℕ) * b ^ 2) by
      push_cast; ring]
    exact neg_ne_zero.mpr (mul_ne_zero h432 (pow_ne_zero 2 hb0))
  have h := (ShortCurve.nonsingular_iff hΔ (x : Fp) (y : Fp)).mpr (by rw [hb]; ring)
  exact ⟨h, .finite h hx.rep hy.rep⟩

theorem keyDropsOut_of_order {Q : AffinePoint} {b : Fp} {A : PointsOf b} (hQ : Denotes Q A) {m : Nat}
    (hA : m • A = 0) {u r s : Int} (hu : Canon Secp256k1.n u) (hmu : (m : Int) ∣ u)
    (hsu : s * u % Secp256k1.n = r) : KeyDropsOut Q r s := by
  refine ⟨b, A, u, hQ, hu, hsu, ?_⟩
  obtain ⟨v, rfl⟩ := hmu
  rw [mul_comm, mul_zsmul, natCast_zsmul, hA, zsmul_zero]

/-- A key with `y = 0` has order two. -/
theorem keyDropsOut_of_y_eq_zero {x u r s : Int} (hx : 1 ≤ x ∧ x < Secp256k1.p)
    (hu : Canon Secp256k1.n u) (heven : 2 ∣ u) (hsu : s * u % Secp256k1.n = r) :
    KeyDropsOut (.ofXY x 0) r s := by
  have hx0 := cast_ne_zero_of_range hx
  have hb0 : ((0 : Int) : Fp) * (0 : Int) - (x : Fp) * x * x ≠ 0 := by
    rw [Int.cast_zero, mul_zero, zero_sub]
    exact neg_ne_zero.mpr (mul_ne_zero (mul_ne_zero hx0 hx0) hx0)
  obtain ⟨h, hden⟩ := denotes_ownCurve (canon_of_range hx) (show Canon Secp256k1.p 0 by decide) rfl hb0
  obtain ⟨h', he⟩ := ShortCurve.some_congr h rfl Int.cast_zero
  rw [he] at hden
  exact keyDropsOut_of_order hden (ShortCurve.double_of_y_eq_zero h') hu heven hsu

/-- A key with `x = 0` has order three: its tangent has slope 0. -/
theorem keyDropsOut_of_x_eq_zero {y u r s : Int} (hy : 1 ≤ y ∧ y < Secp256k1.p)
    (hu : Canon Secp256k1.n u) (hthree : 3 ∣ u) (hsu : s * u % Secp256k1.n = r) :
    KeyDropsOut (.ofXY 0 y) r s := by
  have hy0 := cast_ne_zero_of_range hy
  have hb0 : (y : Fp) * y - ((0 : Int) : Fp) * (0 : Int) * (0 : Int) ≠ 0 := by
    rw [Int.cast_zero, mul_zero, sub_zero]
    exact mul_ne_zero hy0 hy0
  obtain ⟨h, hden⟩ := denotes_ownCurve (show Canon Secp256k1.p 0 by decide) (canon_of_range hy) rfl hb0
  obtain ⟨h', he⟩ := ShortCurve.some_congr h Int.cast_zero rfl
  rw [he] at hden
  -- the double is the opposite
  have hslope : (0 : Fp) = (3 * (0 * 0) + 0) * (2 * (y : Fp))⁻¹ := by ring
  have hx : (0 : Fp) = 0 * 0 - 2 * 0 := by ring
  have hy : -(y : Fp) = 0 * (0 - 0) - y := by ring
  obtain ⟨h₃, hdouble⟩ := ShortCurve.double h' two_ne_zero_Fp hy0 hslope hx hy
  obtain ⟨h₄, hneg⟩ := ShortCurve.neg_some h'
  have hA : 3 • Point.some 0 (y : Fp) h' = 0 := by
    rw [succ_nsmul, hdouble, ← hneg, neg_add_cancel]
  exact keyDropsOut_of_order hden hA hu hthree hsu

/-! ## Vouching -/

/-- A finite point of the curve, in canonical coordinates. -/
def ValidKey (Q : AffinePoint) : Prop := Q.infinity = false ∧ Valid Q

/-- `verify` accepts under a valid key only, and rejects under any other. -/
def Vouches (Q : AffinePoint) (msg : Octets) (r s : Int) : Prop :=
  (verify .release Q msg r s = .ok true → ValidKey Q) ∧
    (¬ ValidKey Q → verify .release Q msg r s = .ok false)

/-- The missing test of `Q` is not needed. -/
def VouchCondition (Q : AffinePoint) (msg : Octets) (r s : Int) : Prop :=
  ValidKey Q ∨ ¬ InRange r s ∨ KeyDropsOut Q r s ∧ ¬ SignedByZero msg r s

theorem vouches_of_validKey {Q : AffinePoint} (hQ : ValidKey Q) (msg : Octets) (r s : Int) :
    Vouches Q msg r s :=
  ⟨fun _ => hQ, fun h => absurd hQ h⟩

theorem vouches_of_reject {Q : AffinePoint} {msg : Octets} {r s : Int}
    (h : verify .release Q msg r s = .ok false) : Vouches Q msg r s := by
  refine ⟨fun hacc => ?_, fun _ => h⟩
  rw [h] at hacc
  cases hacc

theorem vouches_of_condition {Q : AffinePoint} {msg : Octets} {r s : Int}
    (h : VouchCondition Q msg r s) : Vouches Q msg r s := by
  rcases h with hQ | hrange | ⟨hdrop, hzero⟩
  · exact vouches_of_validKey hQ msg r s
  · exact vouches_of_reject (verify_out_of_range hrange)
  · by_cases hrange : InRange r s
    · obtain ⟨b, hb, hiff⟩ := verify_dropsOut hrange hdrop msg
      have hfalse : b = false := Bool.eq_false_iff.mpr fun hacc => hzero (hiff.mp hacc)
      subst hfalse
      exact vouches_of_reject (hb .release)
    · exact vouches_of_reject (verify_out_of_range hrange)

/-- Where the key drops out a signature under the key 0 is accepted. -/
theorem condition_of_vouches {Q : AffinePoint} {msg : Octets} {r s : Int}
    (hdrop : InRange r s → KeyDropsOut Q r s) (h : Vouches Q msg r s) : VouchCondition Q msg r s := by
  by_cases hQ : ValidKey Q
  · exact .inl hQ
  · by_cases hrange : InRange r s
    · refine .inr (.inr ⟨hdrop hrange, ?_⟩)
      intro hzero
      obtain ⟨b, hb, hiff⟩ := verify_dropsOut hrange (hdrop hrange) msg
      rw [hiff.mpr hzero] at hb
      exact hQ (h.1 (hb .release))
    · exact .inr (.inl hrange)

/-- No finite key is turned away for itself: for the scalar 0 and `r = s` the
coordinate of `Q`, the sum is `Q`. -/
theorem verifyScalar_accepts_key {Q : AffinePoint} (hQ : Q.infinity = false)
    (hr : 1 ≤ Q.x.tmod Secp256k1.n) (build : Build) :
    verifyScalar build Q 0 (Q.x.tmod Secp256k1.n) (Q.x.tmod Secp256k1.n) = .ok true := by
  have hrange : 1 ≤ Q.x.tmod Secp256k1.n ∧ Q.x.tmod Secp256k1.n < Secp256k1.n :=
    ⟨hr, Int.tmod_lt_of_pos _ n_pos⟩
  have hrr := (canon_of_range hrange).rep
  have hr0 := cast_ne_zero_of_range hrange
  obtain ⟨w, hw, hwr⟩ := modInv_rep hrr hr0
  have hu2 : modMul (Q.x.tmod Secp256k1.n) w Secp256k1.n = 1 := by
    have hone : Rep Secp256k1.n 1 (1 : Fn) := ⟨by decide, Int.cast_one⟩
    exact (modMul_rep hrr hwr).congr (hone.of_cast (mul_inv_cancel₀ hr0).symm)
  have hu1 : modMul 0 w Secp256k1.n = 0 := by
    unfold modMul
    rw [zero_mul]
    rfl
  have hX1 : scalarMul build (modMul 0 w Secp256k1.n) generator = .ok identity := by
    rw [hu1]
    unfold scalarMul
    rw [scalarMulWith]
    rfl
  have hX2 : scalarMul build (modMul (Q.x.tmod Secp256k1.n) w Secp256k1.n) Q = .ok Q := by
    rw [hu2]
    exact scalarMul_unit hQ build
  rw [verifyScalar_in_range hrange hrange (hw build) hX1 hX2 rfl]
  simp [hQ]

/-- **When `verify` vouches for no invalid key**: the condition is enough for
every key, and it is exact at infinity, for keys whose order divides `r / s`,
for valid keys and outside the ranges.  No finite key is rejected for every
scalar and signature. -/
theorem verify_vouches (Q : AffinePoint) (msg : Octets) (r s : Int) :
    (VouchCondition Q msg r s → Vouches Q msg r s) ∧
    (Q.infinity = true ∨ KeyDropsOut Q r s ∨ ValidKey Q ∨ ¬ InRange r s →
      (Vouches Q msg r s ↔ VouchCondition Q msg r s)) ∧
    (Q.infinity = false → 1 ≤ Q.x.tmod Secp256k1.n →
      verifyScalar .release Q 0 (Q.x.tmod Secp256k1.n) (Q.x.tmod Secp256k1.n) = .ok true) := by
  refine ⟨vouches_of_condition, ?_, fun hQ hr => verifyScalar_accepts_key hQ hr .release⟩
  intro hclass
  refine ⟨fun h => ?_, vouches_of_condition⟩
  rcases hclass with hinf | hdrop | hQ | hrange
  · exact condition_of_vouches (keyDropsOut_of_infinity hinf) h
  · exact condition_of_vouches (fun _ => hdrop) h
  · exact .inl hQ
  · exact .inr (.inl hrange)

set_option maxRecDepth 20000 in
/-- The empty message, `r` the coordinate of `G`, `s` the hash: accepted under
the point at infinity. -/
theorem verify_accepts_identity : verify .release identity [] Secp256k1.gx
      42501291392743695431878740634531681500576291905345320922138468513085152597078 = .ok true ∧
    ¬ ValidKey identity :=
  ⟨by decide +kernel, fun h => by cases h.1⟩

end Tecdsa
