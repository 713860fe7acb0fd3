import Tecdsa.Lib.ShortCurve
import Tecdsa.Proof.Primes

/-!
# The affine point operations are the group of secp256k1

`Denotes P A`: the record `P` has canonical coordinates and stands for the
element `A` of Mathlib's group of points of a curve `y² = x³ + b`.  Every
operation takes denoting records to denoting records and never fails the
`assert` of `mod_inv`.  None of them reads the constant `b`, so this holds on
every such curve; `Group` and `Valid` are those of `y² = x³ + 7`:

    Denotes P A → Denotes (pointNeg P) (-A)                         (pointNeg_denotes)
    … → pointDouble build P = .ok R, Denotes R (2 • A)               (pointDouble_denotes)
    … → pointAdd build P Q = .ok R, Denotes R (A + B)                (pointAdd_denotes)
-/

namespace Tecdsa

open Residue WeierstrassCurve.Affine

abbrev Fp : Type := ZMod Secp256k1.p.toNat
abbrev Fn : Type := ZMod Secp256k1.n.toNat

instance : Fact Secp256k1.p.toNat.Prime := ⟨Secp256k1.prime_p⟩
instance : Fact Secp256k1.n.toNat.Prime := ⟨Secp256k1.prime_n⟩

/-- The group of points of `y² = x³ + b` over `Fp`. -/
abbrev PointsOf (b : Fp) : Type := (ShortCurve.curve (0 : Fp) b).Point

/-- The group of secp256k1. -/
abbrev Group : Type := PointsOf 7

/-- At infinity, or canonical coordinates that satisfy the equation. -/
def Valid (P : AffinePoint) : Prop :=
  P.infinity = true ∨ Canon Secp256k1.p P.x ∧ Canon Secp256k1.p P.y ∧
    P.y ^ 2 % Secp256k1.p = (P.x ^ 3 + 7) % Secp256k1.p

instance (P : AffinePoint) : Decidable (Valid P) := inferInstanceAs (Decidable (_ ∨ _ ∧ _ ∧ _))

/-- The record stands for the point of the curve. -/
inductive Denotes {b : Fp} : AffinePoint → PointsOf b → Prop
  | infinity {x y : Int} : Denotes ⟨x, y, true⟩ 0
  | finite {x y : Int} {X Y : Fp} (h : (ShortCurve.curve (0 : Fp) b).Nonsingular X Y)
      (hx : Rep Secp256k1.p x X) (hy : Rep Secp256k1.p y Y) : Denotes ⟨x, y, false⟩ (.some X Y h)

open Classical in
/-- The group element of a record; `0` for a record that denotes nothing. -/
noncomputable def toGroup (P : AffinePoint) : Group :=
  if h : (ShortCurve.curve (0 : Fp) 7).Nonsingular (P.x : Fp) (P.y : Fp) then
    if P.infinity then 0 else .some _ _ h
  else 0

/-! ## Constants -/

theorem p_pos : 0 < Secp256k1.p := by decide
theorem n_pos : 0 < Secp256k1.n := by decide

/-- Numerals below `p` are their own representatives. -/
theorem rep_natCast (k : Nat) (hk : (k : Int) < Secp256k1.p) :
    Rep Secp256k1.p (k : Int) (k : Fp) :=
  ⟨⟨Int.natCast_nonneg k, hk⟩, Int.cast_natCast k⟩

theorem natCast_ne_zero (k : Nat) (h0 : k ≠ 0) (hk : (k : Int) < Secp256k1.p) : (k : Fp) ≠ 0 := by
  intro h
  have := (rep_natCast k hk).eq_zero_iff.mpr h
  omega

theorem two_ne_zero_Fp : (2 : Fp) ≠ 0 := by
  exact_mod_cast natCast_ne_zero 2 (by omega) (by decide)

theorem discriminant_ne_zero : (ShortCurve.curve (0 : Fp) 7).Δ ≠ 0 := by
  have h : ((21168 : ℕ) : Fp) ≠ 0 := natCast_ne_zero 21168 (by omega) (by decide)
  have hΔ : (ShortCurve.curve (0 : Fp) 7).Δ = -((21168 : ℕ) : Fp) := by
    rw [ShortCurve.discriminant]
    push_cast
    ring
  rw [hΔ]
  exact neg_ne_zero.mpr h

theorem nonsingular_iff (X Y : Fp) :
    (ShortCurve.curve (0 : Fp) 7).Nonsingular X Y ↔ Y * Y = X * X * X + 7 := by
  rw [ShortCurve.nonsingular_iff discriminant_ne_zero, zero_mul, add_zero]

/-! ## Validity is denoting -/

variable {b : Fp}

theorem Denotes.unique {P : AffinePoint} {A B : PointsOf b} (hA : Denotes P A) (hB : Denotes P B) :
    A = B := by
  cases hA with
  | infinity => cases hB; rfl
  | finite h hx hy =>
    cases hB with
    | finite h' hx' hy' =>
      obtain ⟨h'', he⟩ := ShortCurve.some_congr h (hx.2.symm.trans hx'.2) (hy.2.symm.trans hy'.2)
      exact he

theorem equation_cast_iff (x y : Int) : y ^ 2 % Secp256k1.p = (x ^ 3 + 7) % Secp256k1.p ↔
    (y : Fp) * y = (x : Fp) * x * x + 7 := by
  rw [← cast_eq_cast_iff p_pos.le]
  push_cast
  constructor <;> intro h <;> linear_combination h

theorem Denotes.valid {P : AffinePoint} {A : Group} (h : Denotes P A) : Valid P := by
  cases h with
  | infinity => exact Or.inl rfl
  | finite h hx hy =>
    refine Or.inr ⟨hx.1, hy.1, (equation_cast_iff _ _).mpr ?_⟩
    rw [hx.2, hy.2]
    exact (nonsingular_iff _ _).mp h

theorem Valid.denotes {P : AffinePoint} (h : Valid P) : Denotes P (toGroup P) := by
  obtain ⟨x, y, inf⟩ := P
  cases inf with
  | true =>
    have h0 : toGroup ⟨x, y, true⟩ = 0 := by
      unfold toGroup
      split <;> simp
    rw [h0]
    exact .infinity
  | false =>
    rcases h with h | ⟨hx, hy, he⟩
    · cases h
    · have hns := (nonsingular_iff _ _).mpr ((equation_cast_iff _ _).mp he)
      have hf : toGroup ⟨x, y, false⟩ = .some _ _ hns := by
        unfold toGroup
        rw [dif_pos hns]
        simp
      rw [hf]
      exact .finite hns hx.rep hy.rep

theorem Denotes.toGroup_eq {P : AffinePoint} {A : Group} (h : Denotes P A) : toGroup P = A :=
  h.valid.denotes.unique h

theorem Denotes.infinity_iff {P : AffinePoint} {A : PointsOf b} (h : Denotes P A) :
    P.infinity = true ↔ A = 0 := by
  cases h with
  | infinity => simp
  | finite h => simp [Point.some_ne_zero h]

/-- At infinity a record stands for zero on every curve. -/
theorem denotes_zero {P : AffinePoint} (h : P.infinity = true) : Denotes P (0 : PointsOf b) := by
  obtain ⟨x, y, inf⟩ := P
  cases h
  exact .infinity

/-- A finite point has one record. -/
theorem Denotes.record_unique {P Q : AffinePoint} {A : PointsOf b} (hP : Denotes P A) (hQ : Denotes Q A)
    (hfin : P.infinity = false) : P = Q := by
  cases hP with
  | infinity => cases hfin
  | finite h hx hy =>
    cases hQ with
    | finite h' hx' hy' => rw [hx.congr hx', hy.congr hy']

theorem identity_denotes : Denotes identity (0 : PointsOf b) := .infinity

/-- `operator==` decides equality of the group elements. -/
theorem beq_iff {P Q : AffinePoint} {A B : PointsOf b} (hP : Denotes P A) (hQ : Denotes Q B) :
    (P == Q) = true ↔ A = B := by
  cases hP with
  | infinity =>
    cases hQ with
    | infinity => simp [BEq.beq]
    | finite h => simp [BEq.beq, (Point.some_ne_zero h).symm]
  | finite h hx hy =>
    cases hQ with
    | infinity => simp [BEq.beq, Point.some_ne_zero h]
    | finite h' hx' hy' =>
      rw [Point.some.injEq, ← hx.eq_iff hx', ← hy.eq_iff hy']
      simp [BEq.beq]

/-! ## The operations -/

theorem isOnCurve_of_denotes {P : AffinePoint} {A : Group} (hP : Denotes P A) :
    isOnCurve P = true := by
  cases hP with
  | infinity => rfl
  | @finite x y X Y h hx hy =>
    have hxsq := modMul_rep hx hx
    have hxcu := modMul_rep hxsq hx
    have hax := modMul_rep (m := Secp256k1.p) (rep_natCast 0 (by decide)) hx
    have hb := rep_natCast 7 (by decide)
    have hrhs := modAdd_rep (modAdd_rep hxcu hax) hb
    have hlhs := modMul_rep hy hy
    have heq : Y * Y = X * X * X + ((0 : ℕ) : Fp) * X + ((7 : ℕ) : Fp) := by
      rw [(nonsingular_iff X Y).mp h]
      push_cast
      ring
    have := (hlhs.eq_iff hrhs).mpr heq
    unfold isOnCurve
    rw [if_neg (by simp), beq_iff_eq]
    exact this

theorem pointNeg_denotes {P : AffinePoint} {A : PointsOf b} (hP : Denotes P A) :
    Denotes (pointNeg P) (-A) := by
  cases hP with
  | infinity =>
    rw [neg_zero]
    exact .infinity
  | finite h hx hy =>
    obtain ⟨h', he⟩ := ShortCurve.neg_some h
    rw [he]
    exact .finite h' hx (modNeg_rep hy)

theorem pointDouble_denotes {P : AffinePoint} {A : PointsOf b} (hP : Denotes P A) :
    ∃ R, (∀ build, pointDouble build P = .ok R) ∧ Denotes R ((2 : ℕ) • A) := by
  cases hP with
  | @infinity x y =>
    refine ⟨⟨x, y, true⟩, fun build => rfl, ?_⟩
    rw [nsmul_zero]
    exact .infinity
  | @finite x y X Y h hx hy =>
    by_cases hy0 : y = 0
    · -- the vertical tangent
      have hY : Y = 0 := hy.eq_zero_iff.mp hy0
      subst hY
      rw [ShortCurve.double_of_y_eq_zero h]
      refine ⟨identity, ?_, .infinity⟩
      intro build
      simp [pointDouble, pointDoubleWith, hy0]
    · have hY : Y ≠ 0 := fun hc => hy0 (hy.eq_zero_iff.mpr hc)
      have two := rep_natCast 2 (by decide)
      have three := rep_natCast 3 (by decide)
      have zero := rep_natCast 0 (by decide)
      have hnum := modAdd_rep (modMul_rep three (modMul_rep hx hx)) zero
      have hden := modMul_rep two hy
      have hd0 : ((2 : ℕ) : Fp) * Y ≠ 0 := mul_ne_zero two_ne_zero_Fp hY
      obtain ⟨i, hi, hirep⟩ := modInv_rep hden hd0
      have hslope := modMul_rep hnum hirep
      have hxr := modSub_rep (modMul_rep hslope hslope) (modMul_rep two hx)
      have hyr := modSub_rep (modMul_rep hslope (modSub_rep hx hxr)) hy
      obtain ⟨h₃, hsum⟩ := ShortCurve.double h two_ne_zero_Fp hY rfl rfl rfl
      have hR := Denotes.finite h₃ (hxr.of_cast (by push_cast; ring)) (hyr.of_cast (by push_cast; ring))
      rw [← hsum] at hR
      refine ⟨_, ?_, hR⟩
      intro build
      unfold pointDouble pointDoubleWith
      simp only [Bool.false_eq_true, if_false, if_neg hy0]
      rw [show modInv build (modMul 2 y Secp256k1.p) Secp256k1.p = .ok i from hi build]
      rfl

theorem pointAdd_denotes {P Q : AffinePoint} {A B : PointsOf b} (hP : Denotes P A) (hQ : Denotes Q B) :
    ∃ R, (∀ build, pointAdd build P Q = .ok R) ∧ Denotes R (A + B) := by
  cases hP with
  | infinity =>
    rw [zero_add]
    exact ⟨Q, fun build => rfl, hQ⟩
  | @finite x y X Y h hx hy =>
    cases hQ with
    | infinity =>
      rw [add_zero]
      exact ⟨_, fun build => rfl, .finite h hx hy⟩
    | @finite x' y' X' Y' h' hx' hy' =>
      by_cases hxx : x = x'
      · have hX : X = X' := (hx.eq_iff hx').mp hxx
        subst hX
        by_cases hyy : y = y'
        · have hY : Y = Y' := (hy.eq_iff hy').mp hyy
          subst hY
          obtain ⟨R, hR, hden⟩ := pointDouble_denotes (.finite h hx hy)
          rw [two_nsmul] at hden
          exact ⟨R, fun build => by simp [pointAdd, pointAddWith, pointDouble, hxx, hyy, ← hR build], hden⟩
        · have hY : Y ≠ Y' := fun hc => hyy ((hy.eq_iff hy').mpr hc)
          rw [ShortCurve.add_opposite h h' hY]
          exact ⟨identity, fun build => by simp [pointAdd, pointAddWith, hxx, hyy], .infinity⟩
      · have hX : X ≠ X' := fun hc => hxx ((hx.eq_iff hx').mpr hc)
        have hnum := modSub_rep hy' hy
        have hden := modSub_rep hx' hx
        obtain ⟨i, hi, hirep⟩ := modInv_rep hden (sub_ne_zero.mpr hX.symm)
        have hslope := modMul_rep hnum hirep
        have hxr := modSub_rep (modMul_rep hslope hslope) (modAdd_rep hx hx')
        have hyr := modSub_rep (modMul_rep hslope (modSub_rep hx hxr)) hy
        obtain ⟨h₃, hsum⟩ := ShortCurve.add_of_ne h h' hX rfl rfl rfl
        have hR := Denotes.finite h₃ hxr hyr
        rw [← hsum] at hR
        refine ⟨_, ?_, hR⟩
        intro build
        unfold pointAdd pointAddWith
        simp only [Bool.false_eq_true, if_false, if_neg hxx]
        rw [hi build]
        rfl

end Tecdsa
