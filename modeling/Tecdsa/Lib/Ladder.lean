import Tecdsa.Lib.ShortCurve
import Mathlib.Algebra.Field.ZMod
import Mathlib.Tactic.FieldSimp
import Mathlib.Tactic.LinearCombination

/-!
# Multiples of a point, by an inversion-free ladder the kernel can run

`(X, Y, Z)` stands for the affine point `(X / Z², Y / Z³)`.  Doubling and adding
a fixed affine point need no inverse, and both multiply `Z` by the quantity
whose vanishing would be an exceptional case.  So a ladder that ends with
`Z ≠ 0` met no exceptional case on its way, and `check` need only look at the
end:

    check p a x y bits k x' y' = true → k • (x, y) = (x', y')       (smul_of_check)
-/

namespace Ladder

open WeierstrassCurve.Affine ShortCurve

/-! ## The ladder on natural numbers -/

abbrev Triple := Nat × Nat × Nat

def sub (p u v : Nat) : Nat := (u + (p - v % p)) % p

def double (p a : Nat) : Triple → Triple
  | (X, Y, Z) =>
    let yy := Y * Y % p
    let zz := Z * Z % p
    let s := 4 * X * yy % p
    let m := (3 * X * X + a * zz * zz) % p
    let X' := sub p (m * m) (2 * s)
    (X', sub p (m * sub p s X') (8 * yy * yy), 2 * Y * Z % p)

/-- Adds the affine point `(x, y)`. -/
def addAffine (p x y : Nat) : Triple → Triple
  | (X, Y, Z) =>
    let zz := Z * Z % p
    let h := sub p (x * zz) X
    let r := sub p (y * zz * Z) Y
    let hh := h * h % p
    let v := X * hh % p
    let hhh := h * hh % p
    let X' := sub p (r * r) (hhh + 2 * v)
    (X', sub p (r * sub p v X') (Y * hhh), Z * h % p)

/-- `k • (x, y)` for `2 ^ bits ≤ k < 2 ^ (bits + 1)`, leading bit first. -/
def run (p a x y : Nat) : (bits k : Nat) → Triple
  | 0, _ => (x, y, 1)
  | bits + 1, k =>
    let t := double p a (run p a x y bits (k / 2))
    if k % 2 = 1 then addAffine p x y t else t

/-- The ladder ends at a finite point, with affine coordinates `(x', y')`. -/
def check (p a x y bits k x' y' : Nat) : Bool :=
  match run p a x y bits k with
  | (X, Y, Z) =>
    decide (k / 2 ^ bits = 1) && Z % p != 0 && X % p == x' * (Z * Z % p) % p &&
      Y % p == y' * (Z * Z % p * Z % p) % p

/-! ## What a triple stands for -/

variable {F : Type*} [Field F]

/-- `(X, Y, Z)` are coordinates of the finite point `A`. -/
def Stands {a b : F} (X Y Z : F) (A : (curve a b).Point) : Prop :=
  Z ≠ 0 ∧ ∃ x y h, A = Point.some x y h ∧ X = x * Z ^ 2 ∧ Y = y * Z ^ 3

variable {a b X Y Z : F} {A : (curve a b).Point} [DecidableEq F]

/-- `2 Y Z ≠ 0` excludes the vertical tangent. -/
theorem Stands.double (hA : Stands X Y Z A) (hZ : 2 * Y * Z ≠ 0) {s m X' : F}
    (hs : s = 4 * X * Y ^ 2) (hm : m = 3 * X ^ 2 + a * Z ^ 4) (hX : X' = m ^ 2 - 2 * s) :
    Stands X' (m * (s - X') - 8 * Y ^ 4) (2 * Y * Z) ((2 : ℕ) • A) := by
  obtain ⟨hZ0, x, y, h, rfl, rfl, rfl⟩ := hA
  have h2 : (2 : F) ≠ 0 := fun h => hZ (by rw [h]; ring)
  have hy : y ≠ 0 := fun h => hZ (by rw [h]; ring)
  obtain ⟨h₃, hsum⟩ := ShortCurve.double h h2 hy rfl rfl rfl
  refine ⟨hZ, _, _, h₃, hsum, ?_, ?_⟩
  · rw [hX, hm, hs]
    field_simp
    ring
  · rw [hX, hm, hs]
    field_simp
    ring

/-- `Z h ≠ 0` excludes a summand with the same `x`. -/
theorem Stands.addAffine (hA : Stands X Y Z A) {x y : F} (hB : (curve a b).Nonsingular x y)
    {h r v X' : F} (hh : h = x * Z ^ 2 - X) (hr : r = y * Z ^ 3 - Y) (hv : v = X * h ^ 2)
    (hX : X' = r ^ 2 - (h ^ 3 + 2 * v)) (hZ : Z * h ≠ 0) :
    Stands X' (r * (v - X') - Y * h ^ 3) (Z * h) (A + Point.some x y hB) := by
  obtain ⟨hZ0, x₁, y₁, h₁, rfl, rfl, rfl⟩ := hA
  have hxx : x₁ ≠ x := by
    rintro rfl
    exact hZ (by rw [hh]; ring)
  have hd : x - x₁ ≠ 0 := sub_ne_zero.mpr hxx.symm
  obtain ⟨h₃, hsum⟩ := ShortCurve.add_of_ne h₁ hB hxx rfl rfl rfl
  refine ⟨hZ, _, _, h₃, hsum, ?_, ?_⟩
  · rw [hX, hv, hr, hh]
    field_simp
    ring
  · rw [hX, hv, hr, hh]
    field_simp
    ring

/-! ## The ladder computes multiples -/

section
variable {p : Nat} [Fact p.Prime]

theorem cast_sub (u v : Nat) : ((sub p u v : Nat) : ZMod p) = (u : ZMod p) - v := by
  have hp : 0 < p := (Fact.out : p.Prime).pos
  have hle : v % p ≤ p := (Nat.mod_lt v hp).le
  unfold sub
  rw [ZMod.natCast_mod, Nat.cast_add, Nat.cast_sub hle, ZMod.natCast_self, ZMod.natCast_mod]
  ring

/-- One doubling step keeps `Stands`, if the new `Z` is not zero. -/
theorem double_stands {a : Nat} {b : ZMod p} {X Y Z X' Y' Z' : Nat}
    {A : (curve (a : ZMod p) b).Point} (hA : (Z : ZMod p) ≠ 0 → Stands (X : ZMod p) Y Z A)
    (he : double p a (X, Y, Z) = (X', Y', Z')) (hZ : (Z' : ZMod p) ≠ 0) :
    Stands (X' : ZMod p) Y' Z' ((2 : ℕ) • A) := by
  unfold double at he
  simp only [Prod.mk.injEq] at he
  obtain ⟨rfl, rfl, rfl⟩ := he
  have hZc : ((2 * Y * Z % p : Nat) : ZMod p) = 2 * Y * Z := by
    rw [ZMod.natCast_mod]
    push_cast
    ring
  rw [hZc] at hZ ⊢
  have hZ0 : (Z : ZMod p) ≠ 0 := fun h => hZ (by rw [h, mul_zero])
  have key := (hA hZ0).double hZ rfl rfl rfl
  simp only [cast_sub, ZMod.natCast_mod, Nat.cast_mul, Nat.cast_add, Nat.cast_ofNat]
  convert key using 1 <;> ring

/-- One addition step keeps `Stands`, if the new `Z` is not zero. -/
theorem addAffine_stands {a x y : Nat} {b : ZMod p} {X Y Z X' Y' Z' : Nat}
    {A : (curve (a : ZMod p) b).Point} (hB : (curve (a : ZMod p) b).Nonsingular x y)
    (hA : (Z : ZMod p) ≠ 0 → Stands (X : ZMod p) Y Z A)
    (he : addAffine p x y (X, Y, Z) = (X', Y', Z')) (hZ : (Z' : ZMod p) ≠ 0) :
    Stands (X' : ZMod p) Y' Z' (A + Point.some _ _ hB) := by
  unfold addAffine at he
  simp only [Prod.mk.injEq] at he
  obtain ⟨rfl, rfl, rfl⟩ := he
  simp only [cast_sub, ZMod.natCast_mod, Nat.cast_mul, Nat.cast_add, Nat.cast_ofNat] at hZ ⊢
  have hZ0 : (Z : ZMod p) ≠ 0 := fun h => hZ (by rw [h, zero_mul])
  have hZ' : (Z : ZMod p) * (x * Z ^ 2 - X) ≠ 0 := fun h => hZ (by rw [← h]; ring)
  have key := (hA hZ0).addAffine hB rfl rfl rfl rfl hZ'
  convert key using 1 <;> ring

theorem run_stands {a x y : Nat} {b : ZMod p} (hB : (curve (a : ZMod p) b).Nonsingular x y) :
    ∀ (bits k X Y Z : Nat), k / 2 ^ bits = 1 → run p a x y bits k = (X, Y, Z) →
      (Z : ZMod p) ≠ 0 → Stands (X : ZMod p) Y Z (k • Point.some _ _ hB) := by
  intro bits
  induction bits with
  | zero =>
    intro k X Y Z hk he hZ
    unfold run at he
    simp only [Prod.mk.injEq] at he
    obtain ⟨rfl, rfl, rfl⟩ := he
    have hk1 : k = 1 := by simpa using hk
    exact ⟨hZ, x, y, hB, by rw [hk1, one_nsmul], by simp, by simp⟩
  | succ bits ih =>
    intro k X Y Z hk he hZ
    rcases h₁ : run p a x y bits (k / 2) with ⟨X₁, Y₁, Z₁⟩
    rcases h₂ : double p a (X₁, Y₁, Z₁) with ⟨X₂, Y₂, Z₂⟩
    have hk2 : k / 2 / 2 ^ bits = 1 := by rw [Nat.div_div_eq_div_mul, ← pow_succ', hk]
    have hd : (Z₂ : ZMod p) ≠ 0 → Stands (X₂ : ZMod p) Y₂ Z₂ ((2 : ℕ) • (k / 2) • Point.some _ _ hB) :=
      double_stands (ih _ _ _ _ hk2 h₁) h₂
    unfold run at he
    simp only [h₁, h₂] at he
    split at he
    · next hodd =>
      have hk' : k • Point.some _ _ hB = (2 : ℕ) • (k / 2) • Point.some _ _ hB + Point.some _ _ hB := by
        rw [← mul_nsmul', ← succ_nsmul]
        congr 1
        omega
      rw [hk']
      exact addAffine_stands hB hd he hZ
    · next heven =>
      have hk' : k • Point.some _ _ hB = (2 : ℕ) • (k / 2) • Point.some _ _ hB := by
        rw [← mul_nsmul']
        congr 1
        omega
      rw [hk']
      simp only [Prod.mk.injEq] at he
      obtain ⟨rfl, rfl, rfl⟩ := he
      exact hd hZ

/-- **A checked ladder gives the multiple.** -/
theorem smul_of_check {a x y bits k x' y' : Nat} {α b ξ υ : ZMod p} (ha : (a : ZMod p) = α)
    (hx : (x : ZMod p) = ξ) (hy : (y : ZMod p) = υ) (hB : (curve α b).Nonsingular ξ υ)
    (h : check p a x y bits k x' y' = true) :
    ∃ h' : (curve α b).Nonsingular x' y', k • Point.some _ _ hB = Point.some _ _ h' := by
  subst ha hx hy
  rcases hr : run p a x y bits k with ⟨X, Y, Z⟩
  unfold check at h
  simp only [hr, Bool.and_eq_true, decide_eq_true_eq, bne_iff_ne, beq_iff_eq] at h
  obtain ⟨⟨⟨hk, hZ⟩, hX⟩, hY⟩ := h
  have hZ0 : (Z : ZMod p) ≠ 0 := by
    rw [ne_eq, ZMod.natCast_eq_zero_iff, Nat.dvd_iff_mod_eq_zero]
    exact hZ
  obtain ⟨-, x₁, y₁, h₁, hA, hX₁, hY₁⟩ := run_stands hB bits k X Y Z hk hr hZ0
  have hXc : (X : ZMod p) = x' * Z ^ 2 := by
    have := (ZMod.natCast_eq_natCast_iff' X (x' * (Z * Z % p)) p).mpr hX
    rw [this]
    push_cast [ZMod.natCast_mod]
    ring
  have hYc : (Y : ZMod p) = y' * Z ^ 3 := by
    have := (ZMod.natCast_eq_natCast_iff' Y (y' * (Z * Z % p * Z % p)) p).mpr hY
    rw [this]
    push_cast [ZMod.natCast_mod]
    ring
  have hx : x₁ = x' := mul_right_cancel₀ (pow_ne_zero 2 hZ0) (hX₁.symm.trans hXc)
  have hy : y₁ = y' := mul_right_cancel₀ (pow_ne_zero 3 hZ0) (hY₁.symm.trans hYc)
  rw [hA]
  exact some_congr h₁ hx hy

end

end Ladder
