import Mathlib.AlgebraicGeometry.EllipticCurve.Affine.Point

/-!
# Short Weierstrass curves `y² = x³ + a x + b`

Mathlib's group of points, with addition in the chord-and-tangent form code
uses: a slope `ℓ`, then `x₃ = ℓ² - (x₁ + x₂)` and `y₃ = ℓ (x₁ - x₃) - y₁`.

* `eq_or_eq_neg_of_xCoord_eq`: two points share an x-coordinate;
* `card_point_le`: so there are at most two for each `x`;
* `add_of_ne`: distinct `x`, slope of the chord;
* `double`: slope of the tangent;
* `add_opposite`, `double_of_y_eq_zero`: the sum at infinity.
-/

namespace ShortCurve

open WeierstrassCurve.Affine

variable {F : Type*} [Field F]

def curve (a b : F) : WeierstrassCurve.Affine F := ⟨0, 0, 0, a, b⟩

variable {a b : F}

theorem equation_iff (x y : F) :
    (curve a b).Equation x y ↔ y * y = x * x * x + a * x + b := by
  rw [WeierstrassCurve.Affine.equation_iff]
  unfold curve
  simp only [zero_mul, add_zero]
  constructor <;> intro h <;> linear_combination h

theorem discriminant : (curve a b).Δ = -16 * (4 * a ^ 3 + 27 * b ^ 2) := by
  simp only [WeierstrassCurve.Δ, WeierstrassCurve.b₂, WeierstrassCurve.b₄, WeierstrassCurve.b₆,
    WeierstrassCurve.b₈, curve]
  ring

theorem nonsingular_iff (hΔ : (curve a b).Δ ≠ 0) (x y : F) :
    (curve a b).Nonsingular x y ↔ y * y = x * x * x + a * x + b := by
  rw [← equation_iff_nonsingular_of_Δ_ne_zero hΔ, equation_iff]

@[simp] theorem negY_curve (x y : F) : (curve a b).negY x y = -y := by
  simp [WeierstrassCurve.Affine.negY, curve]

/-- Equal coordinates, equal points. -/
theorem some_congr {x y x' y' : F} (h : (curve a b).Nonsingular x y) (hx : x = x') (hy : y = y') :
    ∃ h' : (curve a b).Nonsingular x' y', Point.some x y h = Point.some x' y' h' := by
  subst hx hy
  exact ⟨h, rfl⟩

theorem neg_some {x y : F} (h : (curve a b).Nonsingular x y) :
    ∃ h', -Point.some x y h = Point.some x (-y) h' := by
  rw [Point.neg_some]
  exact some_congr _ rfl (negY_curve x y)

/-- Two points with one `x` have `y` equal or opposite. -/
theorem y_eq_or_neg {x y y' : F} (h : (curve a b).Nonsingular x y)
    (h' : (curve a b).Nonsingular x y') : y = y' ∨ y = -y' := by
  have := Y_eq_of_X_eq h.1 h'.1 rfl
  rwa [negY_curve] at this

/-! ## The x-coordinate -/

/-- The x-coordinate of a point; the point at infinity has none. -/
def xCoord : (curve a b).Point → Option F
  | .zero => none
  | .some x _ _ => some x

/-- **An x-coordinate determines a point up to its sign.** -/
theorem eq_or_eq_neg_of_xCoord_eq {P Q : (curve a b).Point} (h : xCoord P = xCoord Q) :
    Q = P ∨ Q = -P := by
  cases P with
  | zero =>
    cases Q with
    | zero => exact Or.inl rfl
    | some x' y' h' => cases h
  | some x y hP =>
    cases Q with
    | zero => cases h
    | some x' y' hQ =>
      have hx : x = x' := Option.some.inj h
      subst hx
      rcases y_eq_or_neg hQ hP with hy | hy
      · subst hy
        exact Or.inl rfl
      · obtain ⟨h', hneg⟩ := neg_some hP
        subst hy
        exact Or.inr hneg.symm

open Classical in
/-- The x-coordinate of a point, and whether the point is the one chosen over it. -/
noncomputable def pointCode (P : (curve a b).Point) : Option F × Bool :=
  (xCoord P, decide (P = Classical.epsilon fun Q => xCoord Q = xCoord P))

theorem pointCode_injective : Function.Injective (pointCode : (curve a b).Point → _) := by
  intro P Q h
  have hx : xCoord P = xCoord Q := congrArg Prod.fst h
  have hchosen : xCoord (Classical.epsilon fun R : (curve a b).Point => xCoord R = xCoord P) =
      xCoord P := Classical.epsilon_spec (p := fun R => xCoord R = xCoord P) ⟨P, rfl⟩
  have hbit := congrArg Prod.snd h
  unfold pointCode at hbit
  rw [← hx, decide_eq_decide] at hbit
  generalize Classical.epsilon (fun R => xCoord R = xCoord P) = R at hchosen hbit
  rcases eq_or_eq_neg_of_xCoord_eq hchosen with hP | hP
  · exact hP.trans (hbit.mp hP).symm
  · rcases eq_or_eq_neg_of_xCoord_eq (hchosen.trans hx) with hQ | hQ
    · exact (hbit.mpr hQ).trans hQ.symm
    · exact hP.trans hQ.symm

variable [Finite F]

instance : Finite (curve a b).Point := Finite.of_injective _ pointCode_injective

/-- Two points for each x-coordinate. -/
theorem card_point_le : Nat.card (curve a b).Point ≤ 2 * (Nat.card F + 1) := by
  have h := Nat.card_le_card_of_injective _ (pointCode_injective (a := a) (b := b))
  rwa [Nat.card_prod, Finite.card_option, Nat.card_eq_fintype_card (α := Bool), Fintype.card_bool,
    Nat.mul_comm] at h

/-! ## Addition -/

omit [Finite F]

variable [DecidableEq F]

theorem add_of_slope {x₁ y₁ x₂ y₂ ℓ x₃ y₃ : F} (h₁ : (curve a b).Nonsingular x₁ y₁)
    (h₂ : (curve a b).Nonsingular x₂ y₂) (hne : ¬(x₁ = x₂ ∧ y₁ = -y₂))
    (hℓ : (curve a b).slope x₁ x₂ y₁ y₂ = ℓ) (hx : x₃ = ℓ * ℓ - (x₁ + x₂))
    (hy : y₃ = ℓ * (x₁ - x₃) - y₁) :
    ∃ h₃, Point.some x₁ y₁ h₁ + Point.some x₂ y₂ h₂ = Point.some x₃ y₃ h₃ := by
  have hne' : ¬(x₁ = x₂ ∧ y₁ = (curve a b).negY x₂ y₂) := by rwa [negY_curve]
  have hX : (curve a b).addX x₁ x₂ ℓ = x₃ := by
    rw [hx]
    simp only [addX, curve]
    ring
  rw [Point.add_some hne']
  refine some_congr _ (by rw [hℓ, hX]) ?_
  rw [hℓ, addY, negAddY, hX, negY_curve, hy]
  ring

theorem add_of_ne {x₁ y₁ x₂ y₂ ℓ x₃ y₃ : F} (h₁ : (curve a b).Nonsingular x₁ y₁)
    (h₂ : (curve a b).Nonsingular x₂ y₂) (hne : x₁ ≠ x₂)
    (hℓ : ℓ = (y₂ - y₁) * (x₂ - x₁)⁻¹) (hx : x₃ = ℓ * ℓ - (x₁ + x₂))
    (hy : y₃ = ℓ * (x₁ - x₃) - y₁) :
    ∃ h₃, Point.some x₁ y₁ h₁ + Point.some x₂ y₂ h₂ = Point.some x₃ y₃ h₃ := by
  refine add_of_slope h₁ h₂ (fun h => hne h.1) ?_ hx hy
  rw [slope_of_X_ne hne, hℓ, ← div_eq_mul_inv, ← neg_sub y₂, ← neg_sub x₂, neg_div_neg_eq]

theorem double {x y ℓ x₃ y₃ : F} (h : (curve a b).Nonsingular x y) (h2 : (2 : F) ≠ 0)
    (hy0 : y ≠ 0) (hℓ : ℓ = (3 * (x * x) + a) * (2 * y)⁻¹) (hx : x₃ = ℓ * ℓ - 2 * x)
    (hy : y₃ = ℓ * (x - x₃) - y) :
    ∃ h₃, (2 : ℕ) • Point.some x y h = Point.some x₃ y₃ h₃ := by
  have hyne : y ≠ -y := by
    intro hc
    have : 2 * y = 0 := by linear_combination hc
    exact hy0 ((mul_eq_zero.mp this).resolve_left h2)
  rw [two_nsmul]
  refine add_of_slope h h (fun hc => hyne hc.2) ?_ (by rw [hx]; ring) hy
  rw [slope_of_Y_ne rfl (by rwa [negY_curve]), negY_curve, hℓ, div_eq_mul_inv]
  simp only [curve]
  ring

theorem double_of_y_eq_zero {x : F} (h : (curve a b).Nonsingular x 0) :
    (2 : ℕ) • Point.some x 0 h = 0 := by
  rw [two_nsmul]
  exact Point.add_self_of_Y_eq (by rw [negY_curve, neg_zero])

theorem add_opposite {x y y' : F} (h : (curve a b).Nonsingular x y)
    (h' : (curve a b).Nonsingular x y') (hne : y ≠ y') :
    Point.some x y h + Point.some x y' h' = 0 := by
  have hy := (y_eq_or_neg h h').resolve_left hne
  exact Point.add_of_Y_eq rfl (by rw [negY_curve, hy])

end ShortCurve
