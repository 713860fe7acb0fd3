import Mathlib.Algebra.Field.Basic
import Mathlib.Algebra.Group.Hom.Defs
import Mathlib.Data.Set.Card
import Mathlib.Tactic.FieldSimp
import Mathlib.Tactic.LinearCombination
import Mathlib.Tactic.Ring

/-!
# The signature equation over an abstract group

What ECDSA needs of its group: the multiples of a base point, as a homomorphism
from the scalar field, and a coordinate that every point but zero has and that
does not see the sign.

    Accepts d z r s ↔ Signs d z r s        for s ≠ 0                 (accepts_iff_signs)
    Signs d z r s → Signs d z r (-s)                                 (Signs.neg)

Two signatures of one nonce are solved for the key (`key_of_two`).
A signature is accepted for no more scalars `z`, and under no more keys `d`,
than its coordinate has nonces (`encard_scalars_le`, `encard_keys_le`).
-/

/-- The multiples `base x` of a point, and the coordinate of a point. -/
structure EcdsaGroup (F M : Type*) [Field F] [AddCommGroup M] where
  base : F →+ M
  coord : M → Option F
  coord_zero : coord 0 = none
  coord_neg : ∀ P, coord (-P) = coord P

namespace EcdsaGroup

variable {F M : Type*} [Field F] [AddCommGroup M] (E : EcdsaGroup F M) {d z r s : F}

/-- `(r, s)` comes from some nonce `k`. -/
def Signs (d z r s : F) : Prop :=
  ∃ k, k ≠ 0 ∧ E.coord (E.base k) = some r ∧ s = k⁻¹ * (z + r * d)

/-- The verifier's test, for the public key `base d`. -/
def Accepts (d z r s : F) : Prop :=
  E.coord (E.base (z * s⁻¹) + E.base (r * s⁻¹ * d)) = some r

variable {E}

/-- The verifier recovers the nonce. -/
theorem accepts_iff (r s : F) :
    E.Accepts d z r s ↔ E.coord (E.base (s⁻¹ * (z + r * d))) = some r := by
  have h : z * s⁻¹ + r * s⁻¹ * d = s⁻¹ * (z + r * d) := by ring
  unfold Accepts
  rw [← map_add, h]

theorem ne_zero_of_coord {k : F} (h : E.coord (E.base k) = some r) : k ≠ 0 := by
  rintro rfl
  rw [map_zero, E.coord_zero] at h
  cases h

/-- **The verifier accepts exactly what a nonce explains.** -/
theorem accepts_iff_signs (hs : s ≠ 0) : E.Accepts d z r s ↔ E.Signs d z r s := by
  rw [accepts_iff]
  constructor
  · intro h
    have hk := ne_zero_of_coord h
    refine ⟨_, hk, h, ?_⟩
    have hz : z + r * d ≠ 0 := right_ne_zero_of_mul hk
    field_simp
  · rintro ⟨k, hk, hcoord, hsk⟩
    have hz : z + r * d ≠ 0 := by
      intro h0
      rw [h0, mul_zero] at hsk
      exact hs hsk
    have : s⁻¹ * (z + r * d) = k := by
      rw [hsk, mul_inv, inv_inv, mul_assoc, inv_mul_cancel₀ hz, mul_one]
    rwa [this]

/-- Negating `s` negates the nonce, which the coordinate does not see. -/
theorem Signs.neg (h : E.Signs d z r s) : E.Signs d z r (-s) := by
  obtain ⟨k, hk, hcoord, hsk⟩ := h
  refine ⟨-k, neg_ne_zero.mpr hk, ?_, ?_⟩
  · rw [map_neg, E.coord_neg, hcoord]
  · rw [hsk, inv_neg, neg_mul]

/-! ## Other messages and other keys -/

variable (E) in
/-- The nonces with the coordinate `r`. -/
def nonces (r : F) : Set F := {k | E.coord (E.base k) = some r}

/-- The nonce recovered by the verifier. -/
theorem accepts_iff_mem_nonces : E.Accepts d z r s ↔ s⁻¹ * (z + r * d) ∈ E.nonces r :=
  accepts_iff r s

theorem encard_scalars_le (hs : s ≠ 0) (d r : F) :
    {z | E.Accepts d z r s}.encard ≤ (E.nonces r).encard := by
  refine Set.encard_le_encard_of_injOn (fun z hz => accepts_iff_mem_nonces.mp hz) ?_
  intro z _ z' _ h
  exact add_right_cancel (mul_left_cancel₀ (inv_ne_zero hs) h)

theorem encard_keys_le (hr : r ≠ 0) (hs : s ≠ 0) (z : F) :
    {d | E.Accepts d z r s}.encard ≤ (E.nonces r).encard := by
  refine Set.encard_le_encard_of_injOn (fun d hd => accepts_iff_mem_nonces.mp hd) ?_
  intro d _ d' _ h
  exact mul_left_cancel₀ hr (add_left_cancel (mul_left_cancel₀ (inv_ne_zero hs) h))

/-- Nonces that are equal or opposite leave one other scalar. -/
theorem scalar_eq_or (hs : s ≠ 0)
    (hnonces : ∀ k ∈ E.nonces r, ∀ k' ∈ E.nonces r, k' = k ∨ k' = -k) {z' : F}
    (h : E.Accepts d z r s) (h' : E.Accepts d z' r s) : z' = z ∨ z' = -z - 2 * r * d := by
  have hs' := inv_ne_zero hs
  rcases hnonces _ (accepts_iff_mem_nonces.mp h) _ (accepts_iff_mem_nonces.mp h') with heq | heq
  · exact Or.inl (add_right_cancel (mul_left_cancel₀ hs' heq))
  · rw [← mul_neg] at heq
    have hsum := mul_left_cancel₀ hs' heq
    exact Or.inr (by linear_combination hsum)

/-! ## One nonce, two scalars -/

/-- Two equations of one nonce are solved for the key. -/
theorem key_of_two {k z' t : F} (hr : r ≠ 0) (hz : z ≠ z') (h : s * k = z + r * d)
    (h' : t * k = z' + r * d) : s ≠ t ∧ d = (t * z - s * z') / (r * (s - t)) := by
  have hst : s ≠ t := by
    rintro rfl
    exact hz (add_right_cancel (h.symm.trans h'))
  refine ⟨hst, ?_⟩
  rw [eq_div_iff (mul_ne_zero hr (sub_ne_zero.mpr hst))]
  linear_combination t * h - s * h'

/-- Equations of nonces that are equal or opposite: one sign of `s'` solves them. -/
theorem exists_key_of_opposite {k k' z' s' : F} (hr : r ≠ 0) (hz : z ≠ z') (hkk : k' = k ∨ k' = -k)
    (h : s * k = z + r * d) (h' : s' * k' = z' + r * d) :
    ∃ t, (t = s' ∨ t = -s') ∧ s ≠ t ∧ d = (t * z - s * z') / (r * (s - t)) := by
  rcases hkk with rfl | rfl
  · exact ⟨s', Or.inl rfl, key_of_two hr hz h h'⟩
  · rw [mul_neg, ← neg_mul] at h'
    exact ⟨-s', Or.inr rfl, key_of_two hr hz h h'⟩

/-- Signatures with one coordinate give the key away when its nonces are equal
or opposite. -/
theorem exists_key_of_accepts {z' s' : F} (hr : r ≠ 0) (hs : s ≠ 0) (hs' : s' ≠ 0) (hz : z ≠ z')
    (hnonces : ∀ k ∈ E.nonces r, ∀ k' ∈ E.nonces r, k' = k ∨ k' = -k)
    (h : E.Accepts d z r s) (h' : E.Accepts d z' r s') :
    ∃ t, (t = s' ∨ t = -s') ∧ s ≠ t ∧ d = (t * z - s * z') / (r * (s - t)) :=
  exists_key_of_opposite hr hz (hnonces _ (accepts_iff_mem_nonces.mp h) _ (accepts_iff_mem_nonces.mp h'))
    (mul_inv_cancel_left₀ hs _) (mul_inv_cancel_left₀ hs' _)

omit [Field F] in
/-- Elements that are all equal or opposite number at most two. -/
theorem encard_le_two [Neg F] {S : Set F} (h : ∀ a ∈ S, ∀ b ∈ S, b = a ∨ b = -a) : S.encard ≤ 2 := by
  rcases S.eq_empty_or_nonempty with rfl | ⟨a, ha⟩
  · simp
  · have hsub : S ⊆ {a, -a} := fun b hb => h a ha b hb
    calc S.encard ≤ ({a, -a} : Set F).encard := Set.encard_le_encard hsub
      _ ≤ ({-a} : Set F).encard + 1 := Set.encard_insert_le _ _
      _ = 2 := by rw [Set.encard_singleton, one_add_one_eq_two]

end EcdsaGroup
