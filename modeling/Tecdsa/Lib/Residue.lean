import Mathlib.Data.ZMod.Units
import Mathlib.Algebra.Field.ZMod

/-!
# Canonical residues: integers in `[0, m)` standing for elements of `ZMod m`

Code that computes modulo `m` on integers keeps two things at once: its values
stay in `[0, m)`, and they denote residues.  `Rep m x a` says both; since
canonical residues are unique (`Rep.eq_iff`), comparing integers is comparing
residues.
-/

namespace Residue

/-- `x` is the canonical representative of its class modulo `m`. -/
def Canon (m x : Int) : Prop := 0 ≤ x ∧ x < m

instance (m x : Int) : Decidable (Canon m x) := inferInstanceAs (Decidable (_ ∧ _))

/-- `x` is canonical and denotes `a`. -/
def Rep (m x : Int) (a : ZMod m.toNat) : Prop := Canon m x ∧ (x : ZMod m.toNat) = a

theorem Canon.pos {m x : Int} (h : Canon m x) : 0 < m := lt_of_le_of_lt h.1 h.2

theorem Canon.rep {m x : Int} (h : Canon m x) : Rep m x (x : ZMod m.toNat) := ⟨h, rfl⟩

theorem cast_modulus {m : Int} (hm : 0 ≤ m) : ((m : Int) : ZMod m.toNat) = 0 := by
  rw [← Int.toNat_of_nonneg hm, Int.toNat_natCast, Int.cast_natCast, ZMod.natCast_self]

theorem cast_eq_cast_iff {m : Int} (hm : 0 ≤ m) (x y : Int) :
    (x : ZMod m.toNat) = y ↔ x % m = y % m := by
  rw [ZMod.intCast_eq_intCast_iff, Int.toNat_of_nonneg hm]
  exact Iff.rfl

theorem cast_emod {m : Int} (hm : 0 ≤ m) (x : Int) : ((x % m : Int) : ZMod m.toNat) = x := by
  rw [cast_eq_cast_iff hm, Int.emod_emod_of_dvd _ (dvd_refl m)]

theorem Canon.emod_eq {m x : Int} (h : Canon m x) : x % m = x := Int.emod_eq_of_lt h.1 h.2

theorem canon_emod {m : Int} (hm : 0 < m) (x : Int) : Canon m (x % m) :=
  ⟨Int.emod_nonneg _ (by omega), Int.emod_lt_of_pos _ hm⟩

theorem rep_emod {m : Int} (hm : 0 < m) (x : Int) : Rep m (x % m) (x : ZMod m.toNat) :=
  ⟨canon_emod hm x, cast_emod hm.le x⟩

/-- **Canonical residues are unique.** -/
theorem Rep.eq_iff {m x y : Int} {a b : ZMod m.toNat} (hx : Rep m x a) (hy : Rep m y b) :
    x = y ↔ a = b := by
  rw [← hx.2, ← hy.2]
  constructor
  · rintro rfl
    rfl
  · intro h
    rw [cast_eq_cast_iff hx.1.pos.le, hx.1.emod_eq, hy.1.emod_eq] at h
    exact h

theorem Rep.congr {m x y : Int} {a : ZMod m.toNat} (hx : Rep m x a) (hy : Rep m y a) : x = y :=
  (hx.eq_iff hy).mpr rfl

theorem Rep.eq_zero_iff {m x : Int} {a : ZMod m.toNat} (hx : Rep m x a) : x = 0 ↔ a = 0 := by
  have h0 : Rep m 0 0 := ⟨⟨le_refl 0, hx.1.pos⟩, by simp⟩
  exact hx.eq_iff h0

theorem Canon.cast_ne_zero {m x : Int} (h : Canon m x) (h0 : x ≠ 0) : (x : ZMod m.toNat) ≠ 0 :=
  fun hx => h0 (h.rep.eq_zero_iff.mpr hx)

/-- The range of a non-zero residue. -/
theorem canon_of_range {m x : Int} (h : 1 ≤ x ∧ x < m) : Canon m x := ⟨by omega, h.2⟩

theorem Canon.range {m x : Int} (h : Canon m x) (h0 : x ≠ 0) : 1 ≤ x ∧ x < m := by
  obtain ⟨hx0, hxm⟩ := h
  exact ⟨by omega, hxm⟩

theorem cast_ne_zero_of_range {m x : Int} (h : 1 ≤ x ∧ x < m) : (x : ZMod m.toNat) ≠ 0 :=
  (canon_of_range h).cast_ne_zero (by omega)

theorem Rep.of_cast {m x : Int} {a b : ZMod m.toNat} (hx : Rep m x a) (h : a = b) : Rep m x b :=
  h ▸ hx

/-- The representative of `a`. -/
def lift {m : Int} (a : ZMod m.toNat) : Int := (a.val : Int)

theorem rep_lift {m : Int} (hm : 0 < m) (a : ZMod m.toNat) : Rep m (lift a) a := by
  have : NeZero m.toNat := ⟨by omega⟩
  have hlt := ZMod.val_lt a
  refine ⟨⟨Int.natCast_nonneg _, ?_⟩, ?_⟩
  · unfold lift; omega
  · unfold lift; rw [Int.cast_natCast, ZMod.natCast_zmod_val]

theorem Rep.lift_eq {m x : Int} {a : ZMod m.toNat} (hx : Rep m x a) : lift a = x :=
  (rep_lift hx.1.pos a).congr hx

theorem lift_cast {m x : Int} (hx : Canon m x) : lift (x : ZMod m.toNat) = x := hx.rep.lift_eq

/-- Coprime to `m` is invertible modulo `m`, and conversely. -/
theorem isUnit_cast_iff {m : Int} (hm : 0 < m) (x : Int) :
    IsUnit (x : ZMod m.toNat) ↔ Int.gcd x m = 1 := by
  rw [ZMod.coe_int_isUnit_iff_isCoprime, Int.toNat_of_nonneg hm.le, isCoprime_comm,
    Int.isCoprime_iff_gcd_eq_one]

end Residue
