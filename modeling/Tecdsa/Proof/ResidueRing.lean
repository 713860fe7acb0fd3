import Mathlib.FieldTheory.Finite.Basic
import Tecdsa.Code.Field

/-!
# `field.hpp` computes in `ℤ/m`

`Residues m` are the integers the functions work on, with the functions as its
operations.  It is the ring of residues, for every modulus; for a prime one
`mod_inv` is the inverse of the field, and `mod_pow(a, m - 2, m)` is the same:

    Residues.equiv : Residues m ≃+* ZMod m.toNat
    (Residues.equiv hm a) is a unit → modInv build a m = .ok i, a * i = 1      (modInv_of_unit)
-/

namespace Tecdsa

open Residue

/-! ## The carrier -/

/-- What every function of `field.hpp` expects and returns. -/
def Residues (m : Int) : Type := {x : Int // Canon m x}

namespace Residues

variable {m : Int}

theorem pos (a : Residues m) : 0 < m := a.2.pos

instance : Add (Residues m) := ⟨fun a b => ⟨modAdd a.1 b.1 m, (modAdd_rep a.2.rep b.2.rep).1⟩⟩

instance : Sub (Residues m) := ⟨fun a b => ⟨modSub a.1 b.1 m, (modSub_rep a.2.rep b.2.rep).1⟩⟩

instance : Neg (Residues m) := ⟨fun a => ⟨modNeg a.1 m, (modNeg_rep a.2.rep).1⟩⟩

instance : Mul (Residues m) := ⟨fun a b => ⟨modMul a.1 b.1 m, (modMul_rep a.2.rep b.2.rep).1⟩⟩

instance : Pow (Residues m) ℕ := ⟨fun a e => ⟨modPow a.1 e m, (modPow_rep a.pos rfl e).1⟩⟩

/-- `reduce`, with what it guarantees. -/
def ofInt (hm : 0 < m) (x : Int) : Residues m := ⟨reduce x m, (reduce_rep hm x).1⟩

/-! ## The isomorphism -/

/-- The residues, as the ring they compute in. -/
def equiv (hm : 0 < m) : Residues m ≃+* ZMod m.toNat where
  toFun a := (a.1 : ZMod m.toNat)
  invFun c := ⟨lift c, (rep_lift hm c).1⟩
  left_inv a := Subtype.ext (lift_cast a.2)
  right_inv c := (rep_lift hm c).2
  map_add' a b := (modAdd_rep a.2.rep b.2.rep).2
  map_mul' a b := (modMul_rep a.2.rep b.2.rep).2

theorem equiv_apply (hm : 0 < m) (a : Residues m) : equiv hm a = (a.1 : ZMod m.toNat) := rfl

end Residues

/-! ## Inverses -/

/-- The inverse of a unit, for every modulus. -/
theorem modInv_of_unit {m : Int} (hm : 0 < m) {a : Residues m} (ha : IsUnit (Residues.equiv hm a)) :
    ∃ i : Residues m, (∀ build, modInv build a.1 m = .ok i.1) ∧
      Residues.equiv hm a * Residues.equiv hm i = 1 := by
  rw [Residues.equiv_apply, isUnit_cast_iff hm] at ha
  obtain ⟨i, hi, hcanon, hone⟩ := mpzInvert_rep hm ha
  refine ⟨⟨i, hcanon⟩, ?_, hone⟩
  intro build
  unfold modInv
  rw [hi]

/-- The `assert` of the Debug build stops at the others. -/
theorem modInv_of_not_unit {m : Int} (hm : 0 < m) {a : Residues m} (ha : ¬ IsUnit (Residues.equiv hm a)) :
    modInv .debug a.1 m = .error (.assertion "mod_inv: a is not invertible modulo m") := by
  rw [Residues.equiv_apply, isUnit_cast_iff hm] at ha
  unfold modInv
  rw [mpzInvert_eq_none ha]

/-- Modulo a prime the inverse is a power. -/
theorem modInv_eq_modPow {m : Int} (hprime : m.toNat.Prime) {a : Residues m} (ha : a.1 ≠ 0) :
    modPow a.1 (m - 1) m = 1 ∧ ∀ build, modInv build a.1 m = .ok (modPow a.1 (m - 2) m) := by
  have : Fact m.toNat.Prime := ⟨hprime⟩
  have hm := a.pos
  have h2 := hprime.two_le
  have ha0 := a.2.cast_ne_zero ha
  have hfermat := ZMod.pow_card_sub_one_eq_one ha0
  have hexp : (m - 1).toNat = m.toNat - 1 := by omega
  have hexp' : (m - 2).toNat + 1 = m.toNat - 1 := by omega
  have hone : Rep m 1 1 := ⟨⟨by decide, by omega⟩, Int.cast_one⟩
  have hinv : ((a.1 : ZMod m.toNat)) ^ (m - 2).toNat = (a.1 : ZMod m.toNat)⁻¹ := by
    apply eq_inv_of_mul_eq_one_left
    rw [← pow_succ, hexp', hfermat]
  obtain ⟨i, hi, hirep⟩ := modInv_rep a.2.rep ha0
  refine ⟨?_, ?_⟩
  · exact ((modPow_rep hm rfl (m - 1)).of_cast (by rw [hexp, hfermat])).congr hone
  · intro build
    rw [hi build, ((modPow_rep hm rfl (m - 2)).of_cast hinv).congr hirep]

/-! ## Every modulus -/

/-- **`field.hpp` is modular arithmetic**: for every modulus `reduce` is the
class of an integer, the operations are those of the ring, and `mod_inv` finds
the inverses there are; for a prime one it is the power by `m - 2`. -/
theorem residues_ring {m : Int} (hm : 0 < m) :
    (∀ x, Residues.equiv hm (Residues.ofInt hm x) = (x : ZMod m.toNat)) ∧
    (∀ a b : Residues m, Residues.equiv hm (a + b) = Residues.equiv hm a + Residues.equiv hm b ∧
      Residues.equiv hm (a - b) = Residues.equiv hm a - Residues.equiv hm b ∧
      Residues.equiv hm (a * b) = Residues.equiv hm a * Residues.equiv hm b) ∧
    (∀ a : Residues m, Residues.equiv hm (-a) = -Residues.equiv hm a ∧
      ∀ e : ℕ, Residues.equiv hm (a ^ e) = Residues.equiv hm a ^ e) ∧
    (∀ a : Residues m,
      (IsUnit (Residues.equiv hm a) → ∃ i : Residues m, (∀ build, modInv build a.1 m = .ok i.1) ∧
        Residues.equiv hm a * Residues.equiv hm i = 1) ∧
      (¬ IsUnit (Residues.equiv hm a) →
        modInv .debug a.1 m = .error (.assertion "mod_inv: a is not invertible modulo m"))) ∧
    (m.toNat.Prime → ∀ a : Residues m, a.1 ≠ 0 →
      modPow a.1 (m - 1) m = 1 ∧ ∀ build, modInv build a.1 m = .ok (modPow a.1 (m - 2) m)) := by
  refine ⟨fun x => (reduce_rep hm x).2, ?_, ?_, ?_, ?_⟩
  · intro a b
    exact ⟨map_add _ _ _, (modSub_rep a.2.rep b.2.rep).2, map_mul _ _ _⟩
  · intro a
    exact ⟨(modNeg_rep a.2.rep).2, fun e => (modPow_rep hm rfl (e : Int)).2⟩
  · intro a
    exact ⟨modInv_of_unit hm, modInv_of_not_unit hm⟩
  · intro hprime a ha
    exact modInv_eq_modPow hprime ha

/-- A unit modulo 10, with its inverse 7. -/
theorem residues_ring_ten : (0 : Int) < 10 ∧ ∃ i : Residues 10, ∀ build, modInv build 3 10 = .ok i.1 := by
  have hten : (0 : Int) < 10 := by decide
  have hcanon : Canon 10 3 := by decide
  have hunit : IsUnit (Residues.equiv hten ⟨3, hcanon⟩) :=
    (isUnit_cast_iff hten 3).mpr (by decide)
  obtain ⟨i, hi, -⟩ := ((residues_ring hten).2.2.2.1 ⟨3, hcanon⟩).1 hunit
  exact ⟨hten, i, hi⟩

end Tecdsa
