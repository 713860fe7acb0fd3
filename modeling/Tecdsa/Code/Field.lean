import Mathlib.Data.Int.Bitwise
import Mathlib.Data.Int.GCD
import Tecdsa.Lib.Residue

/-!
# `include/field.hpp`: arithmetic modulo an integer, over GMP integers

`mpz_class` is `Int`; its `%` and `/` truncate (`mpz_tdiv_r`, `mpz_tdiv_q`), so
they are `Int.tmod` and `Int.tdiv`.  GMP functions keep their name and follow
its manual: `mpzInvert`, `mpzPowm`, `mpzSizeinbase2`, `mpzTstbit`.

`mod_inv` is the one function with a precondition.  It is guarded by an
`assert` only, which the default build removes (`-DNDEBUG` in CMakeLists.txt):
`Build` says which of the two builds runs.
-/

namespace Tecdsa

/-- How a run ends when it does not return. -/
inductive Stop where
  /-- `throw std::runtime_error(what)` -/
  | thrown (what : String)
  /-- an `assert` failed (Debug build) -/
  | assertion (what : String)
  /-- undefined behaviour: a read or write outside its buffer, an overflow of `int` -/
  | overrun
  /-- `main` returns this code -/
  | exited (code : Nat)
  /-- the draws or rounds the run was given end before it does -/
  | exhausted
deriving DecidableEq, Repr

/-- What a function that may stop returns. -/
abbrev Run := Except Stop

@[simp] theorem Run.ok_bind {α β : Type} (x : α) (f : α → Run β) : (.ok x >>= f) = f x := rfl

@[simp] theorem Run.error_bind {α β : Type} (e : Stop) (f : α → Run β) :
    (.error e >>= f) = .error e := rfl

@[simp] theorem Run.pure_eq_ok {α : Type} (x : α) : (pure x : Run α) = .ok x := rfl

/-- A run that returns went through each step. -/
theorem Run.bind_eq_ok {α β : Type} {m : Run α} {f : α → Run β} {b : β} (h : (m >>= f) = .ok b) :
    ∃ a, m = .ok a ∧ f a = .ok b := by
  cases m with
  | ok a => exact ⟨a, rfl, h⟩
  | error e => cases h

/-- Release is compiled with `-DNDEBUG`, Debug is not. -/
inductive Build where
  | release
  | debug
deriving DecidableEq, Repr

/-! ## GMP -/

/-- `mpz_invert`: `none` when no inverse exists (return value 0). -/
def mpzInvert (a m : Int) : Option Int :=
  if Int.gcd a m = 1 then some (Int.gcdA a m % m) else none

/-- `mpz_powm` for exponents `e ≥ 0`, the only ones used here. -/
def mpzPowm (a e m : Int) : Int := a ^ e.toNat % m

/-- `mpz_sizeinbase(x, 2)`; 1 for `x = 0`. -/
def mpzSizeinbase2 (x : Int) : Nat := x.natAbs.log2 + 1

/-- `mpz_tstbit`: two's complement for negative `x`. -/
def mpzTstbit (x : Int) (i : Nat) : Bool := x.testBit i

/-! ## Modular operations -/

def reduce (x m : Int) : Int :=
  let r := x.tmod m
  if r < 0 then r + m else r

def modAdd (a b m : Int) : Int :=
  let r := a + b
  if r ≥ m then r - m else r

def modSub (a b m : Int) : Int :=
  let r := a - b
  if r < 0 then r + m else r

def modNeg (a m : Int) : Int := if a = 0 then 0 else m - a

def modMul (a b m : Int) : Int := (a * b).tmod m

/-- `r` starts at zero and `mpz_invert` leaves it there when it fails, so the
build without `assert` goes on with 0. -/
def modInv (build : Build) (a m : Int) : Run Int :=
  match mpzInvert a m with
  | some r => .ok r
  | none =>
    match build with
    | .debug => .error (.assertion "mod_inv: a is not invertible modulo m")
    | .release => .ok 0

def modPow (a e m : Int) : Int := mpzPowm a e m

/-! ## What the operations denote

On canonical operands each operation returns the canonical representative of
the sum, difference, product or inverse. -/

open Residue

section
variable {m x y : Int} {a b : ZMod m.toNat}

theorem reduce_rep (hm : 0 < m) (x : Int) : Rep m (reduce x m) (x : ZMod m.toNat) := by
  have h : reduce x m = x % m := by
    unfold reduce
    have hlt := Int.tmod_lt_of_pos x hm
    have hneg := Int.lt_tmod_of_pos x hm
    have hmod : x.tmod m % m = x % m := by rw [Int.tmod_def, Int.sub_mul_emod_self_left]
    simp only
    split
    · have : (x.tmod m + m) % m = x.tmod m + m := Int.emod_eq_of_lt (by omega) (by omega)
      rw [Int.add_emod_right] at this
      rw [← hmod, this]
    · rw [← hmod, Int.emod_eq_of_lt (by omega) hlt]
  rw [h]
  exact rep_emod hm x

theorem modAdd_rep (hx : Rep m x a) (hy : Rep m y b) : Rep m (modAdd x y m) (a + b) := by
  obtain ⟨⟨hx0, hxm⟩, rfl⟩ := hx
  obtain ⟨⟨hy0, hym⟩, rfl⟩ := hy
  unfold modAdd
  simp only
  split
  · refine ⟨⟨by omega, by omega⟩, ?_⟩
    rw [Int.cast_sub, Int.cast_add, cast_modulus (by omega), sub_zero]
  · exact ⟨⟨by omega, by omega⟩, Int.cast_add x y⟩

theorem modSub_rep (hx : Rep m x a) (hy : Rep m y b) : Rep m (modSub x y m) (a - b) := by
  obtain ⟨⟨hx0, hxm⟩, rfl⟩ := hx
  obtain ⟨⟨hy0, hym⟩, rfl⟩ := hy
  unfold modSub
  simp only
  split
  · refine ⟨⟨by omega, by omega⟩, ?_⟩
    rw [Int.cast_add, Int.cast_sub, cast_modulus (by omega), add_zero]
  · exact ⟨⟨by omega, by omega⟩, Int.cast_sub x y⟩

theorem modNeg_rep (hx : Rep m x a) : Rep m (modNeg x m) (-a) := by
  obtain ⟨⟨hx0, hxm⟩, rfl⟩ := hx
  unfold modNeg
  split
  · next h0 =>
    subst h0
    exact ⟨⟨le_refl 0, by omega⟩, by simp⟩
  · refine ⟨⟨by omega, by omega⟩, ?_⟩
    rw [Int.cast_sub, cast_modulus (by omega), zero_sub]

/-- The second factor may be any non-negative integer. -/
theorem modMul_rep_of_nonneg (hx : Rep m x a) (hy : 0 ≤ y) :
    Rep m (modMul x y m) (a * (y : ZMod m.toNat)) := by
  obtain ⟨⟨hx0, hxm⟩, rfl⟩ := hx
  have hm : 0 < m := by omega
  have h : modMul x y m = x * y % m := Int.tmod_eq_emod_of_nonneg (mul_nonneg hx0 hy)
  rw [h, ← Int.cast_mul]
  exact rep_emod hm (x * y)

theorem modMul_rep (hx : Rep m x a) (hy : Rep m y b) : Rep m (modMul x y m) (a * b) := by
  have h := modMul_rep_of_nonneg hx hy.1.1
  rwa [hy.2] at h

theorem modPow_rep (hm : 0 < m) (hx : (x : ZMod m.toNat) = a) (e : Int) :
    Rep m (modPow x e m) (a ^ e.toNat) := by
  rw [← hx, ← Int.cast_pow]
  exact rep_emod hm _

/-- A result of `mpz_invert` is the canonical inverse. -/
theorem mpzInvert_rep (hm : 0 < m) (hx : Int.gcd x m = 1) :
    ∃ r, mpzInvert x m = some r ∧ Canon m r ∧ (x : ZMod m.toNat) * (r : ZMod m.toNat) = 1 := by
  refine ⟨Int.gcdA x m % m, if_pos hx, canon_emod hm _, ?_⟩
  have hbez : (1 : Int) = x * Int.gcdA x m + m * Int.gcdB x m := by
    have := Int.gcd_eq_gcd_ab x m
    rwa [hx] at this
  have hcast : ((1 : Int) : ZMod m.toNat) =
      ((x * Int.gcdA x m + m * Int.gcdB x m : Int) : ZMod m.toNat) := by rw [← hbez]
  rw [cast_emod hm.le, ← Int.cast_mul]
  rw [Int.cast_add, Int.cast_mul m, cast_modulus hm.le, zero_mul, add_zero] at hcast
  rw [← hcast, Int.cast_one]

theorem mpzInvert_eq_none (hx : Int.gcd x m ≠ 1) : mpzInvert x m = none := if_neg hx

variable [Fact m.toNat.Prime]

/-- Modulo a prime an invertible argument passes the `assert` in both builds. -/
theorem modInv_rep (hx : Rep m x a) (ha : a ≠ 0) :
    ∃ r, (∀ build, modInv build x m = .ok r) ∧ Rep m r a⁻¹ := by
  have hm := hx.1.pos
  have hg : Int.gcd x m = 1 := by
    rw [← isUnit_cast_iff hm, hx.2]
    exact ha.isUnit
  obtain ⟨r, hr, hc, hone⟩ := mpzInvert_rep hm hg
  refine ⟨r, fun build => by simp [modInv, hr], hc, ?_⟩
  rw [hx.2] at hone
  exact eq_inv_of_mul_eq_one_right hone

/-- Without the `assert`, zero is sent to zero: the convention of a field. -/
theorem modInv_release_rep (hx : Rep m x a) :
    ∃ r, modInv .release x m = .ok r ∧ Rep m r a⁻¹ := by
  by_cases ha : a = 0
  · have hm := hx.1.pos
    have hp : m.toNat ≠ 1 := (Fact.out : m.toNat.Prime).one_lt.ne'
    have h0 : x = 0 := hx.eq_zero_iff.mpr ha
    have hg : Int.gcd x m ≠ 1 := by
      rw [h0, Int.gcd_zero_left]
      omega
    refine ⟨0, by simp [modInv, mpzInvert_eq_none hg], ⟨le_refl 0, hm⟩, ?_⟩
    rw [ha, inv_zero, Int.cast_zero]
  · obtain ⟨r, hr, hrep⟩ := modInv_rep hx ha
    exact ⟨r, hr .release, hrep⟩

end

end Tecdsa
