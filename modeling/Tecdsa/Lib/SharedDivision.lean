import Mathlib.Algebra.Field.Basic
import Mathlib.Tactic.LinearCombination
import Mathlib.Tactic.Ring

/-!
# Two parties multiply and divide on additive shares

A dealer hands out a triple `c = a b`; with it two parties that hold shares of
`x` and `y` open `d = x - a`, `e = y - b` and get shares of `x y`.  Two such
products and a random mask give shares of `y / k`:

    (mul …).z1 + (mul …).z2 = (x₁ + x₂) (y₁ + y₂)                    (mul_sum)
    (divide …).s = (k₁ + k₂)⁻¹ (y₁ + y₂)      for a non-zero mask    (divide_spec)

What one party sees does not depend on the other's inputs beyond the result:
`translate` moves the randomness so that its view stays the same.
-/

namespace SharedDivision

inductive Party where
  | one
  | two
deriving DecidableEq

/-! ## Multiplication -/

section
variable {R : Type*} [CommRing R]

/-- Shares of two factors and of their product. -/
structure Triple (R : Type*) [CommRing R] where
  a1 : R
  a2 : R
  b1 : R
  b2 : R
  c1 : R
  c2 : R
  product : c1 + c2 = (a1 + a2) * (b1 + b2)

/-- What the dealer draws. -/
structure Deal (R : Type*) where
  a : R
  b : R
  a1 : R
  b1 : R
  c1 : R

section
variable {α β : Type*}

def Deal.map (f : α → β) (t : Deal α) : Deal β := ⟨f t.a, f t.b, f t.a1, f t.b1, f t.c1⟩

def Deal.All (P : α → Prop) (t : Deal α) : Prop := P t.a ∧ P t.b ∧ P t.a1 ∧ P t.b1 ∧ P t.c1

/-- The draws in the order they are made. -/
def Deal.toList (t : Deal α) : List α := [t.a, t.b, t.a1, t.b1, t.c1]

end

def Deal.triple (t : Deal R) : Triple R where
  a1 := t.a1
  a2 := t.a - t.a1
  b1 := t.b1
  b2 := t.b - t.b1
  c1 := t.c1
  c2 := t.a * t.b - t.c1
  product := by ring

/-- The opened values and the shares of the product. -/
structure Product (R : Type*) where
  d : R
  e : R
  z1 : R
  z2 : R

def mul (x1 x2 y1 y2 : R) (T : Triple R) : Product R :=
  let d := x1 - T.a1 + (x2 - T.a2)
  let e := y1 - T.b1 + (y2 - T.b2)
  { d := d
    e := e
    z1 := T.c1 + d * T.b1 + e * T.a1 + d * e
    z2 := T.c2 + d * T.b2 + e * T.a2 }

/-- **The shares are shares of the product.** -/
theorem mul_sum (x1 x2 y1 y2 : R) (T : Triple R) :
    (mul x1 x2 y1 y2 T).z1 + (mul x1 x2 y1 y2 T).z2 = (x1 + x2) * (y1 + y2) := by
  simp only [mul]
  linear_combination T.product

/-- A party's shares of a triple. -/
def Triple.own (T : Triple R) : Party → R × R × R
  | .one => (T.a1, T.b1, T.c1)
  | .two => (T.a2, T.b2, T.c2)

/-- A party's share of the product. -/
def Product.own (P : Product R) : Party → R
  | .one => P.z1
  | .two => P.z2

/-- The dealer's draws after the other party's inputs moved by `δx` and `δy`. -/
def Deal.translate (t : Deal R) (δx δy : R) : Party → Deal R
  | .one => { t with a := t.a + δx, b := t.b + δy }
  | .two =>
    { a := t.a + δx
      b := t.b + δy
      a1 := t.a1 + δx
      b1 := t.b1 + δy
      c1 := t.c1 + ((t.a + δx) * (t.b + δy) - t.a * t.b) }

theorem Deal.translate_translate (t : Deal R) (δx δy : R) (i : Party) :
    (t.translate δx δy i).translate (-δx) (-δy) i = t := by
  obtain ⟨a, b, a1, b1, c1⟩ := t
  cases i with
  | one => simp [Deal.translate]
  | two =>
    unfold Deal.translate
    simp only [Deal.mk.injEq]
    refine ⟨?_, ?_, ?_, ?_, ?_⟩ <;> ring

/-- The dealer's draws for two choices of the other party's inputs are one to one. -/
def Deal.translateEquiv (δx δy : R) (i : Party) : Deal R ≃ Deal R where
  toFun t := t.translate δx δy i
  invFun t := t.translate (-δx) (-δy) i
  left_inv t := t.translate_translate δx δy i
  right_inv t := by
    have h := t.translate_translate (-δx) (-δy) i
    rwa [neg_neg, neg_neg] at h

theorem Deal.own_translate (t : Deal R) (δx δy : R) (i : Party) :
    (t.translate δx δy i).triple.own i = t.triple.own i := by
  cases i with
  | one => rfl
  | two =>
    simp only [Deal.translate, Deal.triple, Triple.own, Prod.mk.injEq]
    refine ⟨?_, ?_, ?_⟩ <;> ring

/-- Party one's view of a product does not see party two's inputs. -/
theorem mul_translate_one (t : Deal R) (x1 x2 y1 y2 x2' y2' : R) :
    (mul x1 x2' y1 y2' (t.translate (x2' - x2) (y2' - y2) .one).triple).d =
        (mul x1 x2 y1 y2 t.triple).d ∧
      (mul x1 x2' y1 y2' (t.translate (x2' - x2) (y2' - y2) .one).triple).e =
        (mul x1 x2 y1 y2 t.triple).e ∧
      (mul x1 x2' y1 y2' (t.translate (x2' - x2) (y2' - y2) .one).triple).z1 =
        (mul x1 x2 y1 y2 t.triple).z1 := by
  simp only [mul, Deal.translate, Deal.triple]
  refine ⟨?_, ?_, ?_⟩ <;> ring

/-- Party two's view of a product does not see party one's inputs. -/
theorem mul_translate_two (t : Deal R) (x1 x2 y1 y2 x1' y1' : R) :
    (mul x1' x2 y1' y2 (t.translate (x1' - x1) (y1' - y1) .two).triple).d =
        (mul x1 x2 y1 y2 t.triple).d ∧
      (mul x1' x2 y1' y2 (t.translate (x1' - x1) (y1' - y1) .two).triple).e =
        (mul x1 x2 y1 y2 t.triple).e ∧
      (mul x1' x2 y1' y2 (t.translate (x1' - x1) (y1' - y1) .two).triple).z2 =
        (mul x1 x2 y1 y2 t.triple).z2 := by
  simp only [mul, Deal.translate, Deal.triple]
  refine ⟨?_, ?_, ?_⟩ <;> ring

end

/-! ## Division -/

section
variable {F : Type*} [Field F]

/-- Shares of the divisor `k` and the dividend `y`. -/
structure Inputs (F : Type*) where
  k1 : F
  k2 : F
  y1 : F
  y2 : F

/-- The draws of a division: two deals and the shares of a mask. -/
structure Tape (F : Type*) where
  inv : Deal F
  r1 : F
  r2 : F
  mul : Deal F

section
variable {α β : Type*}

def Tape.map (f : α → β) (t : Tape α) : Tape β := ⟨t.inv.map f, f t.r1, f t.r2, t.mul.map f⟩

def Tape.All (P : α → Prop) (t : Tape α) : Prop := t.inv.All P ∧ P t.r1 ∧ P t.r2 ∧ t.mul.All P

def Tape.toList (t : Tape α) : List α := t.inv.toList ++ t.r1 :: t.r2 :: t.mul.toList

theorem Tape.toList_append (t : Tape α) (rest : List α) :
    t.toList ++ rest = t.inv.toList ++ (t.r1 :: t.r2 :: (t.mul.toList ++ rest)) := by
  unfold Tape.toList
  simp only [List.append_assoc, List.cons_append]

end

/-- Everything computed: the masked product, its opening `m`, the shares of the
inverse and the second product. -/
structure Transcript (F : Type*) where
  inv : Product F
  m : F
  kinv1 : F
  kinv2 : F
  mul : Product F
  s : F

def divide (x : Inputs F) (t : Tape F) : Transcript F :=
  let inv := mul x.k1 x.k2 t.r1 t.r2 t.inv.triple
  let m := inv.z1 + inv.z2
  let kinv1 := t.r1 * m⁻¹
  let kinv2 := t.r2 * m⁻¹
  let product := mul kinv1 kinv2 x.y1 x.y2 t.mul.triple
  { inv := inv, m := m, kinv1 := kinv1, kinv2 := kinv2, mul := product, s := product.z1 + product.z2 }

theorem divide_inv (x : Inputs F) (t : Tape F) :
    (divide x t).inv = mul x.k1 x.k2 t.r1 t.r2 t.inv.triple := rfl

theorem divide_m (x : Inputs F) (t : Tape F) : (divide x t).m = (x.k1 + x.k2) * (t.r1 + t.r2) :=
  mul_sum _ _ _ _ _

theorem divide_kinv (x : Inputs F) (t : Tape F) :
    (divide x t).kinv1 + (divide x t).kinv2 = (t.r1 + t.r2) * ((x.k1 + x.k2) * (t.r1 + t.r2))⁻¹ := by
  rw [← divide_m]
  exact (add_mul _ _ _).symm

theorem divide_s (x : Inputs F) (t : Tape F) :
    (divide x t).s = (t.r1 + t.r2) * ((x.k1 + x.k2) * (t.r1 + t.r2))⁻¹ * (x.y1 + x.y2) := by
  rw [← divide_kinv]
  exact mul_sum _ _ _ _ _

theorem divide_mul (x : Inputs F) (t : Tape F) : (divide x t).mul =
    mul (t.r1 * ((x.k1 + x.k2) * (t.r1 + t.r2))⁻¹) (t.r2 * ((x.k1 + x.k2) * (t.r1 + t.r2))⁻¹)
      x.y1 x.y2 t.mul.triple := by
  rw [← divide_m]
  rfl

/-- **The result is the quotient**, whatever the shares and the draws. -/
theorem divide_spec (x : Inputs F) {t : Tape F} (ht : t.r1 + t.r2 ≠ 0) :
    (divide x t).s = (x.k1 + x.k2)⁻¹ * (x.y1 + x.y2) := by
  rw [divide_s, mul_inv, mul_left_comm, mul_inv_cancel₀ ht, mul_one]

/-- With a zero mask the result is zero. -/
theorem divide_of_mask_zero (x : Inputs F) {t : Tape F} (ht : t.r1 + t.r2 = 0) : (divide x t).s = 0 := by
  rw [divide_s, ht, zero_mul, zero_mul]

end

/-! ## What a party sees -/

section
variable {F : Type*} [Field F]

/-- The view of one party: its mask share and shares of both triples, and
everything opened, the shares of the result included. -/
@[ext]
structure View (F : Type*) where
  mask : F
  tripleInv : F × F × F
  tripleMul : F × F × F
  dInv : F
  eInv : F
  m : F
  dMul : F
  eMul : F
  s1 : F
  s2 : F
  s : F
deriving DecidableEq

def Tape.own (t : Tape F) : Party → F
  | .one => t.r1
  | .two => t.r2

def View.map {G : Type*} (f : F → G) (v : View F) : View G where
  mask := f v.mask
  tripleInv := (f v.tripleInv.1, f v.tripleInv.2.1, f v.tripleInv.2.2)
  tripleMul := (f v.tripleMul.1, f v.tripleMul.2.1, f v.tripleMul.2.2)
  dInv := f v.dInv
  eInv := f v.eInv
  m := f v.m
  dMul := f v.dMul
  eMul := f v.eMul
  s1 := f v.s1
  s2 := f v.s2
  s := f v.s

def view (i : Party) (x : Inputs F) (t : Tape F) : View F :=
  let run := divide x t
  { mask := t.own i
    tripleInv := t.inv.triple.own i
    tripleMul := t.mul.triple.own i
    dInv := run.inv.d
    eInv := run.inv.e
    m := run.m
    dMul := run.mul.d
    eMul := run.mul.e
    s1 := run.mul.z1
    s2 := run.mul.z2
    s := run.s }

/-- A party's own inputs. -/
def Inputs.own (x : Inputs F) : Party → F × F
  | .one => (x.k1, x.y1)
  | .two => (x.k2, x.y2)

/-- The mask under which `x'` opens the same `m` as `x` under `t`. -/
def Tape.mask (t : Tape F) (x x' : Inputs F) : F :=
  (x.k1 + x.k2) * (t.r1 + t.r2) * (x'.k1 + x'.k2)⁻¹

/-- The draws under which `x'` shows party `i` what `x` shows it under `t`. -/
def Tape.translate (t : Tape F) (x x' : Inputs F) : Party → Tape F
  | .one =>
    let r2 := t.mask x x' - t.r1
    let m := (x.k1 + x.k2) * (t.r1 + t.r2)
    { inv := t.inv.translate (x'.k2 - x.k2) (r2 - t.r2) .one
      r1 := t.r1
      r2 := r2
      mul := t.mul.translate (r2 * m⁻¹ - t.r2 * m⁻¹) (x'.y2 - x.y2) .one }
  | .two =>
    let r1 := t.mask x x' - t.r2
    let m := (x.k1 + x.k2) * (t.r1 + t.r2)
    { inv := t.inv.translate (x'.k1 - x.k1) (r1 - t.r1) .two
      r1 := r1
      r2 := t.r2
      mul := t.mul.translate (r1 * m⁻¹ - t.r1 * m⁻¹) (x'.y1 - x.y1) .two }

variable {x x' : Inputs F}

/-- The mask of the moved tape. -/
theorem mask_translate (t : Tape F) (x x' : Inputs F) (i : Party) :
    (t.translate x x' i).r1 + (t.translate x x' i).r2 = t.mask x x' := by
  cases i with
  | one => exact add_sub_cancel _ _
  | two => exact sub_add_cancel _ _

theorem mask_ne_zero {t : Tape F} (hk : x.k1 + x.k2 ≠ 0) (hk' : x'.k1 + x'.k2 ≠ 0)
    (ht : t.r1 + t.r2 ≠ 0) : t.mask x x' ≠ 0 :=
  mul_ne_zero (mul_ne_zero hk ht) (inv_ne_zero hk')

/-- The opened `m` stays the same. -/
theorem m_translate (t : Tape F) (hk' : x'.k1 + x'.k2 ≠ 0) (i : Party) :
    (x'.k1 + x'.k2) * ((t.translate x x' i).r1 + (t.translate x x' i).r2) =
      (x.k1 + x.k2) * (t.r1 + t.r2) := by
  rw [mask_translate, Tape.mask, mul_left_comm, mul_inv_cancel₀ hk', mul_one]

theorem translate_translate {t : Tape F} (hk : x.k1 + x.k2 ≠ 0) (hk' : x'.k1 + x'.k2 ≠ 0) (i : Party) :
    (t.translate x x' i).translate x' x i = t := by
  have hm := m_translate (x := x) t hk' i
  have hback : (t.translate x x' i).mask x' x = t.r1 + t.r2 := by
    unfold Tape.mask
    rw [hm, mul_comm, ← mul_assoc, inv_mul_cancel₀ hk, one_mul]
  cases i with
  | one =>
    have hr2 : (t.translate x x' .one).mask x' x - (t.translate x x' .one).r1 = t.r2 := by
      rw [hback]
      exact add_sub_cancel_left _ _
    rw [Tape.translate, hm, hr2]
    obtain ⟨inv, r1, r2, mul⟩ := t
    unfold Tape.translate
    simp only [Tape.mk.injEq, true_and]
    refine ⟨?_, ?_⟩
    · rw [← neg_sub x'.k2 x.k2, ← neg_sub _ r2]
      exact Deal.translate_translate _ _ _ _
    · rw [← neg_sub x'.y2 x.y2, ← neg_sub _ (r2 * _)]
      exact Deal.translate_translate _ _ _ _
  | two =>
    have hr1 : (t.translate x x' .two).mask x' x - (t.translate x x' .two).r2 = t.r1 := by
      rw [hback]
      exact add_sub_cancel_right _ _
    rw [Tape.translate, hm, hr1]
    obtain ⟨inv, r1, r2, mul⟩ := t
    unfold Tape.translate
    simp only [Tape.mk.injEq, true_and]
    refine ⟨?_, ?_⟩
    · rw [← neg_sub x'.k1 x.k1, ← neg_sub _ r1]
      exact Deal.translate_translate _ _ _ _
    · rw [← neg_sub x'.y1 x.y1, ← neg_sub _ (r1 * _)]
      exact Deal.translate_translate _ _ _ _

/-- **Party `i` sees the same** under the moved tape, when its own inputs and
the quotient are the same. -/
theorem view_translate {t : Tape F} {i : Party} (hown : x.own i = x'.own i)
    (hk : x.k1 + x.k2 ≠ 0) (hk' : x'.k1 + x'.k2 ≠ 0) (ht : t.r1 + t.r2 ≠ 0)
    (hs : (x.k1 + x.k2)⁻¹ * (x.y1 + x.y2) = (x'.k1 + x'.k2)⁻¹ * (x'.y1 + x'.y2)) :
    view i x' (t.translate x x' i) = view i x t := by
  have hm : (x'.k1 + x'.k2) * ((t.translate x x' i).r1 + (t.translate x x' i).r2) =
      (x.k1 + x.k2) * (t.r1 + t.r2) := m_translate t hk' i
  have hsum : (divide x' (t.translate x x' i)).s = (divide x t).s := by
    rw [divide_spec x ht, divide_spec x' (by rw [mask_translate]; exact mask_ne_zero hk hk' ht)]
    exact hs.symm
  have hopen : (divide x' (t.translate x x' i)).m = (divide x t).m := by
    rw [divide_m, divide_m, hm]
  cases i with
  | one =>
    obtain ⟨hk1, hy1⟩ := Prod.mk.inj hown
    obtain ⟨hd, he, -⟩ := mul_translate_one t.inv x.k1 x.k2 t.r1 t.r2 x'.k2 (t.mask x x' - t.r1)
    obtain ⟨hd', he', hz1⟩ := mul_translate_one t.mul
      (t.r1 * ((x.k1 + x.k2) * (t.r1 + t.r2))⁻¹) (t.r2 * ((x.k1 + x.k2) * (t.r1 + t.r2))⁻¹) x.y1 x.y2
      ((t.mask x x' - t.r1) * ((x.k1 + x.k2) * (t.r1 + t.r2))⁻¹) x'.y2
    rw [hk1] at hd he
    rw [hy1] at hd' he' hz1
    have hprod := divide_mul x' (t.translate x x' .one)
    rw [hm] at hprod
    have hshare : (divide x' (t.translate x x' .one)).mul.z1 = (divide x t).mul.z1 := by
      rw [hprod, divide_mul, hy1]
      exact hz1
    have hother : (divide x' (t.translate x x' .one)).mul.z2 = (divide x t).mul.z2 :=
      add_left_cancel (hsum.trans (congrArg (· + (divide x t).mul.z2) hshare.symm))
    apply View.ext
    · rfl
    · exact t.inv.own_translate (x'.k2 - x.k2) (t.mask x x' - t.r1 - t.r2) .one
    · exact t.mul.own_translate _ (x'.y2 - x.y2) .one
    · show (divide x' (t.translate x x' .one)).inv.d = (divide x t).inv.d
      rw [divide_inv, divide_inv, hk1]
      exact hd
    · show (divide x' (t.translate x x' .one)).inv.e = (divide x t).inv.e
      rw [divide_inv, divide_inv, hk1]
      exact he
    · exact hopen
    · show (divide x' _).mul.d = (divide x t).mul.d
      rw [hprod, divide_mul, hy1]
      exact hd'
    · show (divide x' _).mul.e = (divide x t).mul.e
      rw [hprod, divide_mul, hy1]
      exact he'
    · exact hshare
    · exact hother
    · exact hsum
  | two =>
    obtain ⟨hk2, hy2⟩ := Prod.mk.inj hown
    obtain ⟨hd, he, -⟩ := mul_translate_two t.inv x.k1 x.k2 t.r1 t.r2 x'.k1 (t.mask x x' - t.r2)
    obtain ⟨hd', he', hz2⟩ := mul_translate_two t.mul
      (t.r1 * ((x.k1 + x.k2) * (t.r1 + t.r2))⁻¹) (t.r2 * ((x.k1 + x.k2) * (t.r1 + t.r2))⁻¹) x.y1 x.y2
      ((t.mask x x' - t.r2) * ((x.k1 + x.k2) * (t.r1 + t.r2))⁻¹) x'.y1
    rw [hk2] at hd he
    rw [hy2] at hd' he' hz2
    have hprod := divide_mul x' (t.translate x x' .two)
    rw [hm] at hprod
    have hshare : (divide x' (t.translate x x' .two)).mul.z2 = (divide x t).mul.z2 := by
      rw [hprod, divide_mul, hy2]
      exact hz2
    have hother : (divide x' (t.translate x x' .two)).mul.z1 = (divide x t).mul.z1 :=
      add_right_cancel (hsum.trans (congrArg ((divide x t).mul.z1 + ·) hshare.symm))
    apply View.ext
    · rfl
    · exact t.inv.own_translate (x'.k1 - x.k1) (t.mask x x' - t.r2 - t.r1) .two
    · exact t.mul.own_translate _ (x'.y1 - x.y1) .two
    · show (divide x' (t.translate x x' .two)).inv.d = (divide x t).inv.d
      rw [divide_inv, divide_inv, hk2]
      exact hd
    · show (divide x' (t.translate x x' .two)).inv.e = (divide x t).inv.e
      rw [divide_inv, divide_inv, hk2]
      exact he
    · exact hopen
    · show (divide x' _).mul.d = (divide x t).mul.d
      rw [hprod, divide_mul, hy2]
      exact hd'
    · show (divide x' _).mul.e = (divide x t).mul.e
      rw [hprod, divide_mul, hy2]
      exact he'
    · exact hother
    · exact hshare
    · exact hsum

/-- The tapes of `x` and of `x'` that have a mask are in bijection. -/
def translateEquiv (hk : x.k1 + x.k2 ≠ 0) (hk' : x'.k1 + x'.k2 ≠ 0) (i : Party) :
    {t : Tape F // t.r1 + t.r2 ≠ 0} ≃ {t : Tape F // t.r1 + t.r2 ≠ 0} where
  toFun t := ⟨t.1.translate x x' i, by rw [mask_translate]; exact mask_ne_zero hk hk' t.2⟩
  invFun t := ⟨t.1.translate x' x i, by rw [mask_translate]; exact mask_ne_zero hk' hk t.2⟩
  left_inv _ := Subtype.ext (translate_translate hk hk' i)
  right_inv _ := Subtype.ext (translate_translate hk' hk i)

end

end SharedDivision
