import Tecdsa.Proof.ScalarMul

/-!
# Point arithmetic on valid points

`Denotes` restated over `Valid` and `toGroup`: what a caller that only knows
its points to be valid can rely on.

    toGroup (pointNeg P) = - toGroup P                               (pointNeg_spec)
    toGroup (pointDouble P) = 2 • toGroup P                          (pointDouble_spec)
    toGroup (pointAdd P Q) = toGroup P + toGroup Q                   (pointAdd_spec)
    P == Q ↔ toGroup P = toGroup Q                                   (beq_spec)
    toGroup (scalarMul k P) = k • toGroup P                          (scalarMul_spec)
-/

namespace Tecdsa

/-- `R` is a valid point, accepted by `is_on_curve`, that represents `A`. -/
def Represents (R : AffinePoint) (A : Group) : Prop :=
  Valid R ∧ isOnCurve R = true ∧ toGroup R = A

theorem Denotes.represents {R : AffinePoint} {A : Group} (h : Denotes R A) : Represents R A :=
  ⟨h.valid, isOnCurve_of_denotes h, h.toGroup_eq⟩

theorem Represents.denotes {R : AffinePoint} {A : Group} (h : Represents R A) : Denotes R A :=
  h.2.2 ▸ h.1.denotes

variable {P Q : AffinePoint}

theorem pointNeg_spec (hP : Valid P) : Represents (pointNeg P) (-toGroup P) :=
  (pointNeg_denotes hP.denotes).represents

theorem pointDouble_spec (hP : Valid P) :
    ∃ R, (∀ build, pointDouble build P = .ok R) ∧ Represents R ((2 : ℕ) • toGroup P) := by
  obtain ⟨R, hR, hden⟩ := pointDouble_denotes hP.denotes
  exact ⟨R, hR, hden.represents⟩

theorem pointAdd_spec (hP : Valid P) (hQ : Valid Q) :
    ∃ R, (∀ build, pointAdd build P Q = .ok R) ∧ Represents R (toGroup P + toGroup Q) := by
  obtain ⟨R, hR, hden⟩ := pointAdd_denotes hP.denotes hQ.denotes
  exact ⟨R, hR, hden.represents⟩

theorem scalarMul_spec (k : Int) (hP : Valid P) :
    ∃ R, (∀ build, scalarMul build k P = .ok R) ∧ Represents R (k • toGroup P) := by
  obtain ⟨R, hR, hden⟩ := scalarMul_denotes k hP.denotes
  exact ⟨R, hR, hden.represents⟩

theorem beq_spec (hP : Valid P) (hQ : Valid Q) : (P == Q) = true ↔ toGroup P = toGroup Q :=
  beq_iff hP.denotes hQ.denotes

/-- Results that represent one element are `==`. -/
theorem Represents.beq {A : Group} (hP : Represents P A) (hQ : Represents Q A) : (P == Q) = true :=
  (beq_spec hP.1 hQ.1).mpr (hP.2.2.trans hQ.2.2.symm)

theorem pointAdd_comm (hP : Valid P) (hQ : Valid Q) :
    ∃ S S', (∀ build, pointAdd build P Q = .ok S) ∧ (∀ build, pointAdd build Q P = .ok S') ∧
      (S == S') = true := by
  obtain ⟨S, hS, hrep⟩ := pointAdd_spec hP hQ
  obtain ⟨S', hS', hrep'⟩ := pointAdd_spec hQ hP
  rw [add_comm] at hrep'
  exact ⟨S, S', hS, hS', hrep.beq hrep'⟩

theorem pointAdd_assoc {R : AffinePoint} (hP : Valid P) (hQ : Valid Q) (hR : Valid R) :
    ∃ T T', (∀ build, (do pointAdd build (← pointAdd build P Q) R) = .ok T) ∧
      (∀ build, (do pointAdd build P (← pointAdd build Q R)) = .ok T') ∧ (T == T') = true := by
  obtain ⟨S, hS, hrepS⟩ := pointAdd_spec hP hQ
  obtain ⟨S', hS', hrepS'⟩ := pointAdd_spec hQ hR
  obtain ⟨T, hT, hrepT⟩ := pointAdd_spec hrepS.1 hR
  obtain ⟨T', hT', hrepT'⟩ := pointAdd_spec hP hrepS'.1
  rw [hrepS.2.2, add_assoc] at hrepT
  rw [hrepS'.2.2] at hrepT'
  refine ⟨T, T', fun build => ?_, fun build => ?_, hrepT.beq hrepT'⟩
  · rw [hS build, Run.ok_bind, hT build]
  · rw [hS' build, Run.ok_bind, hT' build]

theorem pointAdd_neg (hP : Valid P) :
    ∃ S, (∀ build, pointAdd build P (pointNeg P) = .ok S) ∧ (S == identity) = true := by
  have hneg := pointNeg_spec hP
  obtain ⟨S, hS, hrep⟩ := pointAdd_spec hP hneg.1
  rw [hneg.2.2, add_neg_cancel] at hrep
  exact ⟨S, hS, hrep.beq identity_denotes.represents⟩

/-- **Affine point arithmetic is the group of secp256k1.**  The results are the
same in both builds: in the Debug build every `mod_inv` passes its `assert`. -/
theorem pointArith_refines_group {R : AffinePoint} (hP : Valid P) (hQ : Valid Q) (hR : Valid R) :
    Represents (pointNeg P) (-toGroup P) ∧
    (∃ D, (∀ build, pointDouble build P = .ok D) ∧ Represents D ((2 : ℕ) • toGroup P)) ∧
    (∃ S, (∀ build, pointAdd build P Q = .ok S) ∧ Represents S (toGroup P + toGroup Q)) ∧
    ((P == Q) = true ↔ toGroup P = toGroup Q) ∧
    (∃ S S', (∀ build, pointAdd build P Q = .ok S) ∧ (∀ build, pointAdd build Q P = .ok S') ∧
      (S == S') = true) ∧
    (∃ T T', (∀ build, (do pointAdd build (← pointAdd build P Q) R) = .ok T) ∧
      (∀ build, (do pointAdd build P (← pointAdd build Q R)) = .ok T') ∧ (T == T') = true) ∧
    ∃ S, (∀ build, pointAdd build P (pointNeg P) = .ok S) ∧ (S == identity) = true :=
  ⟨pointNeg_spec hP, pointDouble_spec hP, pointAdd_spec hP hQ, beq_spec hP hQ, pointAdd_comm hP hQ,
    pointAdd_assoc hP hQ hR, pointAdd_neg hP⟩

theorem pointArith_refines_group_generator :
    Valid generator ∧ Valid (pointNeg generator) ∧ Valid identity ∧
      ∃ S, (∀ build, pointAdd build generator (pointNeg generator) = .ok S) ∧
        Represents S (toGroup generator + toGroup (pointNeg generator)) :=
  ⟨generator_valid, (pointNeg_spec generator_valid).1, Or.inl rfl,
    (pointArith_refines_group generator_valid (pointNeg_spec generator_valid).1
      (show Valid identity from Or.inl rfl)).2.2.1⟩

/-! ## Multiples -/

theorem scalarMul_add (a b : Int) (hP : Valid P) :
    ∃ S T, (∀ build, scalarMul build (a + b) P = .ok S) ∧
      (∀ build, (do pointAdd build (← scalarMul build a P) (← scalarMul build b P)) = .ok T) ∧
      (S == T) = true := by
  obtain ⟨S, hS, hrepS⟩ := scalarMul_spec (a + b) hP
  obtain ⟨A, hA, hrepA⟩ := scalarMul_spec a hP
  obtain ⟨B, hB, hrepB⟩ := scalarMul_spec b hP
  obtain ⟨T, hT, hrepT⟩ := pointAdd_spec hrepA.1 hrepB.1
  rw [hrepA.2.2, hrepB.2.2, ← add_zsmul] at hrepT
  refine ⟨S, T, hS, ?_, hrepS.beq hrepT⟩
  intro build
  rw [hA build, Run.ok_bind, hB build, Run.ok_bind, hT build]

theorem scalarMul_mul (a b : Int) (hP : Valid P) :
    ∃ S T, (∀ build, (do scalarMul build a (← scalarMul build b P)) = .ok S) ∧
      (∀ build, scalarMul build (a * b) P = .ok T) ∧ (S == T) = true := by
  obtain ⟨B, hB, hrepB⟩ := scalarMul_spec b hP
  obtain ⟨S, hS, hrepS⟩ := scalarMul_spec a hrepB.1
  obtain ⟨T, hT, hrepT⟩ := scalarMul_spec (a * b) hP
  rw [hrepB.2.2, ← mul_zsmul] at hrepS
  refine ⟨S, T, ?_, hT, hrepS.beq hrepT⟩
  intro build
  rw [hB build, Run.ok_bind, hS build]

/-- **`scalar_mul` computes integer multiples**, of every valid point by every
integer, so it distributes over sums and nests to products. -/
theorem scalarMul_multiples (hP : Valid P) :
    (∀ k : Int, ∃ R, (∀ build, scalarMul build k P = .ok R) ∧ Represents R (k • toGroup P)) ∧
    (∀ a b : Int, ∃ S T, (∀ build, scalarMul build (a + b) P = .ok S) ∧
      (∀ build, (do pointAdd build (← scalarMul build a P) (← scalarMul build b P)) = .ok T) ∧
      (S == T) = true) ∧
    ∀ a b : Int, ∃ S T, (∀ build, (do scalarMul build a (← scalarMul build b P)) = .ok S) ∧
      (∀ build, scalarMul build (a * b) P = .ok T) ∧ (S == T) = true :=
  ⟨fun k => scalarMul_spec k hP, fun a b => scalarMul_add a b hP, fun a b => scalarMul_mul a b hP⟩

theorem scalarMul_multiples_generator : Valid generator ∧
    ∃ R, (∀ build, scalarMul build (-Secp256k1.n) generator = .ok R) ∧
      Represents R (-Secp256k1.n • toGroup generator) :=
  ⟨generator_valid, (scalarMul_multiples generator_valid).1 (-Secp256k1.n)⟩

end Tecdsa
