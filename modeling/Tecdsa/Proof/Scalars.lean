import Tecdsa.Proof.Verify

/-!
# Scalars modulo `n` act faithfully on the generator

`a ↦ scalar_mul(a, G)` is, up to `operator==`, the injective homomorphism
`secp.base` from the scalar field.

    scalarMul a G == scalarMul b G ↔ a % n = b % n                   (scalarMul_generator_beq_iff)
    scalarMul a G at infinity ↔ n ∣ a                                (scalarMul_generator_infinity_iff)
-/

namespace Tecdsa

open Residue

theorem scalarMul_generator (a : Int) :
    ∃ R, (∀ build, scalarMul build a generator = .ok R) ∧ Denotes R (secp.base (a : Fn)) := by
  obtain ⟨R, hR, hden⟩ := scalarMul_denotes a generator_denotes
  rw [← secp_base_intCast] at hden
  exact ⟨R, hR, hden⟩

theorem secp_base_eq_iff {κ μ : Fn} : secp.base κ = secp.base μ ↔ κ = μ :=
  secp_base_injective.eq_iff

theorem scalarMul_generator_beq_iff (a b : Int) :
    ∃ A B, (∀ build, scalarMul build a generator = .ok A) ∧
      (∀ build, scalarMul build b generator = .ok B) ∧
      ((A == B) = true ↔ a % Secp256k1.n = b % Secp256k1.n) := by
  obtain ⟨A, hA, hdenA⟩ := scalarMul_generator a
  obtain ⟨B, hB, hdenB⟩ := scalarMul_generator b
  refine ⟨A, B, hA, hB, ?_⟩
  rw [beq_iff hdenA hdenB, secp_base_eq_iff, cast_eq_cast_iff n_pos.le]

theorem scalarMul_generator_infinity_iff (a : Int) :
    ∃ A, (∀ build, scalarMul build a generator = .ok A) ∧
      (A.infinity = true ↔ Secp256k1.n ∣ a) := by
  obtain ⟨A, hA, hden⟩ := scalarMul_generator a
  refine ⟨A, hA, ?_⟩
  rw [hden.infinity_iff, ← map_zero secp.base, secp_base_eq_iff, ← Int.cast_zero,
    cast_eq_cast_iff n_pos.le, Int.zero_emod, Int.dvd_iff_emod_eq_zero]

/-- Sums modulo `n` are sums of points. -/
theorem scalarMul_generator_modAdd {a b : Int} (ha : Canon Secp256k1.n a) (hb : Canon Secp256k1.n b) :
    ∃ S T, (∀ build, scalarMul build (modAdd a b Secp256k1.n) generator = .ok S) ∧
      (∀ build, (do pointAdd build (← scalarMul build a generator) (← scalarMul build b generator)) =
        .ok T) ∧ (S == T) = true := by
  obtain ⟨S, hS, hdenS⟩ := scalarMul_base (modAdd_rep ha.rep hb.rep)
  obtain ⟨A, hA, hdenA⟩ := scalarMul_base ha.rep
  obtain ⟨B, hB, hdenB⟩ := scalarMul_base hb.rep
  obtain ⟨T, hT, hdenT⟩ := pointAdd_denotes hdenA hdenB
  refine ⟨S, T, hS, ?_, (beq_iff hdenS hdenT).mpr (map_add _ _ _)⟩
  intro build
  rw [hA build, Run.ok_bind, hB build, Run.ok_bind, hT build]

/-- Products modulo `n` are nested multiples. -/
theorem scalarMul_generator_modMul {a b : Int} (ha : Canon Secp256k1.n a) (hb : Canon Secp256k1.n b) :
    ∃ S T, (∀ build, scalarMul build (modMul a b Secp256k1.n) generator = .ok S) ∧
      (∀ build, (do scalarMul build a (← scalarMul build b generator)) = .ok T) ∧
      (S == T) = true := by
  obtain ⟨S, hS, hdenS⟩ := scalarMul_base (modMul_rep ha.rep hb.rep)
  obtain ⟨B, hB, hdenB⟩ := scalarMul_base hb.rep
  obtain ⟨T, hT, hdenT⟩ := scalarMul_multiple ha.rep hdenB
  refine ⟨S, T, hS, ?_, (beq_iff hdenS hdenT).mpr rfl⟩
  intro build
  rw [hB build, Run.ok_bind, hT build]

/-- **The generator represents the scalars modulo `n` faithfully.** -/
theorem generator_faithful :
    (∀ a b : Int, ∃ A B, (∀ build, scalarMul build a generator = .ok A) ∧
      (∀ build, scalarMul build b generator = .ok B) ∧
      ((A == B) = true ↔ a % Secp256k1.n = b % Secp256k1.n)) ∧
    (∀ a b : Int, Canon Secp256k1.n a → Canon Secp256k1.n b →
      ∃ S T, (∀ build, scalarMul build (modAdd a b Secp256k1.n) generator = .ok S) ∧
        (∀ build, (do pointAdd build (← scalarMul build a generator) (← scalarMul build b generator)) =
          .ok T) ∧ (S == T) = true) ∧
    (∀ a b : Int, Canon Secp256k1.n a → Canon Secp256k1.n b →
      ∃ S T, (∀ build, scalarMul build (modMul a b Secp256k1.n) generator = .ok S) ∧
        (∀ build, (do scalarMul build a (← scalarMul build b generator)) = .ok T) ∧
        (S == T) = true) ∧
    addOrderOf (toGroup generator) = Secp256k1.n.toNat ∧
    ∀ a : Int, ∃ A, (∀ build, scalarMul build a generator = .ok A) ∧
      (A.infinity = true ↔ Secp256k1.n ∣ a) :=
  ⟨scalarMul_generator_beq_iff, fun _ _ => scalarMul_generator_modAdd,
    fun _ _ => scalarMul_generator_modMul, addOrderOf_G, scalarMul_generator_infinity_iff⟩

end Tecdsa
