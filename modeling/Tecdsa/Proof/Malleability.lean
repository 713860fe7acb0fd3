import Tecdsa.Proof.Sign

/-!
# Which other `s` a signature verifies with

`normalize_low_s` keeps the signer to the lower half; `verify` does not ask for
it.  So of all the integers congruent to `s` or to `-s` the verifier accepts
two: the one `sign` returned and its twin `n - s`, the one in the upper half.

    b = verify Q msg r s',  b = false ↔ ¬ (n / 2 < s' < n)            (verify_mutated_iff)
-/

namespace Tecdsa

open Residue

/-- `s'` is `s` or `-s` modulo `n`, as another integer. -/
def MutationOf (s s' : Int) : Prop :=
  s' ≠ s ∧ (s' % Secp256k1.n = s % Secp256k1.n ∨ s' % Secp256k1.n = -s % Secp256k1.n)

/-- The only mutation of a low `s` that is in range is its twin. -/
theorem mutation_eq_twin {s s' : Int} (hs : 1 ≤ s ∧ s ≤ Secp256k1.n / 2) (h : MutationOf s s')
    (hs' : 1 ≤ s' ∧ s' < Secp256k1.n) : s' = Secp256k1.n - s := by
  obtain ⟨hne, hmod⟩ := h
  have hlt := low_lt_n hs.2
  have hsame : s % Secp256k1.n = s := Int.emod_eq_of_lt (by omega) hlt
  have hneg : -s % Secp256k1.n = Secp256k1.n - s := by
    rw [← Int.add_emod_right, Int.emod_eq_of_lt (by omega) (by omega)]
    omega
  rw [Int.emod_eq_of_lt (by omega) hs'.2, hsame, hneg] at hmod
  exact hmod.resolve_left hne

theorem upper_half_iff {s s' : Int} (hs : 1 ≤ s ∧ s ≤ Secp256k1.n / 2) (h : MutationOf s s') :
    (Secp256k1.n / 2 < s' ∧ s' < Secp256k1.n) ↔ s' = Secp256k1.n - s := by
  have hodd := n_odd
  constructor
  · rintro ⟨h1, h2⟩
    exact mutation_eq_twin hs h ⟨by omega, h2⟩
  · intro htwin
    omega

/-- The twin of a signature is explained by the negated nonce. -/
theorem signs_twin {δ ζ ρ : Fn} {s : Int} (h : secp.Signs δ ζ ρ (s : Fn)) :
    secp.Signs δ ζ ρ ((Secp256k1.n - s : Int) : Fn) := by
  rw [Int.cast_sub, cast_modulus n_pos.le, zero_sub]
  exact h.neg

/-- **A signature has one other form, its twin**: among the other integers
congruent to `s` or `-s`, `verify` rejects those that are not in the upper half,
and accepts the one that is. -/
theorem verify_mutated_iff {build : Build} {fuel : Nat} {d : Int} {msg : Octets} {sig : Signature}
    (hd : 1 ≤ d ∧ d < Secp256k1.n) (hsig : sign build fuel d msg = .ok sig) {s' : Int}
    (hs' : MutationOf sig.s s') :
    ∃ Q b, (∀ build, scalarMul build d generator = .ok Q) ∧
      (∀ build, verify build Q msg sig.r s' = .ok b) ∧
      (b = false ↔ ¬ (Secp256k1.n / 2 < s' ∧ s' < Secp256k1.n)) ∧
      (Secp256k1.n / 2 < s' ∧ s' < Secp256k1.n ↔ s' = Secp256k1.n - sig.s) := by
  obtain ⟨hr, hs, hsigns⟩ := sign_signs hd hsig
  obtain ⟨Q, hQ, hden⟩ := scalarMul_base (canon_of_range hd).rep
  have htwin := upper_half_iff hs hs'
  by_cases hupper : Secp256k1.n / 2 < s' ∧ s' < Secp256k1.n
  · refine ⟨Q, true, hQ, ?_, by simp [hupper], htwin⟩
    intro build
    refine verify_of_signs hden hr ⟨by have := n_odd; omega, hupper.2⟩ ?_ build
    rw [htwin.mp hupper]
    exact signs_twin hsigns
  · refine ⟨Q, false, hQ, ?_, by simp [hupper], htwin⟩
    intro build
    exact verify_out_of_range (fun h => hupper (htwin.mpr (mutation_eq_twin hs hs' h.2)))

theorem mutationOf_add_n (s : Int) : MutationOf s (s + Secp256k1.n) :=
  ⟨by have := n_pos; omega, Or.inl (Int.add_emod_right _ _)⟩

theorem verify_mutated_one : sign .release 1 1 [] = .ok signatureOne ∧
    MutationOf signatureOne.s (signatureOne.s + Secp256k1.n) ∧
    ∃ Q b, (∀ build, scalarMul build 1 generator = .ok Q) ∧
      (∀ build, verify build Q [] signatureOne.r (signatureOne.s + Secp256k1.n) = .ok b) ∧
      (b = false ↔ ¬ (Secp256k1.n / 2 < signatureOne.s + Secp256k1.n ∧
        signatureOne.s + Secp256k1.n < Secp256k1.n)) := by
  obtain ⟨Q, b, hQ, hb, hiff, -⟩ :=
    verify_mutated_iff (by decide) sign_one (mutationOf_add_n signatureOne.s)
  exact ⟨sign_one, mutationOf_add_n _, Q, b, hQ, hb, hiff⟩

/-- The key 1 and the empty message: the twin is another `s`, and accepted. -/
theorem verify_twin_one : sign .release 1 1 [] = .ok signatureOne ∧
    MutationOf signatureOne.s (Secp256k1.n - signatureOne.s) ∧
    ∃ Q, (∀ build, scalarMul build 1 generator = .ok Q) ∧
      ∀ build, verify build Q [] signatureOne.r (Secp256k1.n - signatureOne.s) = .ok true := by
  have hone : (1 : Int) ≤ 1 ∧ 1 < Secp256k1.n := by decide
  obtain ⟨hr, hs, hsigns⟩ := sign_signs hone sign_one
  obtain ⟨Q, hQ, hden⟩ := scalarMul_base (canon_of_range hone).rep
  refine ⟨sign_one, ⟨by decide, Or.inr (by decide)⟩, Q, hQ, ?_⟩
  intro build
  exact verify_of_signs hden hr (by decide) (signs_twin hsigns) build

end Tecdsa
