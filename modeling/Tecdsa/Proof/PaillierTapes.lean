import Tecdsa.Lib.Rejection
import Tecdsa.Proof.PaillierBijection

/-!
# Ciphertexts are uniform

`pick_r_coprime_to_N` is a rejection loop in a rejection loop, so the tapes on
which `encrypt` returns are known, and each encryption of a plaintext is made
by exactly one last draw:

    run_encrypt_iff, encrypt_uniform
-/

namespace Tecdsa.Paillier

open Residue

/-- The tapes on which a unit is picked. -/
theorem run_pickRCoprimeToN_iff {n r : Int} (hn : 1 < n) {tape rest : List Int} :
    (pickRCoprimeToN n).run tape = (.ok r, rest) ↔
      ∃ pre, tape = pre ++ r :: rest ∧ (∀ y ∈ pre, Canon n y ∧ Int.gcd y n ≠ 1) ∧
        Canon n r ∧ Int.gcd r n = 1 := by
  have hzero {y : Int} (hy : y = 0) : Int.gcd y n ≠ 1 := by
    rw [hy, Int.gcd_zero_left]
    omega
  unfold pickRCoprimeToN uniformNonzeroBelow mpzUrandomm
  rw [Draws.run_doWhile_doWhile_iff]
  simp only [Bool.and_eq_true, decide_eq_true_eq, beq_iff_eq, beq_eq_false_iff_ne, bne_iff_ne,
    bne_eq_false_iff_eq]
  constructor
  · rintro ⟨pre, rfl, hpre, hr, -, hgcd⟩
    exact ⟨pre, rfl, fun y hy => ⟨(hpre y hy).1, (hpre y hy).2.elim hzero id⟩, hr, hgcd⟩
  · rintro ⟨pre, rfl, hpre, hr, hgcd⟩
    exact ⟨pre, rfl, fun y hy => ⟨(hpre y hy).1, Or.inr (hpre y hy).2⟩, hr, fun h0 => hzero h0 hgcd, hgcd⟩

section
variable {primeBits : UInt32} {p q : ℕ} {kp : KeyPair}

/-- The tapes on which `encrypt` returns. -/
theorem KeyOf.run_encrypt_iff (h : PrimesOf primeBits p q) (hk : KeyOf p q kp) {m c : Int}
    {tape rest : List Int} : (encrypt m kp.pub).run tape = (.ok c, rest) ↔
      ∃ pre r, tape = pre ++ r :: rest ∧ (∀ y ∈ pre, Canon kp.pub.n y ∧ Int.gcd y kp.pub.n ≠ 1) ∧
        (m, r) ∈ Openings kp.pub ∧ c = ciphertext kp.pub m r := by
  have hn : 1 < kp.pub.n := by
    have := one_lt_mul_primes h.prime_p h.prime_q
    rw [hk.n]
    omega
  constructor
  · intro hrun
    obtain ⟨hm, -, -⟩ := hk.encrypts hrun
    obtain ⟨hm0, hmn⟩ := hm
    unfold encrypt at hrun
    rw [if_neg (by omega)] at hrun
    obtain ⟨r, mid, hr, hend⟩ := Draws.run_bind_eq_ok hrun
    cases hend
    obtain ⟨pre, rfl, hpre, hrn, hgcd⟩ := (run_pickRCoprimeToN_iff hn).mp hr
    exact ⟨pre, r, rfl, hpre, ⟨⟨hm0, hmn⟩, ⟨one_le_of_unit hn hrn hgcd, hrn.2⟩, hgcd⟩,
      hk.tmod_eq_ciphertext m r⟩
  · rintro ⟨pre, r, rfl, hpre, ⟨⟨hm0, hmn⟩, ⟨hr1, hrn⟩, hgcd⟩, rfl⟩
    have hpick : (pickRCoprimeToN kp.pub.n).run (pre ++ r :: rest) = (.ok r, rest) :=
      (run_pickRCoprimeToN_iff hn).mpr ⟨pre, rfl, hpre, ⟨by omega, hrn⟩, hgcd⟩
    unfold encrypt
    rw [if_neg (by omega), Draws.run_bind_of_ok hpick, ← hk.tmod_eq_ciphertext]
    rfl

end

/-- **Ciphertexts are uniform**, for every key `generate_keys` returns: `encrypt`
returns on the tapes that end with a unit, after draws that are none, and each
unit ciphertext of a plaintext is made by exactly one last draw. -/
theorem encrypt_uniform {mpzNextprime : Int → Int} (hprime : ∀ x, (mpzNextprime x).toNat.Prime)
    {primeBits : UInt32} {keyTape keyRest : List Int} {kp : KeyPair}
    (hkp : (generateKeys mpzNextprime primeBits).run keyTape = (.ok kp, keyRest)) :
    (∀ m tape rest c, (encrypt m kp.pub).run tape = (.ok c, rest) ↔
      ∃ pre r, tape = pre ++ r :: rest ∧ (∀ y ∈ pre, Canon kp.pub.n y ∧ Int.gcd y kp.pub.n ≠ 1) ∧
        (encrypt m kp.pub).run [r] = (.ok c, [])) ∧
    ∀ c ∈ UnitCiphertexts kp.pub, ∀ m, decrypt c kp.pub kp.priv = m →
      ∃! r, (encrypt m kp.pub).run [r] = (.ok c, []) := by
  obtain ⟨p, q, hpq, hk⟩ := generateKeys_returns hprime primeBits keyTape keyRest kp hkp
  obtain ⟨hbij, hdec⟩ := hk.ciphertext_bijOn hpq
  have hone (m r c : Int) : (encrypt m kp.pub).run [r] = (.ok c, []) ↔
      (m, r) ∈ Openings kp.pub ∧ c = ciphertext kp.pub m r := by
    rw [hk.run_encrypt_iff hpq]
    constructor
    · rintro ⟨pre, r', htape, -, hopen, hc⟩
      -- one draw leaves no place for another
      rcases List.singleton_eq_append_iff.mp htape with ⟨rfl, hr'⟩ | ⟨-, hnil⟩
      · cases hr'
        exact ⟨hopen, hc⟩
      · cases hnil
    · rintro ⟨hopen, hc⟩
      exact ⟨[], r, rfl, by simp, hopen, hc⟩
  refine ⟨?_, ?_⟩
  · intro m tape rest c
    simp only [hone]
    exact hk.run_encrypt_iff hpq
  · rintro c hc m rfl
    obtain ⟨⟨m', r⟩, hopen, rfl⟩ := hbij.surjOn hc
    have hm := hdec (m', r) hopen
    simp only [hone]
    refine ⟨r, ⟨hm ▸ hopen, by rw [hm]⟩, ?_⟩
    rintro r' ⟨hopen', heq⟩
    rw [hm] at hopen' heq
    exact (Prod.mk.inj (hbij.injOn hopen' hopen heq.symm)).2

/-- The unit 2 modulo 1225. -/
theorem encrypt_uniform_sample : ∃! r, (encrypt (decrypt 2 sampleKeys.pub sampleKeys.priv) sampleKeys.pub).run [r] =
    (.ok 2, []) :=
  (encrypt_uniform nextPrime_prime generateKeys_sample).2 2 ⟨by decide, by decide⟩ _ rfl

end Tecdsa.Paillier
