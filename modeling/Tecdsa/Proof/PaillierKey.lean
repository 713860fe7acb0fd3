import Tecdsa.Proof.Paillier

/-!
# The keys `generate_keys` makes

Nothing tests that `N` has no factor in common with `(p - 1) (q - 1)`.  It
follows from the sizes: a prime divisor `p` of `q - 1` makes `q` twice as long
as `p`, unless `q = p + 1`, and the primes 2 and 3 have a product of three bits.

    coprime_totient                gcd N ((p - 1) (q - 1)) = 1
    generateKeys_usable            every tape
-/

namespace Tecdsa.Paillier

open Residue SquareModulus

/-! ## Sizes -/

theorem bits_range {x : ℕ} {b : ℕ} (hx : x ≠ 0) (h : mpzSizeinbase2 x = b) :
    1 ≤ b ∧ 2 ^ (b - 1) ≤ x ∧ x < 2 ^ b := by
  unfold mpzSizeinbase2 at h
  rw [Int.natAbs_natCast] at h
  subst h
  refine ⟨by omega, ?_, Nat.lt_log2_self⟩
  rw [Nat.add_sub_cancel]
  exact Nat.log2_self_le hx

/-- A prime does not divide the predecessor of another of its size, 2 and 3
apart. -/
theorem not_dvd_pred {p q b : ℕ} (hp : p.Prime) (hq : q.Prime) (hlo : 2 ^ (b - 1) ≤ p)
    (hhi : q < 2 ^ b) (hb : 1 ≤ b) (h6 : p * q ≠ 6) : ¬ p ∣ q - 1 := by
  rintro ⟨k, hk⟩
  have hq2 := hq.two_le
  have hpow : 2 ^ b = 2 * 2 ^ (b - 1) := by rw [← pow_succ', Nat.sub_add_cancel hb]
  rcases Nat.lt_or_ge k 2 with hk2 | hk2
  · have hk1 : k = 1 := by
      rcases Nat.eq_zero_or_pos k with h0 | h0
      · rw [h0, Nat.mul_zero] at hk
        omega
      · omega
    -- `q` is the successor of `p`, so one of the two is even
    have hsucc : q = p + 1 := by
      rw [hk1, Nat.mul_one] at hk
      omega
    rcases hp.eq_two_or_odd with h2 | hodd
    · subst h2
      subst hsucc
      omega
    · have hqe : q = 2 := (hq.eq_two_or_odd).resolve_right (by omega)
      have := hp.two_le
      omega
  · have : p * 2 ≤ p * k := Nat.mul_le_mul_left p hk2
    omega

section
variable {primeBits : UInt32} {p q : ℕ}

theorem PrimesOf.pq_ne_six (h : PrimesOf primeBits p q) : p * q ≠ 6 := by
  intro h6
  have hn := h.bits_n
  rw [← Nat.cast_mul, h6] at hn
  have h3 : mpzSizeinbase2 ((6 : ℕ) : Int) = 3 := by decide
  omega

/-- No factor of `N` divides `(p - 1) (q - 1)`. -/
theorem PrimesOf.coprime_totient (h : PrimesOf primeBits p q) :
    Nat.Coprime (p * q) ((p - 1) * (q - 1)) := by
  obtain ⟨hb, hplo, hphi⟩ := bits_range h.prime_p.ne_zero h.bits_p
  obtain ⟨-, hqlo, hqhi⟩ := bits_range h.prime_q.ne_zero h.bits_q
  have hself {r : ℕ} (hr : r.Prime) : r.Coprime (r - 1) := by
    rw [hr.coprime_iff_not_dvd]
    intro hdvd
    have := Nat.le_of_dvd (by have := hr.two_le; omega) hdvd
    have := hr.two_le
    omega
  have hpq : p.Coprime (q - 1) := h.prime_p.coprime_iff_not_dvd.mpr
    (not_dvd_pred h.prime_p h.prime_q hplo hqhi hb h.pq_ne_six)
  have hqp : q.Coprime (p - 1) := h.prime_q.coprime_iff_not_dvd.mpr
    (not_dvd_pred h.prime_q h.prime_p hqlo hphi hb (by rw [Nat.mul_comm]; exact h.pq_ne_six))
  exact Nat.Coprime.mul_left ((hself h.prime_p).mul_right hpq) (hqp.mul_right (hself h.prime_q))

theorem PrimesOf.coprime_lcm (h : PrimesOf primeBits p q) :
    Nat.Coprime ((p - 1).lcm (q - 1)) (p * q) :=
  (h.coprime_totient.coprime_dvd_right (Nat.lcm_dvd_mul _ _)).symm

/-- The throw of `generate_keys` is not reached. -/
theorem PrimesOf.keysOfPrimes_returns (h : PrimesOf primeBits p q) :
    ∃ kp, keysOfPrimes p q = .ok kp ∧ KeyOf p q kp := by
  have hN := one_lt_mul_primes h.prime_p h.prime_q
  have hgcd : Int.gcd ((p - 1).lcm (q - 1) : ℕ) (p * q : ℕ) = 1 := by
    rw [Int.gcd_natCast_natCast]
    exact h.coprime_lcm
  obtain ⟨mu, hmu, -⟩ := mpzInvert_rep (by omega) hgcd
  have hok : ∃ kp, keysOfPrimes p q = .ok kp := by
    rw [keysOfPrimes_eq h.prime_p h.prime_q, hmu]
    exact ⟨_, rfl⟩
  obtain ⟨kp, hkp⟩ := hok
  exact ⟨kp, hkp, keysOfPrimes_eq_ok h.prime_p h.prime_q hkp⟩

end

/-! ## Usable keys -/

/-- What a user of the key relies on. -/
structure Usable (primeBits : UInt32) (p q : Int) (kp : KeyPair) : Prop where
  prime_p : p.toNat.Prime
  prime_q : q.toNat.Prime
  ne : p ≠ q
  bits_p : 2 ^ (primeBits.toNat - 1) ≤ p ∧ p < 2 ^ primeBits.toNat
  bits_q : 2 ^ (primeBits.toNat - 1) ≤ q ∧ q < 2 ^ primeBits.toNat
  n : kp.pub.n = p * q
  g : kp.pub.g = kp.pub.n + 1
  n2 : kp.pub.n2 = kp.pub.n * kp.pub.n
  bits_n : 2 ^ (2 * primeBits.toNat - 1) ≤ kp.pub.n ∧ kp.pub.n < 2 ^ (2 * primeBits.toNat)
  coprime : Int.gcd kp.pub.n ((p - 1) * (q - 1)) = 1
  lambda : kp.priv.lambda = Int.lcm (p - 1) (q - 1)
  exact : kp.pub.n ∣ mpzPowm kp.pub.g kp.priv.lambda kp.pub.n2 - 1
  L_eq : L (mpzPowm kp.pub.g kp.priv.lambda kp.pub.n2) kp.pub.n = kp.priv.lambda
  mu_lambda : kp.priv.mu * kp.priv.lambda % kp.pub.n = 1

theorem usable_of_primes {primeBits : UInt32} {p q : ℕ} {kp : KeyPair} (h : PrimesOf primeBits p q)
    (hk : KeyOf p q kp) : Usable primeBits p q kp := by
  have hN := one_lt_mul_primes h.prime_p h.prime_q
  have bits {x b : ℕ} (hx : x ≠ 0) (hb : mpzSizeinbase2 x = b) :
      2 ^ (b - 1) ≤ (x : Int) ∧ (x : Int) < 2 ^ b := by
    obtain ⟨-, hlo, hhi⟩ := bits_range hx hb
    exact ⟨by exact_mod_cast hlo, by exact_mod_cast hhi⟩
  have hpow := one_add_pow_modEq (p * q) ((p - 1).lcm (q - 1))
  refine {
    prime_p := h.prime_p
    prime_q := h.prime_q
    ne := by exact_mod_cast h.ne
    bits_p := bits h.prime_p.ne_zero h.bits_p
    bits_q := bits h.prime_q.ne_zero h.bits_q
    n := by rw [hk.n, Nat.cast_mul]
    g := by rw [hk.g, hk.n, add_comm]
    n2 := by rw [hk.n2, hk.n, sq]
    bits_n := by rw [hk.n]; exact bits (by omega) (by rw [Nat.cast_mul]; exact h.bits_n)
    coprime := ?_
    lambda := ?_
    exact := ?_
    L_eq := by rw [hk.n2, hk.n, hk.g, hk.lambda]; exact L_lambda h.prime_p h.prime_q
    mu_lambda := ?_ }
  · rw [natCast_pred h.prime_p, natCast_pred h.prime_q, hk.n, ← Nat.cast_mul, Int.gcd_natCast_natCast]
    exact h.coprime_totient
  · rw [natCast_pred h.prime_p, natCast_pred h.prime_q, Int.lcm_natCast_natCast, hk.lambda]
  · rw [hk.n2, hk.n, hk.g, hk.lambda, mpzPowm, Int.toNat_natCast, (log_spec hN hpow).1,
      add_sub_cancel_left]
    exact Dvd.intro_left _ rfl
  · have hone := hk.lambda_mu
    rw [← hk.lambda, ← hk.n] at hone
    have h1 : (1 : Int) % kp.pub.n = 1 := Int.emod_eq_of_lt (by omega) (by rw [hk.n]; omega)
    rw [mul_comm, hone.eq, h1]

/-- **Key generation yields a usable key**, on every tape on which its sampling
loops finish; on no tape does it throw. -/
theorem generateKeys_usable {mpzNextprime : Int → Int}
    (hprime : ∀ x, (mpzNextprime x).toNat.Prime) (primeBits : UInt32) (tape : List Int) :
    (∃ rest, (genPrimes mpzNextprime primeBits).run tape = (.error .exhausted, rest) ∧
      (generateKeys mpzNextprime primeBits).run tape = (.error .exhausted, rest)) ∨
    ∃ p q kp rest, (genPrimes mpzNextprime primeBits).run tape = (.ok (p, q), rest) ∧
      (generateKeys mpzNextprime primeBits).run tape = (.ok kp, rest) ∧ Usable primeBits p q kp := by
  rcases genPrimes_yields hprime primeBits tape with ⟨_, rest, hrun, p, q, rfl, hpq⟩ | ⟨rest, hrun⟩
  · obtain ⟨kp, hkp, hk⟩ := hpq.keysOfPrimes_returns
    refine Or.inr ⟨p, q, kp, rest, hrun, ?_, usable_of_primes hpq hk⟩
    unfold generateKeys
    rw [Draws.run_bind_of_ok hrun]
    simp only [hkp]
    rfl
  · exact Or.inl ⟨rest, hrun, Draws.run_bind_of_error hrun⟩

theorem generateKeys_usable_sample : ∃ p q, Usable 3 p q sampleKeys := by
  rcases generateKeys_usable nextPrime_prime 3 [1, 0] with ⟨rest, -, hrun⟩ | ⟨p, q, kp, rest, -, hrun, h⟩
  · rw [generateKeys_sample] at hrun
    cases hrun
  · rw [generateKeys_sample] at hrun
    cases hrun
    exact ⟨p, q, h⟩

end Tecdsa.Paillier
