import Mathlib.Data.Set.Function
import Tecdsa.Proof.PaillierKey

/-!
# Encryption is a bijection onto the unit ciphertexts

`(m, r) ↦ g^m r^N mod N²` maps the plaintexts and the units modulo `N` onto
the units modulo `N²`.  Its inverse is `decrypt` beside a power that takes
`N`-th roots, so `decrypt` is right on every unit, however it was made.

    ciphertext_bijOn               the map and its inverse
    encrypt_bijective              every key `generate_keys` returns
-/

namespace Tecdsa.Paillier

open Residue SquareModulus

/-- Plaintexts with randomness. -/
def Openings (pk : PublicKey) : Set (Int × Int) :=
  {x | Canon pk.n x.1 ∧ (1 ≤ x.2 ∧ x.2 < pk.n) ∧ Int.gcd x.2 pk.n = 1}

/-- The unit ciphertexts. -/
def UnitCiphertexts (pk : PublicKey) : Set Int := {c | (1 ≤ c ∧ c < pk.n2) ∧ Int.gcd c pk.n = 1}

/-- A canonical unit is not zero. -/
theorem one_le_of_unit {m n c : Int} (hn : 1 < n) (hc : Canon m c) (h : Int.gcd c n = 1) : 1 ≤ c := by
  obtain ⟨h0, -⟩ := hc
  by_cases hz : c = 0
  · rw [hz, Int.gcd_zero_left] at h
    omega
  · omega

/-- `N` has an inverse modulo `lambda`. -/
theorem exists_root_exponent {N lam : ℕ} (h : Nat.Coprime lam N) (hlam : 1 < lam) :
    ∃ e t, N * e = 1 + lam * t := by
  obtain ⟨e, -, he⟩ := Nat.exists_mul_mod_eq_one_of_coprime h.symm hlam
  refine ⟨e, N * e / lam, ?_⟩
  have hdiv := Nat.mod_add_div (N * e) lam
  omega

theorem one_lt_lcm_pred {p q : ℕ} (hp : p.Prime) (hq : q.Prime) (hne : p ≠ q) :
    1 < (p - 1).lcm (q - 1) := by
  have hp2 := hp.two_le
  have hq2 := hq.two_le
  have hpos : 0 < (p - 1).lcm (q - 1) := Nat.lcm_pos (by omega) (by omega)
  have hple := Nat.le_of_dvd hpos (Nat.dvd_lcm_left (p - 1) (q - 1))
  have hqle := Nat.le_of_dvd hpos (Nat.dvd_lcm_right (p - 1) (q - 1))
  omega

section
variable {primeBits : UInt32} {p q : ℕ} {kp : KeyPair}

/-- `decrypt` on a unit, as the abstract decryption. -/
theorem KeyOf.decrypt_unit (h : PrimesOf primeBits p q) (hk : KeyOf p q kp) {c : Int} {e t : ℕ}
    (he : p * q * e = 1 + (p - 1).lcm (q - 1) * t) (hc : IsCoprime c (p * q : ℕ)) :
    Canon kp.pub.n (decrypt c kp.pub kp.priv) ∧
      c ≡ (1 + (p * q : ℕ)) ^ (decrypt c kp.pub kp.priv).toNat * (c ^ e) ^ (p * q)
        [ZMOD ((p * q : ℕ) : Int) ^ 2] := by
  have hN := one_lt_mul_primes h.prime_p h.prime_q
  have hroot := encrypts_root hN (kills_lcm h.prime_p h.prime_q h.ne) hk.lambda_mu he hc
  have hcanon : Canon kp.pub.n (dec (p * q) ((p - 1).lcm (q - 1)) kp.priv.mu c) := by
    rw [hk.n]
    exact canon_emod (by omega) _
  have hdec : decrypt c kp.pub kp.priv = dec (p * q) ((p - 1).lcm (q - 1)) kp.priv.mu c := by
    rw [hk.decrypt_eq h.prime_p h.prime_q h.ne ⟨c ^ e, hc.pow_left, hroot⟩,
      Int.toNat_of_nonneg hcanon.1, hcanon.emod_eq]
  rw [hdec]
  exact ⟨hcanon, hroot⟩

/-- **Encryption and decryption are inverse bijections.** -/
theorem KeyOf.ciphertext_bijOn (h : PrimesOf primeBits p q) (hk : KeyOf p q kp) :
    Set.BijOn (fun x : Int × Int => ciphertext kp.pub x.1 x.2) (Openings kp.pub) (UnitCiphertexts kp.pub) ∧
      ∀ x ∈ Openings kp.pub, decrypt (ciphertext kp.pub x.1 x.2) kp.pub kp.priv = x.1 := by
  have hN := one_lt_mul_primes h.prime_p h.prime_q
  have hn : 1 < kp.pub.n := by
    rw [hk.n]
    omega
  have hkills := kills_lcm h.prime_p h.prime_q h.ne
  obtain ⟨e, t, he⟩ :=
    exists_root_exponent h.coprime_lcm (one_lt_lcm_pred h.prime_p h.prime_q h.ne)
  have cop {x : Int} : Int.gcd x kp.pub.n = 1 ↔ IsCoprime x (p * q : ℕ) := by
    rw [hk.n, Int.isCoprime_iff_gcd_eq_one]
  have hred (c : Int) : c ^ e % kp.pub.n ≡ c ^ e [ZMOD (p * q : ℕ)] := by
    rw [← hk.n]
    exact Int.mod_modEq _ _
  have hdec : ∀ x ∈ Openings kp.pub,
      decrypt (ciphertext kp.pub x.1 x.2) kp.pub kp.priv = x.1 := by
    rintro ⟨m, r⟩ ⟨hm, hr, hgcd⟩
    rw [hk.decrypt_eq h.prime_p h.prime_q h.ne ⟨r, cop.mp hgcd, hk.ciphertext_modEq m r⟩,
      Int.toNat_of_nonneg hm.1, hm.emod_eq]
  refine ⟨Set.InvOn.bijOn (show Set.InvOn (fun c => (decrypt c kp.pub kp.priv, c ^ e % kp.pub.n))
    _ _ _ from ⟨?_, ?_⟩) ?_ ?_, hdec⟩
  · -- the randomness is recovered
    rintro ⟨m, r⟩ hx
    obtain ⟨hm, hr, hgcd⟩ := hx
    have hroot := root_modEq hkills he (cop.mp hgcd) (hk.ciphertext_modEq m r)
    rw [← hk.n] at hroot
    exact Prod.ext (hdec (m, r) ⟨hm, hr, hgcd⟩)
      (hroot.eq.trans (Int.emod_eq_of_lt (by omega) hr.2))
  · -- a unit is encrypted again
    rintro c ⟨⟨h1, h2⟩, hgcd⟩
    obtain ⟨hcanon, hroot⟩ := hk.decrypt_unit h he (cop.mp hgcd)
    have hmod := (hk.ciphertext_modEq (decrypt c kp.pub kp.priv) (c ^ e % kp.pub.n)).trans
      (((pow_self_modEq (hred c)).mul_left _).trans hroot.symm)
    rw [← hk.n2] at hmod
    have hlow : Canon kp.pub.n2 c := ⟨by omega, h2⟩
    exact (hk.ciphertext_canon _ _).emod_eq.symm.trans (hmod.eq.trans hlow.emod_eq)
  · rintro ⟨m, r⟩ ⟨hm, hr, hgcd⟩
    have hcop : Int.gcd (ciphertext kp.pub m r) kp.pub.n = 1 :=
      cop.mpr (Encrypts.isCoprime ⟨r, cop.mp hgcd, hk.ciphertext_modEq m r⟩)
    exact ⟨⟨one_le_of_unit hn (hk.ciphertext_canon m r) hcop, (hk.ciphertext_canon m r).2⟩, hcop⟩
  · rintro c ⟨-, hgcd⟩
    have hcop : Int.gcd (c ^ e % kp.pub.n) kp.pub.n = 1 := by
      exact cop.mpr (isCoprime_of_modEq (hred c) (cop.mp hgcd).pow_left)
    have hcanon := canon_emod hk.n_pos (c ^ e)
    exact ⟨(hk.decrypt_unit h he (cop.mp hgcd)).1,
      ⟨one_le_of_unit hn hcanon hcop, hcanon.2⟩, hcop⟩

end

/-- **Encryption is a bijection onto the units, inverted by `decrypt`**, for
every key `generate_keys` returns: the plaintext of a unit is the one `decrypt`
returns and no other. -/
theorem encrypt_bijective {mpzNextprime : Int → Int} (hprime : ∀ x, (mpzNextprime x).toNat.Prime)
    {primeBits : UInt32} {tape rest : List Int} {kp : KeyPair}
    (hkp : (generateKeys mpzNextprime primeBits).run tape = (.ok kp, rest)) :
    (∀ m r : Int, (m, r) ∈ Openings kp.pub → ∀ rest,
      (encrypt m kp.pub).run (r :: rest) = (.ok (ciphertext kp.pub m r), rest)) ∧
    Set.BijOn (fun x : Int × Int => ciphertext kp.pub x.1 x.2) (Openings kp.pub) (UnitCiphertexts kp.pub) ∧
    ∀ c ∈ UnitCiphertexts kp.pub, ∀ m : Int,
      (∃ r, (m, r) ∈ Openings kp.pub ∧ ciphertext kp.pub m r = c) ↔
        m = decrypt c kp.pub kp.priv := by
  obtain ⟨p, q, hpq, hk⟩ := generateKeys_returns hprime primeBits tape rest kp hkp
  obtain ⟨hbij, hdec⟩ := hk.ciphertext_bijOn hpq
  refine ⟨?_, hbij, ?_⟩
  · rintro m r ⟨hm, hr, hgcd⟩ rest
    rw [run_encrypt hm hr.1 hr.2 hgcd, hk.tmod_eq_ciphertext]
  · intro c hc m
    constructor
    · rintro ⟨r, hr, rfl⟩
      exact (hdec (m, r) hr).symm
    · intro hm
      obtain ⟨⟨m', r⟩, hx, rfl⟩ := hbij.surjOn hc
      have hm' : m = m' := hm.trans (hdec (m', r) hx)
      exact ⟨r, hm' ▸ hx, hm' ▸ rfl⟩

/-- The unit 2 modulo 1225, which no run made. -/
theorem encrypt_bijective_sample : ∃ r, (decrypt 2 sampleKeys.pub sampleKeys.priv, r) ∈
    Openings sampleKeys.pub ∧
      ciphertext sampleKeys.pub (decrypt 2 sampleKeys.pub sampleKeys.priv) r = 2 :=
  ((encrypt_bijective nextPrime_prime generateKeys_sample).2.2 2 ⟨by decide, by decide⟩ _).mpr rfl

end Tecdsa.Paillier
