import Mathlib.Algebra.BigOperators.ModEq
import Mathlib.Data.Nat.Prime.Infinite
import Tecdsa.Code.Paillier
import Tecdsa.Lib.SquareModulus

/-!
# Paillier keys and ciphertexts

What `generate_keys` returns is made from two distinct primes (`KeyOf`), what
`encrypt` returns is a ciphertext modulo `N²`, and `decrypt` is decryption.

    generateKeys_returns, encrypt_returns     every run that returns
    decrypt_linear                            the plaintexts of a product of powers
-/

namespace Tecdsa.Paillier

open Residue SquareModulus

/-! ## GMP -/

theorem mpzInvert_eq_some {a m r : Int} (hm : 0 < m) (h : mpzInvert a m = some r) :
    Canon m r ∧ a * r ≡ 1 [ZMOD m] := by
  have hg : Int.gcd a m = 1 := by
    by_contra hg
    rw [mpzInvert_eq_none hg] at h
    cases h
  obtain ⟨r', hr', hcanon, hone⟩ := mpzInvert_rep hm hg
  rw [h] at hr'
  cases hr'
  refine ⟨hcanon, ?_⟩
  rw [← Int.cast_mul, ← Int.cast_one, cast_eq_cast_iff hm.le] at hone
  exact hone

/-! ## Keys -/

/-- The primes of a run of `generate_keys`. -/
structure PrimesOf (primeBits : UInt32) (p q : ℕ) : Prop where
  prime_p : p.Prime
  prime_q : q.Prime
  ne : p ≠ q
  bits_p : mpzSizeinbase2 p = primeBits.toNat
  bits_q : mpzSizeinbase2 q = primeBits.toNat
  bits_n : mpzSizeinbase2 (p * q) = 2 * primeBits.toNat

/-- The key pair made from `p` and `q`. -/
structure KeyOf (p q : ℕ) (kp : KeyPair) : Prop where
  n : kp.pub.n = (p * q : ℕ)
  g : kp.pub.g = 1 + (p * q : ℕ)
  n2 : kp.pub.n2 = ((p * q : ℕ) : Int) ^ 2
  lambda : kp.priv.lambda = ((p - 1).lcm (q - 1) : ℕ)
  mu : Canon (p * q : ℕ) kp.priv.mu
  lambda_mu : ((p - 1).lcm (q - 1) : ℕ) * kp.priv.mu ≡ 1 [ZMOD (p * q : ℕ)]

theorem one_lt_mul_primes {p q : ℕ} (hp : p.Prime) (hq : q.Prime) : 1 < p * q :=
  Nat.one_lt_mul_iff.mpr ⟨hp.pos, hq.pos, Or.inl hp.one_lt⟩

theorem natCast_pred {p : ℕ} (hp : p.Prime) : ((p : Int) - 1) = (p - 1 : ℕ) := by
  rw [Nat.cast_sub hp.one_lt.le, Nat.cast_one]

/-- `L` is the logarithm of what `mpz_powm` returns. -/
theorem L_mpzPowm (N : ℕ) (hN : 1 < N) {a x : Int} {e : ℕ}
    (h : a ^ e ≡ 1 + x * N [ZMOD (N : Int) ^ 2]) :
    L (mpzPowm a e ((N : Int) ^ 2)) N = log N (a ^ e) := by
  obtain ⟨hu, -⟩ := log_spec hN h
  have hN0 : (N : Int) ≠ 0 := by omega
  rw [L, mpzPowm, Int.toNat_natCast, hu, add_sub_cancel_left, Int.mul_tdiv_cancel _ hN0]

theorem lcm_pred_lt {p q : ℕ} (hp : p.Prime) (hq : q.Prime) : (p - 1).lcm (q - 1) < p * q := by
  have hp1 := hp.one_lt
  have hq1 := hq.one_lt
  calc (p - 1).lcm (q - 1) ≤ (p - 1) * (q - 1) :=
        Nat.le_of_dvd (Nat.mul_pos (by omega) (by omega)) (Nat.lcm_dvd_mul _ _)
    _ < p * q := Nat.mul_lt_mul'' (by omega) (by omega)

/-- `lambda` is the logarithm of its own power of `g`. -/
theorem L_lambda {p q : ℕ} (hp : p.Prime) (hq : q.Prime) :
    L (mpzPowm (1 + (p * q : ℕ)) ((p - 1).lcm (q - 1) : ℕ) (((p * q : ℕ) : Int) ^ 2)) (p * q : ℕ) =
      ((p - 1).lcm (q - 1) : ℕ) := by
  have hN := one_lt_mul_primes hp hq
  have hpow := one_add_pow_modEq (p * q) ((p - 1).lcm (q - 1))
  have hlt := lcm_pred_lt hp hq
  rw [L_mpzPowm _ hN hpow, (log_spec hN hpow).2]
  exact Int.emod_eq_of_lt (Int.natCast_nonneg _) (by omega)

/-- What is left of `generate_keys` after its primes is one inversion. -/
theorem keysOfPrimes_eq {p q : ℕ} (hp : p.Prime) (hq : q.Prime) :
    keysOfPrimes p q = (mpzInvert ((p - 1).lcm (q - 1) : ℕ) (p * q : ℕ)).elim
      (.error (.thrown "paillier: mu inversion failed"))
      (fun mu => .ok ⟨⟨(p * q : ℕ), 1 + (p * q : ℕ), ((p * q : ℕ) : Int) ^ 2⟩,
        ⟨((p - 1).lcm (q - 1) : ℕ), mu⟩⟩) := by
  have hlam : (((p : Int) - 1) * (q - 1)).tdiv (Int.gcd (p - 1) (q - 1)) =
      ((p - 1).lcm (q - 1) : ℕ) := by
    rw [natCast_pred hp, natCast_pred hq, Int.gcd_natCast_natCast, ← Nat.cast_mul, ← Int.ofNat_tdiv]
    rfl
  have hn2 : ((p : Int) * q) * (p * q) = ((p * q : ℕ) : Int) ^ 2 := by rw [sq, Nat.cast_mul]
  have hg : (p : Int) * q + 1 = 1 + (p * q : ℕ) := by rw [Nat.cast_mul, add_comm]
  unfold keysOfPrimes
  simp only [hlam, hn2, hg]
  rw [← Nat.cast_mul, L_lambda hp hq]
  cases mpzInvert ((p - 1).lcm (q - 1) : ℕ) (p * q : ℕ) <;> rfl

theorem keysOfPrimes_eq_ok {p q : ℕ} (hp : p.Prime) (hq : q.Prime) {kp : KeyPair}
    (h : keysOfPrimes p q = .ok kp) : KeyOf p q kp := by
  have hN := one_lt_mul_primes hp hq
  rw [keysOfPrimes_eq hp hq] at h
  cases hmu : mpzInvert ((p - 1).lcm (q - 1) : ℕ) (p * q : ℕ) with
  | none =>
    rw [hmu] at h
    cases h
  | some mu =>
    rw [hmu] at h
    cases h
    obtain ⟨hcanon, hinv⟩ := mpzInvert_eq_some (by omega) hmu
    exact ⟨rfl, rfl, rfl, rfl, hcanon, hinv⟩

section
variable {mpzNextprime : Int → Int} (hprime : ∀ x, (mpzNextprime x).toNat.Prime)
include hprime

theorem genPrime_yields (primeBits : UInt32) :
    Draws.Yields (genPrime mpzNextprime primeBits)
      (fun x => ∃ p : ℕ, x = p ∧ p.Prime ∧ mpzSizeinbase2 p = primeBits.toNat) .exhausted := by
  have hbody : Draws.Yields (do
      let out ← mpzUrandomb primeBits.toNat
      let out := mpzSetbit out (primeBits - 1).toNat
      return mpzNextprime out) (fun x => ∃ p : ℕ, x = p ∧ p.Prime) .exhausted := by
    refine (Draws.Yields.draw _ _).bind ?_
    intro out _
    have hp := hprime (mpzSetbit out (primeBits - 1).toNat)
    have hpos := hp.pos
    exact Draws.Yields.pure ⟨_, by omega, hp⟩ _
  refine (Draws.Yields.doWhile hbody).mono ?_
  rintro _ ⟨⟨p, rfl, hp⟩, hbits⟩
  exact ⟨p, rfl, hp, by simpa using hbits⟩

/-- The loops that sample the primes end with two primes, or with the tape. -/
theorem genPrimes_yields (primeBits : UInt32) :
    Draws.Yields (genPrimes mpzNextprime primeBits)
      (fun x => ∃ p q : ℕ, x = (↑p, ↑q) ∧ PrimesOf primeBits p q) .exhausted := by
  have hp := genPrime_yields hprime primeBits
  have hbody : Draws.Yields (do
      let p ← genPrime mpzNextprime primeBits
      let q ← Draws.doWhile .exhausted (genPrime mpzNextprime primeBits) fun q => q == p
      return (p, q))
      (fun x => ∃ p q : ℕ, x = (↑p, ↑q) ∧ p ≠ q ∧ (p.Prime ∧ mpzSizeinbase2 p = primeBits.toNat) ∧
        (q.Prime ∧ mpzSizeinbase2 q = primeBits.toNat)) .exhausted := by
    refine hp.bind ?_
    rintro _ ⟨p, rfl, hp'⟩
    refine (Draws.Yields.doWhile hp).bind ?_
    rintro _ ⟨⟨q, rfl, hq'⟩, hne⟩
    refine Draws.Yields.pure ⟨p, q, rfl, ?_, hp', hq'⟩ _
    rintro rfl
    simp at hne
  refine (Draws.Yields.doWhile hbody).mono ?_
  rintro _ ⟨⟨p, q, rfl, hne, ⟨hp, hbp⟩, hq, hbq⟩, hbits⟩
  exact ⟨p, q, rfl, hp, hq, hne, hbp, hbq, by simpa using hbits⟩

/-- A key pair returned is made from two distinct primes of the size asked for. -/
theorem generateKeys_returns (primeBits : UInt32) :
    Draws.Returns (generateKeys mpzNextprime primeBits)
      (fun kp => ∃ p q, PrimesOf primeBits p q ∧ KeyOf p q kp) := by
  refine (genPrimes_yields hprime primeBits).returns.bind ?_
  rintro _ ⟨p, q, rfl, hpq⟩
  exact Draws.Returns.lift fun kp hkp => ⟨p, q, hpq, keysOfPrimes_eq_ok hpq.prime_p hpq.prime_q hkp⟩

end

/-! ## Ciphertexts -/

/-- A ciphertext returned was made with a draw coprime to `n`. -/
theorem encrypt_returns (m : Int) (pk : PublicKey) :
    Draws.Returns (encrypt m pk) (fun c => Canon pk.n m ∧ ∃ r : Int, Int.gcd r pk.n = 1 ∧
      c = (mpzPowm pk.g m pk.n2 * mpzPowm r pk.n pk.n2).tmod pk.n2) := by
  unfold encrypt
  split
  · exact Draws.Returns.throw _ _
  · next hrange =>
    have hm : Canon pk.n m := by
      unfold Canon
      omega
    have hr : Draws.Returns (pickRCoprimeToN pk.n) (fun r => Int.gcd r pk.n = 1) := by
      intro tape rest r h
      have hgcd := (Draws.Returns.doWhile (P := fun _ => True) fun _ _ _ _ => trivial) tape rest r h
      simpa using hgcd.2
    exact hr.bind fun r hgcd => Draws.Returns.pure ⟨hm, r, hgcd, rfl⟩

/-- In range, and with the first draw a unit, `encrypt` returns. -/
theorem run_encrypt {m r : Int} {pk : PublicKey} (hm : Canon pk.n m) (hr0 : 1 ≤ r)
    (hr : r < pk.n) (hgcd : Int.gcd r pk.n = 1) (rest : List Int) :
    (encrypt m pk).run (r :: rest) =
      (.ok ((mpzPowm pk.g m pk.n2 * mpzPowm r pk.n pk.n2).tmod pk.n2), rest) := by
  have hdraw : (mpzUrandomm pk.n).run (r :: rest) = (.ok r, rest) :=
    Draws.run_draw_cons (by simpa using ⟨by omega, hr⟩) rest
  have hnonzero : (uniformNonzeroBelow pk.n).run (r :: rest) = (.ok r, rest) :=
    Draws.run_doWhile_of_done hdraw (by simpa using (by omega : r ≠ 0))
  have hpick : (pickRCoprimeToN pk.n).run (r :: rest) = (.ok r, rest) :=
    Draws.run_doWhile_of_done hnonzero (by simp [hgcd])
  unfold encrypt
  rw [if_neg (by have := hm.1; have := hm.2; omega), Draws.run_bind_of_ok hpick]
  rfl

section
variable {p q : ℕ} {kp : KeyPair}

theorem KeyOf.n_pos (hk : KeyOf p q kp) : 0 < kp.pub.n := hk.n ▸ hk.mu.pos

theorem KeyOf.mpzPowm_modEq (hk : KeyOf p q kp) (a e : Int) :
    mpzPowm a e kp.pub.n2 ≡ a ^ e.toNat [ZMOD ((p * q : ℕ) : Int) ^ 2] := by
  unfold mpzPowm
  rw [hk.n2]
  exact Int.mod_modEq _ _

theorem KeyOf.mpzPowm_nonneg (hk : KeyOf p q kp) (a e : Int) : 0 ≤ mpzPowm a e kp.pub.n2 := by
  have hn := hk.n_pos
  rw [hk.n] at hn
  exact Int.emod_nonneg _ (by rw [hk.n2]; positivity)

/-- `g^m r^N mod N²` -/
def ciphertext (pk : PublicKey) (m r : Int) : Int := pk.g ^ m.toNat * r ^ pk.n.toNat % pk.n2

theorem KeyOf.n2_pos (hk : KeyOf p q kp) : 0 < kp.pub.n2 := by
  have hn := hk.n_pos
  rw [hk.n2, ← hk.n]
  positivity

/-- What `encrypt` computes from its two powers. -/
theorem KeyOf.tmod_eq_ciphertext (hk : KeyOf p q kp) (m r : Int) :
    (mpzPowm kp.pub.g m kp.pub.n2 * mpzPowm r kp.pub.n kp.pub.n2).tmod kp.pub.n2 =
      ciphertext kp.pub m r := by
  rw [Int.tmod_eq_emod_of_nonneg (mul_nonneg (hk.mpzPowm_nonneg _ _) (hk.mpzPowm_nonneg _ _))]
  unfold mpzPowm ciphertext
  rw [← Int.mul_emod]

theorem KeyOf.ciphertext_canon (hk : KeyOf p q kp) (m r : Int) :
    Canon kp.pub.n2 (ciphertext kp.pub m r) := canon_emod hk.n2_pos _

theorem KeyOf.ciphertext_modEq (hk : KeyOf p q kp) (m r : Int) : ciphertext kp.pub m r ≡
    (1 + (p * q : ℕ)) ^ m.toNat * r ^ (p * q) [ZMOD ((p * q : ℕ) : Int) ^ 2] := by
  unfold ciphertext
  rw [hk.n2, hk.g, hk.n, Int.toNat_natCast]
  exact Int.mod_modEq _ _

/-- `encrypt` returns a ciphertext, reduced. -/
theorem KeyOf.encrypts (hk : KeyOf p q kp) {m c : Int} {tape rest : List Int}
    (h : (encrypt m kp.pub).run tape = (.ok c, rest)) :
    Canon kp.pub.n m ∧ Encrypts (p * q) c m.toNat ∧ Canon kp.pub.n2 c := by
  obtain ⟨hm, r, hgcd, hc⟩ := encrypt_returns m kp.pub tape rest c h
  rw [hk.tmod_eq_ciphertext] at hc
  subst hc
  refine ⟨hm, ⟨r, ?_, hk.ciphertext_modEq m r⟩, hk.ciphertext_canon m r⟩
  rw [Int.isCoprime_iff_gcd_eq_one, ← hk.n]
  exact hgcd

/-- `decrypt` is decryption with the exponent `lambda`. -/
theorem KeyOf.decrypt_eq (hp : p.Prime) (hq : q.Prime) (hne : p ≠ q) (hk : KeyOf p q kp)
    {c : Int} {m : ℕ} (h : Encrypts (p * q) c m) :
    decrypt c kp.pub kp.priv = m % kp.pub.n := by
  have hN := one_lt_mul_primes hp hq
  have hkills := kills_lcm hp hq hne
  have hpow := h.pow_kills hkills
  have hlog : 0 ≤ log (p * q) (c ^ (p - 1).lcm (q - 1)) := by
    rw [(log_spec hN hpow).2]
    exact Int.emod_nonneg _ (by omega)
  rw [decrypt, hk.lambda, hk.n2, hk.n, L_mpzPowm _ hN hpow,
    Int.tmod_eq_emod_of_nonneg (mul_nonneg hlog hk.mu.1)]
  exact dec_eq hN hkills hk.lambda_mu h

/-- A plaintext, a coefficient and a ciphertext. -/
structure Term where
  m : Int
  k : Int
  c : Int

/-- `encrypt` returned `c` for `m`, on some draws. -/
def Term.Encrypted (pk : PublicKey) (t : Term) : Prop :=
  ∃ tape rest, (encrypt t.m pk).run tape = (.ok t.c, rest)

/-- The product of the powers `c^k` modulo `N²`. -/
def combine (pk : PublicKey) (terms : List Term) : Int :=
  (terms.map fun t => mpzPowm t.c t.k pk.n2).prod % pk.n2

/-- A combination is a ciphertext of the linear combination. -/
theorem KeyOf.combine_encrypts (hk : KeyOf p q kp) {terms : List Term}
    (h : ∀ t ∈ terms, t.Encrypted kp.pub) :
    Encrypts (p * q) (combine kp.pub terms) (terms.map fun t => t.k.toNat * t.m.toNat).sum := by
  have hprod : Encrypts (p * q) (terms.map fun t => t.c ^ t.k.toNat).prod
      (terms.map fun t => t.k.toNat * t.m.toNat).sum := by
    refine Encrypts.prod (fun t : Term => t.k.toNat) terms ?_
    intro t ht
    obtain ⟨tape, rest, hc⟩ := h t ht
    exact (hk.encrypts hc).2.1
  refine hprod.congr ?_
  have hpow : (terms.map fun t => mpzPowm t.c t.k kp.pub.n2).prod ≡
      (terms.map fun t => t.c ^ t.k.toNat).prod [ZMOD ((p * q : ℕ) : Int) ^ 2] :=
    Int.ModEq.listProd_map fun t _ => hk.mpzPowm_modEq t.c t.k
  unfold combine
  rw [hk.n2]
  exact (Int.mod_modEq _ _).trans (hk.n2 ▸ hpow)

end

/-- **Paillier encryption is correct and additively homomorphic.**  For a key
`generate_keys` returns: every plaintext in `[0, N)` is encrypted with any draw
coprime to `N`; the product of powers of ciphertexts decrypts to the linear
combination of the plaintexts; and decryption inverts encryption. -/
theorem decrypt_linear {mpzNextprime : Int → Int} (hprime : ∀ x, (mpzNextprime x).toNat.Prime)
    {primeBits : UInt32} {tape rest : List Int} {kp : KeyPair}
    (hkp : (generateKeys mpzNextprime primeBits).run tape = (.ok kp, rest)) :
    (∀ m r : Int, Canon kp.pub.n m → 1 ≤ r → r < kp.pub.n → Int.gcd r kp.pub.n = 1 →
      ∀ rest, ∃ c, (encrypt m kp.pub).run (r :: rest) = (.ok c, rest)) ∧
    (∀ terms : List Term, (∀ t ∈ terms, 0 ≤ t.k ∧ t.Encrypted kp.pub) →
      decrypt (combine kp.pub terms) kp.pub kp.priv =
        (terms.map fun t => t.k * t.m).sum % kp.pub.n) ∧
    (∀ (m c : Int) (tape rest : List Int), (encrypt m kp.pub).run tape = (.ok c, rest) →
      decrypt c kp.pub kp.priv = m) := by
  obtain ⟨p, q, hpq, hk⟩ := generateKeys_returns hprime primeBits tape rest kp hkp
  refine ⟨fun m r hm hr0 hr hgcd rest => ⟨_, run_encrypt hm hr0 hr hgcd rest⟩, ?_, ?_⟩
  · intro terms hterms
    have hsum : (((terms.map fun t => t.k.toNat * t.m.toNat).sum : ℕ) : Int) =
        (terms.map fun t => t.k * t.m).sum := by
      rw [Nat.cast_list_sum, List.map_map]
      congr 1
      refine List.map_congr_left ?_
      intro t ht
      obtain ⟨hk0, tape, rest, hc⟩ := hterms t ht
      have hm0 := (hk.encrypts hc).1.1
      simp [hk0, hm0]
    rw [hk.decrypt_eq hpq.prime_p hpq.prime_q hpq.ne
      (hk.combine_encrypts fun t ht => (hterms t ht).2), hsum]
  · intro m c tape rest hc
    obtain ⟨hm, henc, -⟩ := hk.encrypts hc
    rw [hk.decrypt_eq hpq.prime_p hpq.prime_q hpq.ne henc, Int.toNat_of_nonneg hm.1, hm.emod_eq]

/-! ## One run: 3-bit primes -/

/-- The next prime. -/
def nextPrime (x : Int) : Int := Nat.find (Nat.exists_infinite_primes (x.toNat + 1))

theorem nextPrime_prime (x : Int) : (nextPrime x).toNat.Prime :=
  (Nat.find_spec (Nat.exists_infinite_primes (x.toNat + 1))).2

/-- `N = 7 * 5`. -/
def sampleKeys : KeyPair := ⟨⟨35, 36, 1225⟩, ⟨12, 3⟩⟩

theorem generateKeys_sample : (generateKeys nextPrime 3).run [1, 0] = (.ok sampleKeys, []) := by
  decide +kernel

/-- `2 * 4 + 30` modulo 35, encrypted with the draws 2 and 3. -/
theorem decrypt_linear_sample :
    decrypt (combine sampleKeys.pub [⟨4, 2, 88⟩, ⟨30, 1, 957⟩]) sampleKeys.pub sampleKeys.priv =
      3 := by
  obtain ⟨-, hlinear, -⟩ := decrypt_linear nextPrime_prime generateKeys_sample
  refine hlinear _ ?_
  intro t ht
  rw [List.mem_pair] at ht
  rcases ht with rfl | rfl
  · exact ⟨by decide, [2], [], by decide +kernel⟩
  · exact ⟨by decide, [3], [], by decide +kernel⟩

end Tecdsa.Paillier
