import Mathlib.Data.Int.ModEq
import Mathlib.FieldTheory.Finite.Basic
import Mathlib.NumberTheory.Basic
import Mathlib.Tactic.LinearCombination

/-!
# Paillier's scheme: powers modulo `N²`

Modulo `N²` the powers of `1 + N` are linear in the exponent
(`one_add_pow_modEq`), and the `N`-th power of what is 1 modulo `N` is 1
(`pow_self_modEq_one`).  So an exponent that is trivial on the units modulo `N`
(`Kills`) strips the randomness of a ciphertext and leaves its plaintext in
the logarithm.  Where `N` is invertible modulo that exponent, the randomness is
a power of the ciphertext, and every unit is a ciphertext.

    Encrypts.mul, pow, prod      plaintexts add
    dec_eq                       what decryption returns
    root_modEq, encrypts_root    the randomness of a ciphertext
    kills_lcm                    the exponent of two distinct primes
-/

namespace SquareModulus

variable {N lam : ℕ}

theorem one_add_pow_modEq (N k : ℕ) : (1 + N : ℤ) ^ k ≡ 1 + k * N [ZMOD (N : ℤ) ^ 2] := by
  induction k with
  | zero => simp [Int.ModEq]
  | succ k ih =>
    have hstep : ((1 : ℤ) + k * N) * (1 + N) ≡ 1 + (k + 1 : ℕ) * N [ZMOD (N : ℤ) ^ 2] := by
      refine (Int.modEq_iff_dvd.mpr ⟨-k, ?_⟩)
      push_cast
      ring
    calc (1 + N : ℤ) ^ (k + 1) = (1 + N) ^ k * (1 + N) := pow_succ _ _
      _ ≡ (1 + k * N) * (1 + N) [ZMOD (N : ℤ) ^ 2] := ih.mul_right _
      _ ≡ 1 + (k + 1 : ℕ) * N [ZMOD (N : ℤ) ^ 2] := hstep

/-- `N`-th powers modulo `N²` depend on the base modulo `N`. -/
theorem pow_self_modEq {x y : ℤ} (h : x ≡ y [ZMOD N]) : x ^ N ≡ y ^ N [ZMOD (N : ℤ) ^ 2] := by
  have hdvd := dvd_sub_pow_of_dvd_sub (Int.modEq_iff_dvd.mp h.symm) 1
  rw [pow_one] at hdvd
  exact (Int.modEq_iff_dvd.mpr hdvd).symm

theorem pow_self_modEq_one {x : ℤ} (h : x ≡ 1 [ZMOD N]) : x ^ N ≡ 1 [ZMOD (N : ℤ) ^ 2] := by
  simpa using pow_self_modEq h

theorem one_add_modEq_one (N k : ℕ) : (1 + N : ℤ) ^ k ≡ 1 [ZMOD N] := by
  have h : (1 + N : ℤ) ≡ 1 [ZMOD N] := by simp [Int.ModEq]
  simpa using h.pow k

theorem modEq_of_sq {x y : ℤ} (h : x ≡ y [ZMOD (N : ℤ) ^ 2]) : x ≡ y [ZMOD N] :=
  h.of_dvd (dvd_pow_self _ two_ne_zero)

theorem isCoprime_of_modEq {x y : ℤ} (h : x ≡ y [ZMOD N]) (hy : IsCoprime y N) : IsCoprime x N := by
  obtain ⟨k, hk⟩ := Int.modEq_iff_dvd.mp h.symm
  rw [show x = y + N * k by linear_combination hk]
  exact hy.add_mul_left_left k

/-! ## Exponents trivial on the units -/

/-- `lam` is a multiple of the exponent of the units modulo `N`. -/
def Kills (N lam : ℕ) : Prop := ∀ r : ℤ, IsCoprime r N → r ^ lam ≡ 1 [ZMOD N]

theorem Kills.of_dvd {e : ℕ} (h : Kills N e) (hdvd : e ∣ lam) : Kills N lam := by
  intro r hr
  obtain ⟨k, rfl⟩ := hdvd
  rw [pow_mul]
  simpa using (h r hr).pow k

theorem kills_prime {p : ℕ} (hp : p.Prime) : Kills p (p - 1) :=
  fun _ hr => Int.ModEq.pow_card_sub_one_eq_one hp hr

theorem Kills.mul {M e f : ℕ} (hcop : N.Coprime M) (hN : Kills N e) (hM : Kills M f) :
    Kills (N * M) (e.lcm f) := by
  intro r hr
  rw [Nat.cast_mul] at hr ⊢
  refine (Int.modEq_and_modEq_iff_modEq_mul (by simpa using hcop)).mp ⟨?_, ?_⟩
  · exact hN.of_dvd (Nat.dvd_lcm_left e f) r hr.of_mul_right_left
  · exact hM.of_dvd (Nat.dvd_lcm_right e f) r hr.of_mul_right_right

/-- The exponent of two distinct primes. -/
theorem kills_lcm {p q : ℕ} (hp : p.Prime) (hq : q.Prime) (hne : p ≠ q) :
    Kills (p * q) ((p - 1).lcm (q - 1)) :=
  (kills_prime hp).mul ((Nat.coprime_primes hp hq).mpr hne) (kills_prime hq)

/-! ## Ciphertexts -/

/-- `c` is a ciphertext of `m`, for some randomness. -/
def Encrypts (N : ℕ) (c : ℤ) (m : ℕ) : Prop :=
  ∃ r : ℤ, IsCoprime r N ∧ c ≡ (1 + N) ^ m * r ^ N [ZMOD (N : ℤ) ^ 2]

theorem Encrypts.congr {c d : ℤ} {m : ℕ} (h : Encrypts N c m) (hd : d ≡ c [ZMOD (N : ℤ) ^ 2]) :
    Encrypts N d m := by
  obtain ⟨r, hr, hc⟩ := h
  exact ⟨r, hr, hd.trans hc⟩

theorem Encrypts.one (N : ℕ) : Encrypts N 1 0 := ⟨1, isCoprime_one_left, by simp [Int.ModEq]⟩

theorem Encrypts.mul {c d : ℤ} {m k : ℕ} (hc : Encrypts N c m) (hd : Encrypts N d k) :
    Encrypts N (c * d) (m + k) := by
  obtain ⟨r, hr, hc⟩ := hc
  obtain ⟨s, hs, hd⟩ := hd
  refine ⟨r * s, hr.mul_left hs, ?_⟩
  have hmul := hc.mul hd
  rwa [mul_mul_mul_comm, ← pow_add, ← mul_pow] at hmul

theorem Encrypts.pow {c : ℤ} {m : ℕ} (h : Encrypts N c m) (k : ℕ) : Encrypts N (c ^ k) (k * m) := by
  induction k with
  | zero => simpa using Encrypts.one N
  | succ k ih =>
    rw [pow_succ, Nat.succ_mul]
    exact ih.mul h

/-- A product of powers of ciphertexts is one of the linear combination. -/
theorem Encrypts.prod {ι : Type*} {c : ι → ℤ} {m : ι → ℕ} (k : ι → ℕ) (l : List ι)
    (h : ∀ i ∈ l, Encrypts N (c i) (m i)) :
    Encrypts N (l.map fun i => c i ^ k i).prod (l.map fun i => k i * m i).sum := by
  induction l with
  | nil => exact Encrypts.one N
  | cons i l ih =>
    rw [List.map_cons, List.map_cons, List.prod_cons, List.sum_cons]
    exact ((h i List.mem_cons_self).pow (k i)).mul (ih fun j hj => h j (List.mem_cons_of_mem i hj))

/-- An exponent that kills the units strips the randomness. -/
theorem Encrypts.pow_kills {c : ℤ} {m : ℕ} (h : Encrypts N c m) (hl : Kills N lam) :
    c ^ lam ≡ 1 + (lam * m : ℕ) * N [ZMOD (N : ℤ) ^ 2] := by
  obtain ⟨r, hr, hc⟩ := h
  have hr1 : (r ^ N) ^ lam ≡ 1 [ZMOD (N : ℤ) ^ 2] := by
    rw [pow_right_comm]
    exact pow_self_modEq_one (hl r hr)
  calc c ^ lam ≡ ((1 + N) ^ m * r ^ N) ^ lam [ZMOD (N : ℤ) ^ 2] := hc.pow lam
    _ = (1 + N : ℤ) ^ (lam * m) * (r ^ N) ^ lam := by rw [mul_pow, ← pow_mul, mul_comm m lam]
    _ ≡ (1 + (lam * m : ℕ) * N) * 1 [ZMOD (N : ℤ) ^ 2] := (one_add_pow_modEq N _).mul hr1
    _ = 1 + (lam * m : ℕ) * N := mul_one _

/-! ## Decryption -/

/-- The discrete logarithm to the base `1 + N`, modulo `N²`. -/
def log (N : ℕ) (u : ℤ) : ℤ := (u % (N : ℤ) ^ 2 - 1) / N

/-- The division is exact. -/
theorem log_spec (hN : 1 < N) {u x : ℤ} (h : u ≡ 1 + x * N [ZMOD (N : ℤ) ^ 2]) :
    u % (N : ℤ) ^ 2 = 1 + log N u * N ∧ log N u = x % N := by
  have hN0 : (0 : ℤ) < N := by omega
  have hx0 := Int.emod_nonneg x hN0.ne'
  have hxN := Int.emod_lt_of_pos x hN0
  have hval : u % (N : ℤ) ^ 2 = 1 + x % N * N := by
    have hred : u ≡ 1 + x % N * N [ZMOD (N : ℤ) ^ 2] := by
      refine h.trans (Int.modEq_iff_dvd.mpr ⟨-(x / N), ?_⟩)
      linear_combination (N : ℤ) * Int.emod_def x N
    rw [hred, Int.emod_eq_of_lt (by positivity)]
    nlinarith
  have hlog : log N u = x % N := by
    unfold log
    rw [hval, add_sub_cancel_left, Int.mul_ediv_cancel _ hN0.ne']
  exact ⟨hlog ▸ hval, hlog⟩

/-- Decryption with the exponent `lam` and its inverse `mu`. -/
def dec (N lam : ℕ) (mu c : ℤ) : ℤ := log N (c ^ lam) * mu % N

/-- **Decryption is right on every ciphertext.** -/
theorem dec_eq (hN : 1 < N) (hl : Kills N lam) {mu : ℤ} (hmu : lam * mu ≡ 1 [ZMOD N]) {c : ℤ}
    {m : ℕ} (h : Encrypts N c m) : dec N lam mu c = (m : ℤ) % N := by
  have hlog : log N (c ^ lam) ≡ (lam * m : ℕ) [ZMOD N] := by
    rw [(log_spec hN (h.pow_kills hl)).2]
    exact Int.mod_modEq _ _
  have hcancel : ((lam * m : ℕ) : ℤ) * mu ≡ m [ZMOD N] := by
    have := hmu.mul_right m
    rwa [one_mul, mul_right_comm, ← Nat.cast_mul] at this
  exact (hlog.mul_right mu).trans hcancel

/-! ## Roots -/

section
variable {e t : ℕ}

/-- A ciphertext is an `N`-th power modulo `N`, so it is a unit. -/
theorem Encrypts.isCoprime {c : ℤ} {m : ℕ} (h : Encrypts N c m) : IsCoprime c N := by
  obtain ⟨r, hr, hc⟩ := h
  refine isCoprime_of_modEq ((modEq_of_sq hc).trans ((one_add_modEq_one N m).mul_right _)) ?_
  rw [one_mul]
  exact hr.pow_left

/-- The randomness, modulo `N`. -/
theorem root_modEq (hl : Kills N lam) (he : N * e = 1 + lam * t) {c r : ℤ} {m : ℕ}
    (hr : IsCoprime r N) (h : c ≡ (1 + N) ^ m * r ^ N [ZMOD (N : ℤ) ^ 2]) :
    c ^ e ≡ r [ZMOD N] := by
  have hc : c ≡ r ^ N [ZMOD N] := by
    simpa using (modEq_of_sq h).trans ((one_add_modEq_one N m).mul_right _)
  calc c ^ e ≡ (r ^ N) ^ e [ZMOD N] := hc.pow e
    _ = r * (r ^ lam) ^ t := by rw [← pow_mul, he, pow_add, pow_one, pow_mul]
    _ ≡ r * 1 ^ t [ZMOD N] := ((hl r hr).pow t).mul_left r
    _ = r := by rw [one_pow, mul_one]

theorem dec_nonneg (hN : 1 < N) (lam : ℕ) (mu c : ℤ) : 0 ≤ dec N lam mu c :=
  Int.emod_nonneg _ (by omega)

/-- What `dec` returns for a unit explains its power by a power of `1 + N`. -/
theorem pow_modEq_dec (hN : 1 < N) (hl : Kills N lam) {mu : ℤ} (hmu : lam * mu ≡ 1 [ZMOD N])
    {c : ℤ} (hc : IsCoprime c N) :
    c ^ lam ≡ (1 + N) ^ (lam * (dec N lam mu c).toNat) [ZMOD (N : ℤ) ^ 2] := by
  obtain ⟨x, hx⟩ := Int.modEq_iff_dvd.mp (hl c hc).symm
  have hpow : c ^ lam ≡ 1 + x * N [ZMOD (N : ℤ) ^ 2] := by
    rw [show c ^ lam = 1 + x * N by linear_combination hx]
  have hdec : ((dec N lam mu c).toNat : ℤ) = x % N * mu % N := by
    rw [Int.toNat_of_nonneg (dec_nonneg hN lam mu c), dec, (log_spec hN hpow).2]
  have hlam : (lam * (dec N lam mu c).toNat : ℕ) ≡ x [ZMOD N] := by
    rw [Nat.cast_mul, hdec]
    calc (lam : ℤ) * (x % N * mu % N) ≡ lam * (x * mu) [ZMOD N] :=
          ((Int.mod_modEq _ _).trans ((Int.mod_modEq _ _).mul_right mu)).mul_left _
      _ = x * (lam * mu) := by ring
      _ ≡ x * 1 [ZMOD N] := hmu.mul_left x
      _ = x := mul_one x
  have hmul : (lam * (dec N lam mu c).toNat : ℕ) * (N : ℤ) ≡ x * N [ZMOD (N : ℤ) ^ 2] := by
    rw [sq]
    exact hlam.mul_right'
  exact hpow.trans ((hmul.add_left 1).symm.trans (one_add_pow_modEq N _).symm)

/-- **Every unit is a ciphertext**, of what `dec` returns, with a power of it
as randomness. -/
theorem encrypts_root (hN : 1 < N) (hl : Kills N lam) {mu : ℤ} (hmu : lam * mu ≡ 1 [ZMOD N])
    (he : N * e = 1 + lam * t) {c : ℤ} (hc : IsCoprime c N) :
    c ≡ (1 + N) ^ (dec N lam mu c).toNat * (c ^ e) ^ N [ZMOD (N : ℤ) ^ 2] := by
  have hpow := pow_modEq_dec hN hl hmu hc
  generalize (dec N lam mu c).toNat = m at hpow ⊢
  have hone : ((1 + N : ℤ) ^ (e * m)) ^ N ≡ 1 [ZMOD (N : ℤ) ^ 2] :=
    pow_self_modEq_one (one_add_modEq_one N _)
  have hexp : e * m * N = m + lam * m * t := by
    calc e * m * N = N * e * m := by ring
      _ = m + lam * m * t := by rw [he]; ring
  symm
  calc (1 + N : ℤ) ^ m * (c ^ e) ^ N = (1 + N) ^ m * (c * (c ^ lam) ^ t) := by
        rw [← pow_mul, mul_comm e N, he, pow_add, pow_one, pow_mul]
    _ ≡ (1 + N) ^ m * (c * ((1 + N) ^ (lam * m)) ^ t) [ZMOD (N : ℤ) ^ 2] :=
        ((hpow.pow t).mul_left c).mul_left _
    _ = c * ((1 + N) ^ (e * m)) ^ N := by rw [← pow_mul, ← pow_mul, hexp, pow_add]; ring
    _ ≡ c * 1 [ZMOD (N : ℤ) ^ 2] := hone.mul_left c
    _ = c := mul_one c

end

end SquareModulus
