import Mathlib.Data.Int.Interval
import Mathlib.Data.Set.Card
import Mathlib.Tactic.NormNum.Prime
import Tecdsa.Lib.Rejection
import Tecdsa.Proof.PaillierKey

/-!
# Which keys `generate_keys` returns, and how often a prime is drawn

`gen_prime` sets the top bit of its draw and takes the next prime, so a prime
is drawn as often as the gap before it is long: its chance is not uniform.

    {x | (genPrime …).run [x] = (.ok p, [])} has 2 (p - lo) elements        (genPrime_gaps)

Every pair of primes of the size asked for makes a key that some tape returns
(`generateKeys_reachable`); below three bits there is no such pair, and the
loops never end.
-/

namespace Tecdsa.Paillier

open Residue

/-! ## `mpz_nextprime` -/

/-- What `mpz_nextprime` is documented to return: the least prime above its argument. -/
structure NextPrime (mpzNextprime : Int → Int) : Prop where
  prime : ∀ x, (mpzNextprime x).toNat.Prime
  lt : ∀ x, x < mpzNextprime x
  least : ∀ (x : Int) (p : ℕ), p.Prime → x < p → mpzNextprime x ≤ p

section
variable {mpzNextprime : Int → Int} (hnext : NextPrime mpzNextprime)
include hnext

/-- From the prime before `p`, or from where the candidates start. -/
theorem NextPrime.eq_iff {p lo base : ℕ} (hp : p.Prime) (hlo : lo = base ∨ lo.Prime) (hlt : lo < p)
    (hgap : ∀ r : ℕ, r.Prime → lo < r → p ≤ r) {x : Int} (hx : (base : Int) ≤ x) :
    mpzNextprime x = p ↔ (lo : Int) ≤ x ∧ x < p := by
  constructor
  · intro heq
    have hxp := hnext.lt x
    refine ⟨?_, by omega⟩
    rcases hlo with rfl | hprime
    · exact hx
    · by_contra hout
      have := hnext.least x lo hprime (by omega)
      omega
  · rintro ⟨hlox, hxp⟩
    have hle := hnext.least x p hp hxp
    have hpos := (hnext.prime x).pos
    have habove := hnext.lt x
    have hge := hgap _ (hnext.prime x) (by omega)
    omega

end

/-! ## Candidates -/

/-- The draw with its top bit set. -/
def candidate (primeBits : UInt32) (x : Int) : Int := mpzSetbit x (primeBits - 1).toNat

section
variable {primeBits : UInt32}

theorem toNat_sub_one (hb : 1 ≤ primeBits.toNat) : (primeBits - 1).toNat = primeBits.toNat - 1 :=
  UInt32.toNat_sub_of_le _ _ (UInt32.le_iff_toNat_le.mpr hb)

theorem two_pow_eq_double {b : ℕ} (hb : 1 ≤ b) : 2 ^ b = 2 * 2 ^ (b - 1) := by
  rw [← pow_succ', Nat.sub_add_cancel hb]

/-- Setting the top bit leaves the others. -/
theorem candidate_eq (hb : 1 ≤ primeBits.toNat) {x : Int} (hx : Canon (2 ^ primeBits.toNat) x) :
    candidate primeBits x = 2 ^ (primeBits.toNat - 1) + x % 2 ^ (primeBits.toNat - 1) := by
  obtain ⟨h0, hlt⟩ := hx
  obtain ⟨v, rfl⟩ := Int.eq_ofNat_of_zero_le h0
  have hdouble := two_pow_eq_double hb
  have hv : v < 2 ^ primeBits.toNat := by exact_mod_cast hlt
  have hbit : mpzTstbit (v : Int) (primeBits.toNat - 1) = decide (v / 2 ^ (primeBits.toNat - 1) % 2 = 1) :=
    Nat.testBit_eq_decide_div_mod_eq
  unfold candidate mpzSetbit
  rw [toNat_sub_one hb, hbit]
  rw [hdouble] at hv
  have hpos : 0 < 2 ^ (primeBits.toNat - 1) := Nat.two_pow_pos _
  generalize hH : 2 ^ (primeBits.toNat - 1) = H at hv hpos ⊢
  have hcast : (2 : Int) ^ (primeBits.toNat - 1) = H := by rw [← hH, Nat.cast_pow, Nat.cast_ofNat]
  rw [hcast, ← Int.natCast_mod]
  by_cases hlow : v < H
  · rw [Nat.div_eq_of_lt hlow, Nat.mod_eq_of_lt hlow]
    simp only [Nat.zero_mod, zero_ne_one, decide_false, Bool.false_eq_true, if_false]
    omega
  · have hdiv : v / H = 1 := Nat.div_eq_of_lt_le (by omega) (by omega)
    have hmod : v % H = v - H := by
      rw [Nat.mod_eq_sub_mod (by omega), Nat.mod_eq_of_lt (by omega)]
    rw [hdiv, hmod]
    simp only [Nat.one_mod, decide_true, if_true]
    omega

theorem candidate_ge (hb : 1 ≤ primeBits.toNat) {x : Int} (hx : Canon (2 ^ primeBits.toNat) x) :
    ((2 ^ (primeBits.toNat - 1) : ℕ) : Int) ≤ candidate primeBits x := by
  rw [candidate_eq hb hx, Nat.cast_pow, Nat.cast_ofNat]
  have := Int.emod_nonneg x (show (2 : Int) ^ (primeBits.toNat - 1) ≠ 0 by positivity)
  omega

/-- A draw with its top bit set is its own candidate. -/
theorem candidate_self (hb : 1 ≤ primeBits.toNat) {x : Int} (hlo : 2 ^ (primeBits.toNat - 1) ≤ x)
    (hx : x < 2 ^ primeBits.toNat) : candidate primeBits x = x := by
  have hdouble : (2 : Int) ^ primeBits.toNat = 2 * 2 ^ (primeBits.toNat - 1) := by
    exact_mod_cast two_pow_eq_double hb
  have hpos : (0 : Int) < 2 ^ (primeBits.toNat - 1) := by positivity
  rw [candidate_eq hb ⟨by omega, hx⟩, ← Int.sub_emod_right, Int.emod_eq_of_lt (by omega) (by omega)]
  omega

/-! ## One prime -/

variable {mpzNextprime : Int → Int}

/-- The tapes on which a prime is drawn. -/
theorem run_genPrime_iff {tape rest : List Int} {out : Int} :
    (genPrime mpzNextprime primeBits).run tape = (.ok out, rest) ↔
      ∃ pre x, tape = pre ++ x :: rest ∧
        (∀ y ∈ pre, Canon (2 ^ primeBits.toNat) y ∧
          mpzSizeinbase2 (mpzNextprime (candidate primeBits y)) ≠ primeBits.toNat) ∧
        Canon (2 ^ primeBits.toNat) x ∧ mpzNextprime (candidate primeBits x) = out ∧
        mpzSizeinbase2 out = primeBits.toNat := by
  have hloop := @Draws.run_doWhile_drawWith_iff Stop Int .exhausted
    (fun out => mpzSizeinbase2 out != primeBits.toNat)
    (fun x => decide (0 ≤ x) && decide (x < 2 ^ primeBits.toNat))
    (fun x => mpzNextprime (candidate primeBits x)) tape rest out
  simp only [Bool.and_eq_true, decide_eq_true_eq, bne_iff_ne, bne_eq_false_iff_eq] at hloop
  exact hloop

theorem run_genPrime_one_iff {x out : Int} :
    (genPrime mpzNextprime primeBits).run [x] = (.ok out, []) ↔
      Canon (2 ^ primeBits.toNat) x ∧ mpzNextprime (candidate primeBits x) = out ∧
        mpzSizeinbase2 out = primeBits.toNat := by
  rw [run_genPrime_iff]
  constructor
  · rintro ⟨pre, y, htape, -, hy⟩
    rcases List.singleton_eq_append_iff.mp htape with ⟨rfl, hy'⟩ | ⟨-, hnil⟩
    · cases hy'
      exact hy
    · cases hnil
  · intro hx
    exact ⟨[], x, rfl, by simp, hx⟩

end

/-! ## Sizes -/

theorem sizeinbase2_eq_iff {x b : ℕ} (hb : 1 ≤ b) (hx : x ≠ 0) :
    mpzSizeinbase2 x = b ↔ 2 ^ (b - 1) ≤ x ∧ x < 2 ^ b := by
  constructor
  · intro h
    exact (bits_range hx h).2
  · intro h
    have hlog : x.log2 = b - 1 := (Nat.log2_eq_iff hx).mpr (by rw [Nat.sub_add_cancel hb]; exact h)
    unfold mpzSizeinbase2
    rw [Int.natAbs_natCast, hlog, Nat.sub_add_cancel hb]

/-- The prime above a candidate has the size asked for, or it is too long. -/
theorem NextPrime.size_iff {mpzNextprime : Int → Int} (hnext : NextPrime mpzNextprime)
    {primeBits : UInt32} (hb : 1 ≤ primeBits.toNat) {x : Int} (hx : Canon (2 ^ primeBits.toNat) x) :
    mpzSizeinbase2 (mpzNextprime (candidate primeBits x)) = primeBits.toNat ↔
      mpzNextprime (candidate primeBits x) < 2 ^ primeBits.toNat := by
  have hge := (candidate_ge hb hx).trans (hnext.lt (candidate primeBits x)).le
  obtain ⟨v, hv⟩ := Int.eq_ofNat_of_zero_le ((Int.natCast_nonneg _).trans hge)
  rw [hv] at hge ⊢
  have hlo : 2 ^ (primeBits.toNat - 1) ≤ v := by exact_mod_cast hge
  have hpos : 0 < 2 ^ (primeBits.toNat - 1) := Nat.two_pow_pos _
  rw [sizeinbase2_eq_iff hb (by omega)]
  constructor
  · rintro ⟨-, hhi⟩
    exact_mod_cast hhi
  · intro hhi
    exact ⟨hlo, by exact_mod_cast hhi⟩

/-! ## Counting draws -/

/-- The draws, of twice `H`, that a window of the upper half takes. -/
theorem encard_window {H lo hi : ℕ} (hHlo : H ≤ lo) (hle : lo ≤ hi) (hhi : hi ≤ 2 * H) :
    {x : Int | Canon (2 * H) x ∧ lo ≤ H + x % H ∧ H + x % H < hi}.encard = (2 * (hi - lo) : ℕ) := by
  have hset : {x : Int | Canon (2 * H) x ∧ lo ≤ H + x % H ∧ H + x % H < hi} =
      ((Finset.Ico ((lo : Int) - H) (hi - H) ∪ Finset.Ico (lo : Int) hi : Finset Int) : Set Int) := by
    ext x
    rw [Set.mem_ofPred_eq, Finset.mem_coe, Finset.mem_union, Finset.mem_Ico, Finset.mem_Ico]
    unfold Canon
    constructor
    · rintro ⟨⟨h0, hlt⟩, hlox, hhix⟩
      by_cases hlow : x < H
      · rw [Int.emod_eq_of_lt h0 hlow] at hlox hhix
        omega
      · rw [← Int.sub_emod_right, Int.emod_eq_of_lt (by omega) (by omega)] at hlox hhix
        omega
    · rintro (⟨h0, hlt⟩ | ⟨h0, hlt⟩)
      · rw [Int.emod_eq_of_lt (by omega) (by omega)]
        omega
      · rw [← Int.sub_emod_right, Int.emod_eq_of_lt (by omega) (by omega)]
        omega
  have hdisj : Disjoint (Finset.Ico ((lo : Int) - H) (hi - H)) (Finset.Ico (lo : Int) hi) := by
    rw [Finset.disjoint_left]
    intro x hx hx'
    rw [Finset.mem_Ico] at hx hx'
    omega
  rw [hset, Set.encard_coe_eq_coe_finsetCard, Finset.card_union_of_disjoint hdisj, Int.card_Ico,
    Int.card_Ico]
  congr 1
  omega

section
variable {mpzNextprime : Int → Int} {primeBits : UInt32}

/-- **A prime's chance is the gap before it.**  `gen_prime` returns after draws whose next prime is
too long, and then on one draw; the draws that give a prime `p` of the size asked for are twice
as many as there are numbers from the prime before it, or from the smallest candidate, to `p`. -/
theorem genPrime_gaps (hnext : NextPrime mpzNextprime) (hb : 1 ≤ primeBits.toNat) :
    (∀ tape rest out, (genPrime mpzNextprime primeBits).run tape = (.ok out, rest) ↔
      ∃ pre x, tape = pre ++ x :: rest ∧
        (∀ y ∈ pre, Canon (2 ^ primeBits.toNat) y ∧
          (2 : Int) ^ primeBits.toNat ≤ mpzNextprime (candidate primeBits y)) ∧
        (genPrime mpzNextprime primeBits).run [x] = (.ok out, [])) ∧
    ∀ p lo : ℕ, p.Prime → p < 2 ^ primeBits.toNat → 2 ^ (primeBits.toNat - 1) ≤ lo → lo < p →
      (lo = 2 ^ (primeBits.toNat - 1) ∨ lo.Prime) → (∀ r : ℕ, r.Prime → lo < r → p ≤ r) →
      {x : Int | (genPrime mpzNextprime primeBits).run [x] = (.ok (p : Int), [])}.encard =
        (2 * (p - lo) : ℕ) := by
  have hdouble := two_pow_eq_double hb
  refine ⟨?_, ?_⟩
  · intro tape rest out
    simp only [run_genPrime_one_iff]
    rw [run_genPrime_iff]
    have hreject (y : Int) : (Canon (2 ^ primeBits.toNat) y ∧
        mpzSizeinbase2 (mpzNextprime (candidate primeBits y)) ≠ primeBits.toNat) ↔
        Canon (2 ^ primeBits.toNat) y ∧ (2 : Int) ^ primeBits.toNat ≤ mpzNextprime (candidate primeBits y) := by
      refine and_congr_right ?_
      intro hy
      rw [Ne, hnext.size_iff hb hy, not_lt]
    simp only [hreject]
  · intro p lo hp hhi hlo hlt hstart hgap
    have hsize : mpzSizeinbase2 p = primeBits.toNat :=
      (sizeinbase2_eq_iff hb hp.ne_zero).mpr ⟨by omega, hhi⟩
    have hwindow := encard_window hlo hlt.le (show p ≤ 2 * 2 ^ (primeBits.toNat - 1) by omega)
    have hcast : (2 : Int) ^ primeBits.toNat = 2 * ((2 ^ (primeBits.toNat - 1) : ℕ) : Int) := by
      exact_mod_cast hdouble
    rw [← hwindow]
    congr 1
    ext x
    rw [Set.mem_ofPred_eq, Set.mem_ofPred_eq, run_genPrime_one_iff, ← hcast]
    refine and_congr_right ?_
    intro hx
    rw [hnext.eq_iff hp hstart hlt hgap (candidate_ge hb hx), candidate_eq hb hx, Nat.cast_pow, Nat.cast_ofNat]
    exact and_iff_left hsize

end

/-! ## The keys -/

section
variable {primeBits : UInt32} {p q : ℕ} {kp kp' : KeyPair}

theorem PrimesOf.symm (h : PrimesOf primeBits p q) : PrimesOf primeBits q p where
  prime_p := h.prime_q
  prime_q := h.prime_p
  ne := h.ne.symm
  bits_p := h.bits_q
  bits_q := h.bits_p
  bits_n := by rw [mul_comm]; exact h.bits_n

/-- The primes of two bits are 2 and 3, and 6 has three bits. -/
theorem PrimesOf.three_le (h : PrimesOf primeBits p q) : 3 ≤ primeBits.toNat := by
  obtain ⟨hb, hplo, hphi⟩ := bits_range h.prime_p.ne_zero h.bits_p
  obtain ⟨-, hqlo, hqhi⟩ := bits_range h.prime_q.ne_zero h.bits_q
  have hp2 := h.prime_p.two_le
  have hq2 := h.prime_q.two_le
  have hne := h.ne
  have h6 := h.pq_ne_six
  by_contra hsmall
  obtain hb1 | hb2 : primeBits.toNat = 1 ∨ primeBits.toNat = 2 := by omega
  · rw [hb1] at hphi
    omega
  · rw [hb2] at hphi hqhi
    obtain rfl | rfl : p = 2 ∨ p = 3 := by omega
    · omega
    · omega

/-- The smallest candidate is no prime. -/
theorem PrimesOf.above_smallest (h : PrimesOf primeBits p q) : 2 ^ (primeBits.toNat - 1) < p := by
  obtain ⟨-, hlo, -⟩ := bits_range h.prime_p.ne_zero h.bits_p
  have hb := h.three_le
  refine lt_of_le_of_ne hlo ?_
  intro heq
  have hpow := h.prime_p
  rw [← heq] at hpow
  have := hpow.eq_one_of_pow
  omega

/-- The number before a prime draws it. -/
theorem PrimesOf.run_genPrime {mpzNextprime : Int → Int} (hnext : NextPrime mpzNextprime)
    (h : PrimesOf primeBits p q) (rest : List Int) :
    (genPrime mpzNextprime primeBits).run (((p : Int) - 1) :: rest) = (.ok (p : Int), rest) := by
  have hb := h.three_le
  have habove := h.above_smallest
  obtain ⟨-, -, hhi⟩ := bits_range h.prime_p.ne_zero h.bits_p
  have hhi' : (p : Int) < 2 ^ primeBits.toNat := by exact_mod_cast hhi
  have hlo' : (2 : Int) ^ (primeBits.toNat - 1) < p := by exact_mod_cast habove
  have hpos := h.prime_p.pos
  have hself := candidate_self (by omega) (show (2 : Int) ^ (primeBits.toNat - 1) ≤ p - 1 by omega)
    (by omega)
  have hlt := hnext.lt ((p : Int) - 1)
  have hle := hnext.least ((p : Int) - 1) p h.prime_p (by omega)
  refine run_genPrime_iff.mpr ⟨[], (p : Int) - 1, rfl, by simp, ⟨by omega, by omega⟩, ?_, h.bits_p⟩
  rw [hself]
  omega

theorem PrimesOf.run_genPrimes {mpzNextprime : Int → Int} (hnext : NextPrime mpzNextprime)
    (h : PrimesOf primeBits p q) :
    (genPrimes mpzNextprime primeBits).run [(p : Int) - 1, (q : Int) - 1] = (.ok ((p : Int), (q : Int)), []) := by
  have hq : (Draws.doWhile .exhausted (genPrime mpzNextprime primeBits) fun x => x == (p : Int)).run
      [(q : Int) - 1] = (.ok (q : Int), []) := by
    refine Draws.run_doWhile_of_done (h.symm.run_genPrime hnext []) ?_
    rw [beq_eq_false_iff_ne]
    exact_mod_cast h.ne.symm
  refine Draws.run_doWhile_of_done ?_ ?_
  · rw [Draws.run_bind_of_ok (h.run_genPrime hnext _), Draws.run_bind_of_ok hq]
    rfl
  · simp only [h.bits_n, bne_self_eq_false]

/-- The primes determine the key. -/
theorem KeyOf.unique (hk : KeyOf p q kp) (hk' : KeyOf p q kp') : kp = kp' := by
  have hmu : kp.priv.mu = kp'.priv.mu := by
    -- both are the inverse of `lambda`
    have hmod : kp.priv.mu ≡ kp'.priv.mu [ZMOD (p * q : ℕ)] :=
      calc kp.priv.mu = kp.priv.mu * 1 := (mul_one _).symm
        _ ≡ kp.priv.mu * (((p - 1).lcm (q - 1) : ℕ) * kp'.priv.mu) [ZMOD (p * q : ℕ)] :=
          hk'.lambda_mu.symm.mul_left _
        _ = ((p - 1).lcm (q - 1) : ℕ) * kp.priv.mu * kp'.priv.mu := by ring
        _ ≡ 1 * kp'.priv.mu [ZMOD (p * q : ℕ)] := hk.lambda_mu.mul_right _
        _ = kp'.priv.mu := one_mul _
    rw [← hk.mu.emod_eq, ← hk'.mu.emod_eq]
    exact hmod
  obtain ⟨⟨n, g, n2⟩, lambda, mu⟩ := kp
  obtain ⟨⟨n', g', n2'⟩, lambda', mu'⟩ := kp'
  simp only [KeyPair.mk.injEq, PublicKey.mk.injEq, PrivateKey.mk.injEq]
  exact ⟨⟨hk.n.trans hk'.n.symm, hk.g.trans hk'.g.symm, hk.n2.trans hk'.n2.symm⟩,
    hk.lambda.trans hk'.lambda.symm, hmu⟩

theorem PrimesOf.run_generateKeys {mpzNextprime : Int → Int} (hnext : NextPrime mpzNextprime)
    (h : PrimesOf primeBits p q) (hk : KeyOf p q kp) :
    (generateKeys mpzNextprime primeBits).run [(p : Int) - 1, (q : Int) - 1] = (.ok kp, []) := by
  obtain ⟨kp', hkp', hk'⟩ := h.keysOfPrimes_returns
  unfold generateKeys
  rw [Draws.run_bind_of_ok (h.run_genPrimes hnext)]
  simp only [hkp', hk.unique hk']
  rfl

/-- **The keys `generate_keys` returns** are those of the pairs of primes of the size asked for, all
of them, each pair on two draws; below three bits it never returns. -/
theorem generateKeys_reachable {mpzNextprime : Int → Int} (hnext : NextPrime mpzNextprime)
    (primeBits : UInt32) :
    (∀ kp, (∃ tape rest, (generateKeys mpzNextprime primeBits).run tape = (.ok kp, rest)) ↔
      ∃ p q : ℕ, PrimesOf primeBits p q ∧ KeyOf p q kp) ∧
    (∀ p q : ℕ, PrimesOf primeBits p q → ∀ kp, KeyOf p q kp →
      (generateKeys mpzNextprime primeBits).run [(p : Int) - 1, (q : Int) - 1] = (.ok kp, [])) ∧
    (primeBits.toNat < 3 → ∀ tape, ∃ rest,
      (generateKeys mpzNextprime primeBits).run tape = (.error .exhausted, rest)) := by
  refine ⟨?_, fun p q h kp hk => h.run_generateKeys hnext hk, ?_⟩
  · intro kp
    constructor
    · rintro ⟨tape, rest, hrun⟩
      exact generateKeys_returns hnext.prime primeBits tape rest kp hrun
    · rintro ⟨p, q, h, hk⟩
      exact ⟨_, _, h.run_generateKeys hnext hk⟩
  · intro hsmall tape
    rcases genPrimes_yields hnext.prime primeBits tape with ⟨_, rest, -, p, q, -, h⟩ | ⟨rest, hrun⟩
    · have := h.three_le
      omega
    · exact ⟨rest, Draws.run_bind_of_error hrun⟩

end

/-! ## The least prime above -/

theorem nextPrime_spec : NextPrime nextPrime where
  prime := nextPrime_prime
  lt x := by
    have hle := (Nat.find_spec (Nat.exists_infinite_primes (x.toNat + 1))).1
    unfold nextPrime
    omega
  least x p hp hx := by
    have hle : x.toNat + 1 ≤ p := by
      have := hp.pos
      omega
    unfold nextPrime
    exact_mod_cast Nat.find_min' (Nat.exists_infinite_primes (x.toNat + 1)) ⟨hle, hp⟩

/-- Of the eight draws of three bits four give 7, after 5. -/
theorem genPrime_gaps_seven : NextPrime nextPrime ∧ 1 ≤ (3 : UInt32).toNat ∧
    {x : Int | (genPrime nextPrime 3).run [x] = (.ok 7, [])}.encard = 4 := by
  have hcount := (@genPrime_gaps nextPrime 3 nextPrime_spec (by decide)).2 7 5 (by norm_num) (by decide)
    (by decide) (by decide) (Or.inr (by norm_num)) (by
      intro r hr hlt
      by_contra hout
      obtain rfl : r = 6 := by omega
      exact absurd hr (by norm_num))
  exact ⟨nextPrime_spec, by decide, hcount⟩

theorem primesOf_sample : PrimesOf 3 7 5 where
  prime_p := by norm_num
  prime_q := by norm_num
  ne := by decide
  bits_p := by decide
  bits_q := by decide
  bits_n := by decide

theorem keyOf_sample : KeyOf 7 5 sampleKeys where
  n := by decide
  g := by decide
  n2 := by decide
  lambda := by decide
  mu := ⟨by decide, by decide⟩
  lambda_mu := by decide

/-- The primes of three bits make one product of six, on the draws 6 and 4; those of two bits have none
of four. -/
theorem generateKeys_reachable_sample : NextPrime nextPrime ∧
    ((∃ tape rest, (generateKeys nextPrime 3).run tape = (.ok sampleKeys, rest)) ↔
      ∃ p q : ℕ, PrimesOf 3 p q ∧ KeyOf p q sampleKeys) ∧
    (PrimesOf 3 7 5 ∧ KeyOf 7 5 sampleKeys ∧ (generateKeys nextPrime 3).run [6, 4] = (.ok sampleKeys, [])) ∧
    ∀ tape, ∃ rest, (generateKeys nextPrime 2).run tape = (.error .exhausted, rest) := by
  obtain ⟨hiff, hdraws, -⟩ := generateKeys_reachable nextPrime_spec 3
  exact ⟨nextPrime_spec, hiff sampleKeys,
    ⟨primesOf_sample, keyOf_sample, hdraws 7 5 primesOf_sample sampleKeys keyOf_sample⟩,
    (generateKeys_reachable nextPrime_spec 2).2.2 (by decide)⟩

end Tecdsa.Paillier
