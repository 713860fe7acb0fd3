import Mathlib.Data.Nat.Count
import Tecdsa.Lib.Counting
import Tecdsa.Proof.CurveOrder
import Tecdsa.Proof.KeyFlow
import Tecdsa.Proof.Sign

/-!
# How often signing inverts

An affine addition or doubling of finite points with a finite result inverts
once, so a multiple by `k` inverts once for each bit of `k` below the highest
and once for each set bit but the first; both pipelines invert once more.
The functions between `mod_inv` and the signatures take `mod_inv` as a
parameter: `fWith (countedInv build)` is `f` with its calls counted.

    scalar_mul(k, P)               (bits k - 1) + (ones k - 1)       (scalarMul_inversions)
    sign_with_hash, nonce k        those of k G and one              (signing_inversions)
    threshold_presign, nonce k     those of k G
    threshold_sign                 one
-/

namespace Tecdsa

open Draws Residue

/-- `mod_inv`, counted. -/
def countedInv (build : Build) (a q : Int) : Counted Stop Int := counted (drawnInv build a q)

/-! ## Points -/

/-- One inversion and what follows without any. -/
theorem counts_inv_pure {α : Type} (build : Build) (a q : Int) (f : Int → α) :
    Counts (countedInv build a q >>= fun i => pure (f i)) (liftM (modInv build a q >>= fun i => pure (f i)) : Rand α)
      fun _ => 1 := by
  have hinv : Counts (countedInv build a q) (liftM (modInv build a q)) fun _ => 1 :=
    Counts.counted (drawnInv build a q)
  exact hinv.bind_lift fun i _ => Counts.pure (f i)

section
variable {P Q : AffinePoint} {A B : Group}

theorem Denotes.infinity_eq_false (hP : Denotes P A) (hA : A ≠ 0) : P.infinity = false := by
  rw [Bool.eq_false_iff]
  exact fun h => hA (hP.infinity_iff.mp h)

/-- No point has order 2: a tangent is never vertical. -/
theorem Denotes.y_ne_zero (hP : Denotes P A) (hfin : P.infinity = false) : P.y ≠ 0 := by
  intro hy
  obtain ⟨R, hR, hden⟩ := pointDouble_denotes hP
  have hid : pointDouble .release P = .ok identity := by
    unfold pointDouble pointDoubleWith
    rw [if_neg (by simp [hfin]), if_pos hy]
    rfl
  have hR0 : R = identity := Except.ok.inj ((hR .release).symm.trans hid)
  have hzero := hden.infinity_iff.mp (hR0 ▸ rfl)
  rw [hP.infinity_iff.mpr (eq_zero_of_two_nsmul hzero)] at hfin
  cases hfin

theorem counts_pointDouble (build : Build) (hP : Denotes P A) (hA : A ≠ 0) :
    Counts (pointDoubleWith (countedInv build) P) (liftM (pointDouble build P)) fun _ => 1 := by
  have hfin := hP.infinity_eq_false hA
  unfold pointDouble pointDoubleWith
  simp only [hfin, Bool.false_eq_true, if_false, if_neg (hP.y_ne_zero hfin)]
  exact counts_inv_pure build _ _ _

theorem counts_pointAdd_infinity (build : Build) (hP : Denotes P (0 : Group)) (Q : AffinePoint) :
    Counts (pointAddWith (countedInv build) P Q) (liftM (pointAdd build P Q)) fun _ => 0 := by
  have hinf := hP.infinity_iff.mpr rfl
  unfold pointAdd pointAddWith
  simp only [hinf, if_true]
  exact Counts.pure Q

theorem counts_pointAdd (build : Build) (hP : Denotes P A) (hQ : Denotes Q B) (hA : A ≠ 0) (hB : B ≠ 0)
    (hAB : A + B ≠ 0) :
    Counts (pointAddWith (countedInv build) P Q) (liftM (pointAdd build P Q)) fun _ => 1 := by
  have hfinP := hP.infinity_eq_false hA
  have hfinQ := hQ.infinity_eq_false hB
  unfold pointAdd pointAddWith
  simp only [hfinP, hfinQ, Bool.false_eq_true, if_false]
  by_cases hx : P.x = Q.x
  · by_cases hy : P.y = Q.y
    · simp only [if_pos hx, if_pos hy]
      exact counts_pointDouble build hP hA
    · -- opposite points: their sum is at infinity
      exfalso
      obtain ⟨R, hR, hden⟩ := pointAdd_denotes hP hQ
      have hid : pointAdd .release P Q = .ok identity := by
        unfold pointAdd pointAddWith
        simp only [hfinP, hfinQ, Bool.false_eq_true, if_false, if_pos hx, if_neg hy, Run.pure_eq_ok]
      have hR0 : R = identity := Except.ok.inj ((hR .release).symm.trans hid)
      exact hAB (hden.infinity_iff.mp (hR0 ▸ rfl))
  · simp only [if_neg hx]
    exact counts_inv_pure build _ _ _

end

/-! ## Multiples -/

/-- How many of the bits below `i` are set. -/
def ones (k i : Nat) : Nat := Nat.count (fun j => k.testBit j = true) i

theorem ones_succ (k i : Nat) : ones k (i + 1) = ones k i + if k.testBit i then 1 else 0 :=
  Nat.count_succ _ i

theorem ones_le_self (k i : Nat) : ones k i ≤ i := Nat.count_le _

theorem ones_le {i j : Nat} (k : Nat) (h : i ≤ j) : ones k i ≤ ones k j := Nat.count_monotone _ h

theorem ones_eq_zero_iff (k i : Nat) : ones k i = 0 ↔ k % 2 ^ i = 0 := by
  induction i with
  | zero => simp [ones, Nat.mod_one]
  | succ i ih =>
    rw [ones_succ, mod_two_pow_succ, Nat.add_eq_zero_iff, Nat.add_eq_zero_iff, ih]
    cases k.testBit i <;> simp

/-- The inversions of a multiple by `k`. -/
def ladderInversions (k : Nat) : Nat :=
  (mpzSizeinbase2 k - 1) + (ones k (mpzSizeinbase2 k) - 1)

theorem scalarMulLoopWith_succ (inv : Int → Int → Counted Stop Int) (k : Int) (numBits todo i : Nat)
    (R Q : AffinePoint) : scalarMulLoopWith inv k numBits (todo + 1) i R Q =
      ((if mpzTstbit k i then pointAddWith inv R Q else pure R) >>= fun R' =>
        (if i + 1 < numBits then pointDoubleWith inv Q else pure Q) >>= fun Q' =>
          scalarMulLoopWith inv k numBits todo (i + 1) R' Q') := by
  simp only [scalarMulLoopWith]
  split <;> split <;> rfl

/-- What the addition of a round leaves in `R`. -/
theorem addStep_denotes {A : Group} {build : Build} {k i : Nat} {R Q R' : AffinePoint}
    (hR : Denotes R ((k % 2 ^ i) • A)) (hQ : Denotes Q ((2 ^ i) • A))
    (hR' : (if mpzTstbit k i then pointAdd build R Q else .ok R) = .ok R') :
    Denotes R' ((k % 2 ^ (i + 1)) • A) := by
  -- the loop, stopped after this round
  obtain ⟨S, hS, hden⟩ := scalarMulLoop_denotes k (i + 1) A 1 i R Q rfl hR fun _ => hQ
  have hloop := hS build
  rw [scalarMulLoop_succ, hR', Run.ok_bind, if_neg (Nat.lt_irrefl _)] at hloop
  cases hloop
  exact hden

theorem doubled_denotes {A : Group} {build : Build} {i : Nat} {Q Q' : AffinePoint}
    (hQ : Denotes Q ((2 ^ i) • A)) (hQ' : pointDouble build Q = .ok Q') :
    Denotes Q' ((2 ^ (i + 1)) • A) := by
  obtain ⟨S, hS, hden⟩ := pointDouble_denotes hQ
  rw [← mul_nsmul', ← pow_succ'] at hden
  obtain rfl : S = Q' := Except.ok.inj ((hS build).symm.trans hQ')
  exact hden

section
variable {A : Group} (hA : A ≠ 0)
include hA

/-- Every point but the one at infinity has order `n`. -/
theorem nsmul_ne_zero {j : Nat} (h0 : j ≠ 0) (hj : (j : Int) < Secp256k1.n) : j • A ≠ 0 := by
  have hdvd : addOrderOf A ∣ Secp256k1.n.toNat := card_group ▸ addOrderOf_dvd_natCard A
  have horder : addOrderOf A = Secp256k1.n.toNat := by
    rcases (Nat.dvd_prime Secp256k1.prime_n).mp hdvd with h1 | hn
    · exact absurd (AddMonoid.addOrderOf_eq_one_iff.mp h1) hA
    · exact hn
  intro hzero
  have := Nat.le_of_dvd (by omega) (horder ▸ addOrderOf_dvd_of_nsmul_eq_zero hzero)
  omega

/-- The addition of round `i` inverts unless bit `i` is clear or the first set. -/
theorem counts_addStep (build : Build) {k i : Nat} (hk : (k : Int) < Secp256k1.n) {R Q : AffinePoint}
    (hR : Denotes R ((k % 2 ^ i) • A)) (hQ : Denotes Q ((2 ^ i) • A)) :
    Counts (if mpzTstbit k i then pointAddWith (countedInv build) R Q else pure R)
      (liftM (if mpzTstbit k i then pointAdd build R Q else .ok R))
      fun _ => (ones k (i + 1) - 1) - (ones k i - 1) := by
  have hbit : mpzTstbit k i = k.testBit i := rfl
  rw [hbit, ones_succ]
  cases hb : k.testBit i with
  | false =>
    simp only [Bool.false_eq_true, if_false, Nat.add_zero, Nat.sub_self]
    exact Counts.pure R
  | true =>
    simp only [if_true]
    have hle : 2 ^ i ≤ k := Nat.ge_two_pow_of_testBit hb
    by_cases h0 : k % 2 ^ i = 0
    · -- nothing was added before
      rw [h0, zero_nsmul] at hR
      rw [(ones_eq_zero_iff k i).mpr h0]
      exact counts_pointAdd_infinity build hR Q
    · have hpos : 0 < 2 ^ i := Nat.two_pow_pos i
      have hones : ones k i ≠ 0 := fun h => h0 ((ones_eq_zero_iff k i).mp h)
      have hmod : k % 2 ^ i ≤ k := Nat.mod_le _ _
      have hsum : (k % 2 ^ i) • A + (2 ^ i) • A ≠ 0 := by
        have hbound : k % 2 ^ (i + 1) ≤ k := Nat.mod_le _ _
        rw [mod_two_pow_succ, hb, if_pos rfl] at hbound
        rw [← add_nsmul]
        exact nsmul_ne_zero hA (by omega) (by omega)
      have hcount := counts_pointAdd build hR hQ (nsmul_ne_zero hA h0 (by omega))
        (nsmul_ne_zero hA (by omega) (by omega)) hsum
      exact hcount.of_returns fun _ _ _ _ => by omega

theorem counts_doubleStep (build : Build) {k i numBits : Nat} (hk : (k : Int) < Secp256k1.n)
    (hbits : 2 ^ (numBits - 1) ≤ k) {Q : AffinePoint} (hQ : Denotes Q ((2 ^ i) • A)) :
    Counts (if i + 1 < numBits then pointDoubleWith (countedInv build) Q else pure Q)
      (liftM (if i + 1 < numBits then pointDouble build Q else .ok Q))
      fun _ => if i + 1 < numBits then 1 else 0 := by
  by_cases hlast : i + 1 < numBits
  · simp only [if_pos hlast]
    have hpow : 2 ^ i ≤ 2 ^ (numBits - 1) := Nat.pow_le_pow_right (by omega) (by omega)
    have hpos : 0 < 2 ^ i := Nat.two_pow_pos i
    exact counts_pointDouble build hQ (nsmul_ne_zero hA (by omega) (by omega))
  · simp only [if_neg hlast]
    exact Counts.pure Q

/-- The loop from bit `i` on: an inversion for each set bit that is not the
first, and for each bit that is not the last. -/
theorem counts_scalarMulLoop (build : Build) {k : Nat} (hk : (k : Int) < Secp256k1.n) (numBits : Nat)
    (hbits : 2 ^ (numBits - 1) ≤ k) :
    ∀ (todo i : Nat) (R Q : AffinePoint), i + todo = numBits → Denotes R ((k % 2 ^ i) • A) →
      (todo ≠ 0 → Denotes Q ((2 ^ i) • A)) →
      Counts (scalarMulLoopWith (countedInv build) k numBits todo i R Q)
        (liftM (scalarMulLoop build k numBits todo i R Q))
        fun _ => (todo - 1) + ((ones k numBits - 1) - (ones k i - 1)) := by
  intro todo
  induction todo with
  | zero =>
    intro i R Q hi _ _
    obtain rfl : i = numBits := by omega
    exact (Counts.pure R).of_returns fun _ _ _ _ => by omega
  | succ todo ih =>
    intro i R Q hi hR hQ
    have hQ' := hQ (by omega)
    have hadd := counts_addStep hA build hk hR hQ'
    have hdouble := counts_doubleStep hA build hk hbits hQ'
    have hrest : ∀ R', (if mpzTstbit k i then pointAdd build R Q else .ok R) = .ok R' →
        ∀ Q', (if i + 1 < numBits then pointDouble build Q else .ok Q) = .ok Q' →
        Counts (scalarMulLoopWith (countedInv build) k numBits todo (i + 1) R' Q')
          (liftM (scalarMulLoop build k numBits todo (i + 1) R' Q'))
          fun _ => (todo - 1) + ((ones k numBits - 1) - (ones k (i + 1) - 1)) := by
      intro R' hR' Q' hQ''
      refine ih (i + 1) R' Q' (by omega) (addStep_denotes hR hQ' hR') ?_
      intro h
      rw [if_pos (by omega)] at hQ''
      exact doubled_denotes hQ' hQ''
    rw [scalarMulLoopWith_succ, scalarMulLoop_succ]
    refine Counts.of_returns (hadd.bind_lift fun R' hR' => hdouble.bind_lift (hrest R' hR')) ?_
    intro _ _ _ _
    have hlo := ones_le k (show i ≤ i + 1 by omega)
    have hhi := ones_le k (show i + 1 ≤ numBits by omega)
    split <;> omega

end

/-! ## All scalars -/

theorem scalarMulWith_pos {m : Type → Type} [Monad m] (inv : Int → Int → m Int) {k : Nat} (hk : k ≠ 0)
    {P : AffinePoint} (hP : P.infinity = false) : scalarMulWith inv k P =
      scalarMulLoopWith inv k (mpzSizeinbase2 k) (mpzSizeinbase2 k) 0 identity P := by
  unfold scalarMulWith
  simp only [hP, Bool.false_eq_true, if_false, if_neg (show ¬ (k : Int) = 0 by omega),
    if_neg (show ¬ (k : Int) < 0 by omega)]

theorem counts_scalarMul (build : Build) {P : AffinePoint} {A : Group} (hP : Denotes P A) (hA : A ≠ 0)
    {k : Int} (hk : NonzeroBelow Secp256k1.n k) :
    Counts (scalarMulWith (countedInv build) k P) (liftM (scalarMul build k P))
      fun _ => ladderInversions k.toNat := by
  obtain ⟨hk1, hkn⟩ := hk
  obtain ⟨j, rfl⟩ := Int.eq_ofNat_of_zero_le (show 0 ≤ k by omega)
  have hj : j ≠ 0 := by omega
  have hfin := hP.infinity_eq_false hA
  have hbits : 2 ^ (mpzSizeinbase2 j - 1) ≤ j := Nat.log2_self_le hj
  have hloop := counts_scalarMulLoop hA build hkn (mpzSizeinbase2 j) hbits (mpzSizeinbase2 j) 0 identity P
    (by omega) (by rw [pow_zero, Nat.mod_one, zero_nsmul]; exact .infinity)
    (fun _ => by rwa [pow_zero, one_nsmul])
  rw [scalarMulWith_pos _ hj hfin, scalarMul_pos build (by simp [hfin]) (by omega)]
  exact hloop

/-! ## The dearest scalars -/

theorem testBit_of_ones_eq {k b : Nat} (h : ones k b = b) : ∀ i < b, k.testBit i = true := by
  induction b with
  | zero =>
    intro i hi
    omega
  | succ b ih =>
    have hle := ones_le_self k b
    rw [ones_succ] at h
    split at h
    · next hb =>
      intro i hi
      rcases Nat.lt_or_eq_of_le (Nat.le_of_lt_succ hi) with hlt | rfl
      · exact ih (by omega) i hlt
      · exact hb
    · omega

/-- Only `2^b - 1` has `b` bits that are all set. -/
theorem eq_of_ones_eq {k b : Nat} (hk : k < 2 ^ b) (h : ones k b = b) : k = 2 ^ b - 1 := by
  apply Nat.eq_of_testBit_eq
  intro i
  rw [Nat.testBit_two_pow_sub_one]
  by_cases hi : i < b
  · rw [testBit_of_ones_eq h i hi, decide_eq_true hi]
  · rw [Nat.testBit_lt_two_pow (hk.trans_le (Nat.pow_le_pow_right (by omega) (by omega))), decide_eq_false hi]

/-- `2^256 - 1` is not a scalar, so not all of 256 bits are set. -/
theorem ladderInversions_le {k : Int} (hk : NonzeroBelow Secp256k1.n k) :
    ladderInversions k.toNat ≤ 509 := by
  obtain ⟨hk1, hkn⟩ := hk
  obtain ⟨j, rfl⟩ := Int.eq_ofNat_of_zero_le (show 0 ≤ k by omega)
  have hn : Secp256k1.n < 2 ^ 256 - 1 := by decide
  have hlog : j.log2 < 256 := (Nat.log2_lt (by omega)).mpr (by omega)
  have hbits : mpzSizeinbase2 j = j.log2 + 1 := rfl
  have hones := ones_le_self j (mpzSizeinbase2 j)
  have hne : ¬ ones j 256 = 256 := by
    intro h
    have := eq_of_ones_eq (show j < 2 ^ 256 by omega) h
    omega
  have h256 : mpzSizeinbase2 j = 256 → ones j (mpzSizeinbase2 j) ≠ 256 := by
    intro h
    rw [h]
    exact hne
  rw [Int.toNat_natCast]
  unfold ladderInversions
  omega

/-- `2^256 - 1 - 2^129` is a scalar. -/
example : ladderInversions (2 ^ 256 - 1 - 2 ^ 129) = 509 := by decide +kernel

/-- **The inversions of `scalar_mul`**: the counted run returns what the code
returns, with one inversion for each bit below the highest and one for each set
bit but the first, 509 at most. -/
theorem scalarMul_inversions {P : AffinePoint} (hP : Valid P) (hfin : P.infinity = false) {k : Int}
    (hk : NonzeroBelow Secp256k1.n k) :
    ladderInversions k.toNat ≤ 509 ∧ ∃ R, ∀ build, scalarMul build k P = .ok R ∧ ∀ c tape,
      ((scalarMulWith (countedInv build) k P).run c).run tape = (.ok (R, c + ladderInversions k.toNat), tape) := by
  have hden := hP.denotes
  have hA : toGroup P ≠ 0 := by
    intro h0
    rw [hden.infinity_iff.mpr h0] at hfin
    cases hfin
  obtain ⟨R, hR, -⟩ := scalarMul_denotes k hden
  exact ⟨ladderInversions_le hk, R, fun build => ⟨hR build, (counts_scalarMul build hden hA hk).run_of_ok (hR build)⟩⟩

theorem scalarMul_inversions_seven : Valid generator ∧ generator.infinity = false ∧
    NonzeroBelow Secp256k1.n 7 ∧ ∃ R, ∀ build, scalarMul build 7 generator = .ok R ∧ ∀ c tape,
      ((scalarMulWith (countedInv build) 7 generator).run c).run tape = (.ok (R, c + 4), tape) :=
  ⟨generator_valid, rfl, ⟨by decide, by decide⟩,
    (scalarMul_inversions generator_valid rfl (k := 7) ⟨by decide, by decide⟩).2⟩

/-! ## The pipelines -/

theorem counts_countedInv (build : Build) (a q : Int) :
    Counts (countedInv build a q) (liftM (modInv build a q)) fun _ => 1 :=
  Counts.counted (drawnInv build a q)

theorem signSPhaseWith_eq (inv : Int → Int → Counted Stop Int) (d z k r : Int) :
    signSPhaseWith inv d z k r = inv k Secp256k1.n >>= fun kInv => liftM (liftM (sPhaseEnd d z r kInv) : Rand Signature) := by
  unfold signSPhaseWith sPhaseEnd
  refine bind_congr ?_
  intro kInv
  simp only
  split <;> rfl

theorem counts_signSPhase (build : Build) (d z k r : Int) :
    Counts (signSPhaseWith (countedInv build) d z k r) (liftM (signSPhase build d z k r)) fun _ => 1 := by
  rw [signSPhase_eq, signSPhaseWith_eq]
  exact (counts_countedInv build k Secp256k1.n).bind_lift fun kInv _ => Counts.lift _

theorem signWithNonceWith_eq (inv : Int → Int → Counted Stop Int) (d z k : Int) :
    signWithNonceWith inv d z k = scalarMulWith inv k generator >>= fun R =>
      if R.x.tmod Secp256k1.n = 0 then
        liftM (Except.error (.thrown "ECDSA sign: r == 0 (cosmically unlikely)") : Run Signature)
      else signSPhaseWith inv d z k (R.x.tmod Secp256k1.n) := by
  unfold signWithNonceWith
  refine bind_congr ?_
  intro R
  simp only
  split <;> rfl

theorem counts_signWithNonce (build : Build) (d z : Int) {k : Int} (hk : NonzeroBelow Secp256k1.n k) :
    Counts (signWithNonceWith (countedInv build) d z k) (liftM (signWithNonce build d z k))
      fun _ => ladderInversions k.toNat + 1 := by
  rw [signWithNonce_eq, signWithNonceWith_eq]
  refine (counts_scalarMul build generator_denotes G_ne_zero hk).bind_lift fun R _ => ?_
  split
  · exact Counts.error _ _
  · exact counts_signSPhase build _ _ _ _

/-- With its nonce `sign_with_hash` costs one inversion more than `k G`. -/
theorem counts_signWithHash (build : Build) {fuel : Nat} {d k : Int} {h : Sha256Hash}
    (hk : deriveNonce fuel d h Secp256k1.n = .ok k) :
    Counts (signWithHashWith (countedInv build) fuel d h) (liftM (signWithHash build fuel d h))
      fun _ => ladderInversions k.toNat + 1 := by
  rw [signWithHash_eq, hk, Run.ok_bind]
  unfold signWithHashWith
  simp only [hk, counted_ok_bind]
  exact counts_signWithNonce build d _ (deriveNonce_range hk)

/-- Presigning costs its nonce point. -/
theorem counts_thresholdPresign (build : Build) (key : ThresholdKey) :
    Counts (thresholdPresignWith (countedInv build) key) (thresholdPresign build key)
      fun p => ladderInversions (modMul p.kA p.kB Secp256k1.n).toNat := by
  have hdraw := (uniformNonzeroBelow_yields Secp256k1.n).returns
  refine (Counts.lift _).bind_drawn hdraw ?_
  intro kA hA
  refine (Counts.lift _).bind_drawn hdraw ?_
  intro kB hB
  have hk := modMul_rep (canon_of_range hA).rep (canon_of_range hB).rep
  have hk0 : modMul kA kB Secp256k1.n ≠ 0 := by
    intro h0
    exact mul_ne_zero (cast_ne_zero_of_range hA) (cast_ne_zero_of_range hB) (hk.eq_zero_iff.mp h0)
  have hladder := counts_scalarMul build generator_denotes G_ne_zero (hk.1.range hk0)
  rw [← scalarMulWith_drawnInv] at hladder
  refine Counts.of_returns (hladder.free_rest ?_) ?_
  · intro R
    split
    · exact Counts.lift _
    refine (Counts.lift _).bind_free ?_
    intro sk1
    refine (Counts.lift _).bind_free ?_
    intro k1
    exact Counts.pure _
  · -- the presign returned holds the two draws
    refine Returns.bind (P := fun _ => True) (fun _ _ _ _ => trivial) ?_
    intro R _
    split
    · exact Returns.throw _ _
    refine Returns.bind (P := fun _ => True) (fun _ _ _ _ => trivial) ?_
    intro sk1 _
    refine Returns.bind (P := fun _ => True) (fun _ _ _ _ => trivial) ?_
    intro k1 _
    exact Returns.pure rfl

/-- The online phase inverts once, whatever it is given. -/
theorem counts_thresholdSign (build : Build) (key : ThresholdKey) (p : ThresholdPresign) (h : Sha256Hash) :
    Counts (thresholdSignWith (countedInv build) key p h) (thresholdSign build key p h) fun _ => 1 := by
  have hmasked (T : BeaverTriple) :
      Counts (maskedInverseRunWith (countedInv build) p.k1 p.k2 T Secp256k1.n)
        (maskedInverseRun build p.k1 p.k2 T Secp256k1.n) fun _ => 1 := by
    refine (Counts.lift _).bind_free ?_
    intro r1
    refine (Counts.lift _).bind_free ?_
    intro r2
    refine (Counts.counted _).free_rest ?_
    intro mInv
    exact Counts.pure _
  have hrun : Counts (thresholdSignRunWith (countedInv build) p h) (thresholdSignRun build p h) fun _ => 1 := by
    refine (Counts.lift _).bind_free ?_
    intro T1
    refine (hmasked T1).free_rest ?_
    intro M
    refine (Counts.lift _).bind_free ?_
    intro T2
    exact Counts.pure _
  refine hrun.free_rest ?_
  intro run
  split
  · exact Counts.lift _
  · exact Counts.pure _

/-- **What the pipelines cost**: signing with nonce `k` inverts as often as `k G`
and once more, with one signer as with two; all but one of the two parties'
inversions are made when presigning. -/
theorem signing_inversions (build : Build) {fuel : Nat} {d k : Int} {h : Sha256Hash}
    (hk : deriveNonce fuel d h Secp256k1.n = .ok k) (key : ThresholdKey) :
    Counts (signWithHashWith (countedInv build) fuel d h) (liftM (signWithHash build fuel d h))
        (fun _ => ladderInversions k.toNat + 1) ∧
      Counts (thresholdPresignWith (countedInv build) key) (thresholdPresign build key)
        (fun p => ladderInversions (modMul p.kA p.kB Secp256k1.n).toNat) ∧
      (∀ p, Counts (thresholdSignWith (countedInv build) key p h) (thresholdSign build key p h) fun _ => 1) ∧
      Counts (do
          let p ← thresholdPresignWith (countedInv build) key
          let sig ← thresholdSignWith (countedInv build) key p h
          return (p, sig))
        (do
          let p ← thresholdPresign build key
          let sig ← thresholdSign build key p h
          return (p, sig))
        (fun out => ladderInversions (modMul out.1.kA out.1.kB Secp256k1.n).toNat + 1) := by
  refine ⟨counts_signWithHash build hk, counts_thresholdPresign build key,
    fun p => counts_thresholdSign build key p h, ?_⟩
  refine (counts_thresholdPresign build key).bind_of_returns (P := fun _ => True) (fun _ _ _ _ => trivial)
    (fun p _ => (counts_thresholdSign build key p h).free_rest fun sig => Counts.pure (p, sig)) ?_
  intro p _
  refine Returns.bind (P := fun _ => True) (fun _ _ _ _ => trivial) ?_
  intro sig _
  exact Returns.pure rfl

theorem signing_inversions_one : deriveNonce 1 1 (doubleSha256 []) Secp256k1.n = .ok (nonceOne : Int) ∧
    Counts (signWithHashWith (countedInv .release) 1 1 (doubleSha256 []))
      (liftM (signWithHash .release 1 1 (doubleSha256 []))) fun _ => 375 := by
  have hcost : ladderInversions (nonceOne : Int).toNat + 1 = 375 := by decide +kernel
  refine ⟨deriveNonce_one, ?_⟩
  rw [← hcost]
  exact (signing_inversions .release deriveNonce_one ⟨1, 1, generator⟩).1

end Tecdsa
