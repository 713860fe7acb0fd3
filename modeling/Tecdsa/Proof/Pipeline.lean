import Mathlib.Data.Set.Function
import Tecdsa.Proof.Sampling
import Tecdsa.Proof.Session

/-!
# Presigning and signing draw what the single signer computes

`presignAndSign` runs both halves of the threshold pipeline, and
`signWithNonce` is what follows the nonce in `sign_with_hash`.  The tapes on
which the pipeline returns an `r` that is not zero are known, and on them it is
the single signer with nonce `kA kB` and key `skA skB`:

    run_presignAndSign_iff

With every other draw fixed, `kB ↦ kA kB` is one to one from the shares that
make a signature onto the nonces that make it:

    presignAndSign_distribution
-/

namespace Tecdsa

open Residue SharedDivision

/-- `threshold_presign`, then `threshold_sign`. -/
def presignAndSign (build : Build) (key : ThresholdKey) (h : Sha256Hash) : Rand Signature := do
  let p ← thresholdPresign build key
  thresholdSign build key p h

/-! ## The single signer -/

/-- What `sign_with_hash` returns, its nonce makes, and its `r` is not zero. -/
theorem signWithNonce_of_sign {build : Build} {fuel : Nat} {d : Int} {h : Sha256Hash} {sig : Signature}
    (hsig : signWithHash build fuel d h = .ok sig) :
    ∃ k, NonzeroBelow Secp256k1.n k ∧ signWithNonce build d (hashToScalar h Secp256k1.n) k = .ok sig := by
  rw [signWithHash_eq] at hsig
  obtain ⟨k, hk, hsig⟩ := Run.bind_eq_ok hsig
  exact ⟨k, deriveNonce_range hk, hsig⟩

/-- The signatures of a nonce whose `r` is not zero. -/
theorem signWithNonce_iff (build : Build) {d k : Int} (hd : Canon Secp256k1.n d) (hk : NonzeroBelow Secp256k1.n k)
    {R : AffinePoint} (hR : Denotes R (secp.base (k : Fn))) (h : Sha256Hash) {sig : Signature} (hr : sig.r ≠ 0) :
    signWithNonce build d (hashToScalar h Secp256k1.n) k = .ok sig ↔
      ∃ s, s = signScalar k (hashToScalar h Secp256k1.n) (R.x.tmod Secp256k1.n) d ∧ s ≠ 0 ∧
        sig = ⟨R.x.tmod Secp256k1.n, normalizeLowS s Secp256k1.n⟩ := by
  have hk0 := cast_ne_zero_of_range hk
  obtain ⟨R', hR', hden⟩ := scalarMul_base (canon_of_range hk).rep
  obtain rfl : R' = R := hden.record_unique hR (hden.finite_of_ne_zero hk0)
  obtain ⟨ρ, -, hρ⟩ := tmod_n_rep hden (hden.finite_of_ne_zero hk0)
  obtain ⟨s, hs, hphase⟩ := signSPhase_spec hd.rep (hashToScalar_rep h).1.rep (canon_of_range hk).rep hρ hk0
  have hss : s = signScalar k (hashToScalar h Secp256k1.n) (R'.x.tmod Secp256k1.n) d :=
    hs.congr ((signScalar_rep _ _ _ _).of_cast (by rw [hρ.2]))
  rw [signWithNonce_of_point (hR' build), hphase build, ← hss]
  constructor
  · intro heq
    split at heq
    · cases heq
    · split at heq
      · cases heq
      · next hs0 =>
        cases heq
        exact ⟨s, rfl, hs0, rfl⟩
  · rintro ⟨_, rfl, hs0, rfl⟩
    rw [if_neg hr, if_neg hs0]

/-! ## Two parties -/

section
variable {key : ThresholdKey} {p : ThresholdPresign} {h : Sha256Hash} {tape rest : List Int} {sig : Signature}

/-- The tapes on which `threshold_sign` returns. -/
theorem run_thresholdSign_iff (hp : CanonPresign p) (hk : (p.k1 + p.k2) % Secp256k1.n ≠ 0) :
    (thresholdSign .release key p h).run tape = (.ok sig, rest) ↔
      ∃ t : Tape Int, t.All (Canon Secp256k1.n) ∧ tape = t.toList ++ rest ∧
        (t.r1 + t.r2) % Secp256k1.n ≠ 0 ∧
        ∃ s, s = signScalar ((p.k1 + p.k2) % Secp256k1.n) (hashToScalar h Secp256k1.n) p.r
          ((p.sk1 + p.sk2) % Secp256k1.n) ∧ s ≠ 0 ∧ sig = ⟨p.r, normalizeLowS s Secp256k1.n⟩ := by
  constructor
  · exact thresholdSign_eq_ok hp hk
  · rintro ⟨t, ht, rfl, hmask, s, hs, hs0, rfl⟩
    rw [run_thresholdSign_masked hp hk h ht hmask .release key rest hs, if_neg hs0]

/-- With a presign, the single signer's signature under the shared nonce. -/
theorem run_thresholdSign_nonce (hskA : NonzeroBelow Secp256k1.n key.skA)
    (hskB : NonzeroBelow Secp256k1.n key.skB) (hp : PresignDrawn key p) (hr : sig.r ≠ 0) :
    (thresholdSign .release key p h).run tape = (.ok sig, rest) ↔
      ∃ t : Tape Int, t.All (Canon Secp256k1.n) ∧ tape = t.toList ++ rest ∧
        (t.r1 + t.r2) % Secp256k1.n ≠ 0 ∧
        signWithNonce .release (key.skA * key.skB % Secp256k1.n) (hashToScalar h Secp256k1.n)
          (p.kA * p.kB % Secp256k1.n) = .ok sig := by
  have hagreed := hp.agreed hskA hskB
  have hk := (canon_emod n_pos (p.kA * p.kB)).range (hagreed.k ▸ hagreed.k_ne_zero)
  have hR : Denotes p.R (secp.base ((p.kA * p.kB % Secp256k1.n : Int) : Fn)) := by
    rw [cast_emod n_pos.le, Int.cast_mul]
    exact hp.R
  rw [run_thresholdSign_iff hagreed.shares hagreed.k_ne_zero, hagreed.k, hagreed.sk, hp.r]
  simp only [signWithNonce_iff .release (canon_emod n_pos (key.skA * key.skB)) hk hR h hr]

/-- The presign of four draws. -/
theorem exists_presign (build : Build) (key : ThresholdKey) {kA kB sk1 k1 : Int} (hA : NonzeroBelow Secp256k1.n kA)
    (hB : NonzeroBelow Secp256k1.n kB) (hsk1 : Canon Secp256k1.n sk1) (hk1 : Canon Secp256k1.n k1) :
    ∃ p, (p.kA = kA ∧ p.kB = kB) ∧ PresignDrawn key p ∧ ∀ i j rest, (thresholdPresign build key).run
      (List.replicate i 0 ++ kA :: (List.replicate j 0 ++ kB :: sk1 :: k1 :: rest)) = (.ok p, rest) := by
  obtain ⟨p, hrun, -⟩ := presignDrawn_of_draws build key hA hB hsk1 hk1
  obtain ⟨⟨rfl, rfl, rfl, rfl⟩, hp⟩ := run_thresholdPresign_draws.mp hrun
  exact ⟨p, ⟨rfl, rfl⟩, hp, fun i j rest => run_thresholdPresign_iff.mpr ⟨⟨i, j, rfl⟩, hp⟩⟩

variable (hskA : NonzeroBelow Secp256k1.n key.skA) (hskB : NonzeroBelow Secp256k1.n key.skB)
include hskA hskB

/-- The tapes on which the pipeline returns. -/
theorem run_presignAndSign_iff (hr : sig.r ≠ 0) :
    (presignAndSign .release key h).run tape = (.ok sig, rest) ↔
      ∃ i j kA kB sk1 k1, ∃ t : Tape Int,
        tape = List.replicate i 0 ++ kA :: (List.replicate j 0 ++ kB :: sk1 :: k1 :: (t.toList ++ rest)) ∧
        (NonzeroBelow Secp256k1.n kA ∧ NonzeroBelow Secp256k1.n kB ∧ Canon Secp256k1.n sk1 ∧
          Canon Secp256k1.n k1 ∧ t.All (Canon Secp256k1.n) ∧ (t.r1 + t.r2) % Secp256k1.n ≠ 0) ∧
        signWithNonce .release (key.skA * key.skB % Secp256k1.n) (hashToScalar h Secp256k1.n)
          (kA * kB % Secp256k1.n) = .ok sig := by
  constructor
  · intro hrun
    obtain ⟨p, mid, hpre, hsign⟩ := Draws.run_bind_eq_ok hrun
    obtain ⟨⟨i, j, rfl⟩, hp⟩ := run_thresholdPresign_iff.mp hpre
    obtain ⟨t, ht, rfl, hmask, hsig⟩ := (run_thresholdSign_nonce hskA hskB hp hr).mp hsign
    exact ⟨i, j, p.kA, p.kB, p.sk1, p.k1, t, rfl, ⟨hp.kA, hp.kB, hp.sk1, hp.k1, ht, hmask⟩, hsig⟩
  · rintro ⟨i, j, kA, kB, sk1, k1, t, rfl, ⟨hA, hB, hsk1, hk1, ht, hmask⟩, hsig⟩
    obtain ⟨p, ⟨rfl, rfl⟩, hp, hpre⟩ := exists_presign .release key hA hB hsk1 hk1
    unfold presignAndSign
    rw [Draws.run_bind_of_ok (hpre i j _)]
    exact (run_thresholdSign_nonce hskA hskB hp hr).mpr ⟨t, ht, rfl, hmask, hsig⟩

/-- One tape: the signature of the shared nonce. -/
theorem run_presignAndSign_draws {kA kB sk1 k1 : Int} {t : Tape Int} (hA : NonzeroBelow Secp256k1.n kA)
    (hB : NonzeroBelow Secp256k1.n kB) (hsk1 : Canon Secp256k1.n sk1) (hk1 : Canon Secp256k1.n k1)
    (ht : t.All (Canon Secp256k1.n)) (hmask : (t.r1 + t.r2) % Secp256k1.n ≠ 0) (hr : sig.r ≠ 0) :
    (presignAndSign .release key h).run (kA :: kB :: sk1 :: k1 :: t.toList) = (.ok sig, []) ↔
      signWithNonce .release (key.skA * key.skB % Secp256k1.n) (hashToScalar h Secp256k1.n)
          (kA * kB % Secp256k1.n) = .ok sig := by
  obtain ⟨p, ⟨rfl, rfl⟩, hp, hpre⟩ := exists_presign .release key hA hB hsk1 hk1
  have hrun : (thresholdPresign .release key).run (p.kA :: p.kB :: sk1 :: k1 :: t.toList) = (.ok p, t.toList) :=
    hpre 0 0 t.toList
  unfold presignAndSign
  rw [Draws.run_bind_of_ok hrun, run_thresholdSign_nonce hskA hskB hp hr]
  constructor
  · rintro ⟨-, -, -, -, hsig⟩
    exact hsig
  · intro hsig
    exact ⟨t, ht, (List.append_nil _).symm, hmask, hsig⟩

end

/-- With one share fixed, the other is mapped one to one onto the nonces. -/
theorem bijOn_nonce {kA : Int} (hA : NonzeroBelow Secp256k1.n kA) :
    Set.BijOn (fun kB => kA * kB % Secp256k1.n) {kB | NonzeroBelow Secp256k1.n kB}
      {k | NonzeroBelow Secp256k1.n k} := by
  have hcast (kB : Int) : ((kA * kB % Secp256k1.n : Int) : Fn) = (kA : Fn) * (kB : Fn) := by
    rw [cast_emod n_pos.le, Int.cast_mul]
  refine ⟨?_, ?_, ?_⟩
  · intro kB hB
    exact (canon_emod n_pos (kA * kB)).range (emod_mul_ne_zero hA hB)
  · intro kB hB kB' hB' heq
    obtain ⟨b, -, hb⟩ := existsUnique_factor hA (mul_ne_zero (cast_ne_zero_of_range hA) (cast_ne_zero_of_range hB))
    have hsame : (kA : Fn) * (kB' : Fn) = (kA : Fn) * (kB : Fn) := by
      rw [← hcast, ← hcast]
      exact congrArg (fun x : Int => (x : Fn)) heq.symm
    exact (hb kB ⟨hB, rfl⟩).trans (hb kB' ⟨hB', hsame⟩).symm
  · intro k hk
    obtain ⟨b, ⟨hb, hab⟩, -⟩ := existsUnique_factor hA (cast_ne_zero_of_range hk)
    refine ⟨b, hb, ?_⟩
    exact (canon_emod n_pos _).rep.congr ((canon_of_range hk).rep.of_cast (by rw [hcast, hab]))

/-- **The threshold pipeline draws the single signer's signatures**, as long as
`r` is not zero, which only the single signer tests: the tapes it returns on are
known; with every draw but `kB` fixed, the `kB` that make a signature are as
many as the nonces with which the single signer, whose key is `skA skB`, makes
it; and what `sign_with_hash` returns is among them. -/
theorem presignAndSign_distribution {key : ThresholdKey} (hskA : NonzeroBelow Secp256k1.n key.skA)
    (hskB : NonzeroBelow Secp256k1.n key.skB) (h : Sha256Hash) :
    (∀ tape rest sig, sig.r ≠ 0 → ((presignAndSign .release key h).run tape = (.ok sig, rest) ↔
      ∃ i j kA kB sk1 k1, ∃ t : Tape Int,
        tape = List.replicate i 0 ++ kA :: (List.replicate j 0 ++ kB :: sk1 :: k1 :: (t.toList ++ rest)) ∧
        (NonzeroBelow Secp256k1.n kA ∧ NonzeroBelow Secp256k1.n kB ∧ Canon Secp256k1.n sk1 ∧
          Canon Secp256k1.n k1 ∧ t.All (Canon Secp256k1.n) ∧ (t.r1 + t.r2) % Secp256k1.n ≠ 0) ∧
        signWithNonce .release (key.skA * key.skB % Secp256k1.n) (hashToScalar h Secp256k1.n)
          (kA * kB % Secp256k1.n) = .ok sig)) ∧
    (∀ sig kA sk1 k1, ∀ t : Tape Int, sig.r ≠ 0 → NonzeroBelow Secp256k1.n kA → Canon Secp256k1.n sk1 →
      Canon Secp256k1.n k1 → t.All (Canon Secp256k1.n) → (t.r1 + t.r2) % Secp256k1.n ≠ 0 →
      Set.BijOn (fun kB => kA * kB % Secp256k1.n)
        {kB | NonzeroBelow Secp256k1.n kB ∧
          (presignAndSign .release key h).run (kA :: kB :: sk1 :: k1 :: t.toList) = (.ok sig, [])}
        {k | NonzeroBelow Secp256k1.n k ∧
          signWithNonce .release (key.skA * key.skB % Secp256k1.n) (hashToScalar h Secp256k1.n) k = .ok sig}) ∧
    ∀ fuel sig, signWithHash .release fuel (key.skA * key.skB % Secp256k1.n) h = .ok sig → sig.r ≠ 0 ∧
      ∃ k, NonzeroBelow Secp256k1.n k ∧
        signWithNonce .release (key.skA * key.skB % Secp256k1.n) (hashToScalar h Secp256k1.n) k = .ok sig := by
  refine ⟨fun tape rest sig hr => run_presignAndSign_iff hskA hskB hr, ?_, ?_⟩
  · intro sig kA sk1 k1 t hr hA hsk1 hk1 ht hmask
    obtain ⟨hmaps, hinj, hsurj⟩ := bijOn_nonce hA
    refine ⟨?_, ?_, ?_⟩
    · rintro kB ⟨hB, hrun⟩
      exact ⟨hmaps hB, (run_presignAndSign_draws hskA hskB hA hB hsk1 hk1 ht hmask hr).mp hrun⟩
    · exact hinj.mono fun kB hkB => hkB.1
    · rintro k ⟨hk, hsig⟩
      obtain ⟨kB, hB, rfl⟩ := hsurj hk
      exact ⟨kB, ⟨hB, (run_presignAndSign_draws hskA hskB hA hB hsk1 hk1 ht hmask hr).mpr hsig⟩, rfl⟩
  · intro fuel sig hsig
    exact ⟨signWithHash_r_ne_zero hsig, signWithNonce_of_sign hsig⟩

theorem signWithNonce_sample :
    signWithNonce .release (1 * 1 % Secp256k1.n) (hashToScalar zeroHash Secp256k1.n) 1 =
      .ok ⟨Secp256k1.gx, Secp256k1.gx⟩ := by decide +kernel

/-- The nonce 1 makes this signature on both sides. -/
theorem presignAndSign_distribution_sample : NonzeroBelow Secp256k1.n sampleKey.skA ∧
    (presignAndSign .release sampleKey zeroHash).run (1 :: 1 :: 0 :: 0 :: sampleTape.toList) =
      (.ok ⟨Secp256k1.gx, Secp256k1.gx⟩, []) ∧
    Set.BijOn (fun kB => 1 * kB % Secp256k1.n)
      {kB | NonzeroBelow Secp256k1.n kB ∧ (presignAndSign .release sampleKey zeroHash).run
        (1 :: kB :: 0 :: 0 :: sampleTape.toList) = (.ok ⟨Secp256k1.gx, Secp256k1.gx⟩, [])}
      {k | NonzeroBelow Secp256k1.n k ∧
        signWithNonce .release (1 * 1 % Secp256k1.n) (hashToScalar zeroHash Secp256k1.n) k =
          .ok ⟨Secp256k1.gx, Secp256k1.gx⟩} := by
  have hone : NonzeroBelow Secp256k1.n 1 := ⟨by decide, by decide⟩
  have hzero : Canon Secp256k1.n 0 := by decide
  have hr : Secp256k1.gx ≠ 0 := by decide
  obtain ⟨hruns, hbij, -⟩ := @presignAndSign_distribution sampleKey hone hone zeroHash
  refine ⟨hone, (hruns _ [] _ hr).mpr ?_, hbij _ 1 0 0 sampleTape hr hone hzero hzero sampleTape_canon (by decide)⟩
  exact ⟨0, 0, 1, 1, 0, 0, sampleTape, by rfl, ⟨hone, hone, hzero, hzero, sampleTape_canon, by decide⟩,
    signWithNonce_sample⟩

end Tecdsa
