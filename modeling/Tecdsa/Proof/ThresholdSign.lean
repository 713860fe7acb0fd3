import Tecdsa.Proof.SharedSigning
import Tecdsa.Proof.Sign

/-!
# `threshold_sign` is the single-signer formula

Whatever the shares, the triples and the mask, `threshold_sign` returns what
the second half of `sign_with_hash` computes for `sk = sk1 + sk2` and
`k = k1 + k2`; without a mask, or for `s = 0`, it throws.

    run_thresholdSign_masked, run_thresholdSign_unmasked            one run
    thresholdSign_eq_ok                                             every run that returns
-/

namespace Tecdsa

open Residue SharedDivision

/-! ## The formula -/

/-- `k⁻¹ (z + r sk)` modulo `n`. -/
def signScalar (k z r sk : Int) : Int := lift ((k : Fn)⁻¹ * ((z : Fn) + (r : Fn) * (sk : Fn)))

theorem signScalar_rep (k z r sk : Int) :
    Rep Secp256k1.n (signScalar k z r sk) ((k : Fn)⁻¹ * ((z : Fn) + (r : Fn) * (sk : Fn))) :=
  rep_lift n_pos _

theorem emod_n_eq_zero_iff (x : Int) : x % Secp256k1.n = 0 ↔ (x : Fn) = 0 :=
  (rep_emod n_pos x).eq_zero_iff

/-! ## One run -/

section
variable {p : ThresholdPresign} {h : Sha256Hash} {t : Tape Int}

/-- The divisor and the dividend of the run, as integers. -/
theorem signInputs_k (p : ThresholdPresign) (h : Sha256Hash) :
    (signInputs p h).k1 + (signInputs p h).k2 = (((p.k1 + p.k2) % Secp256k1.n : Int) : Fn) := by
  rw [cast_emod n_pos.le, Int.cast_add]
  rfl

theorem signInputs_y (p : ThresholdPresign) (h : Sha256Hash) :
    (signInputs p h).y1 + (signInputs p h).y2 = (hashToScalar h Secp256k1.n : Int) +
      (p.r : Fn) * (((p.sk1 + p.sk2) % Secp256k1.n : Int) : Fn) := by
  rw [cast_emod n_pos.le, Int.cast_add, mul_add, ← add_assoc]
  rfl

theorem castTape_mask (t : Tape Int) : (castTape t).r1 + (castTape t).r2 = ((t.r1 + t.r2 : Int) : Fn) :=
  (Int.cast_add _ _).symm

theorem signInputs_k_ne_zero (h : Sha256Hash) (hk : (p.k1 + p.k2) % Secp256k1.n ≠ 0) :
    (signInputs p h).k1 + (signInputs p h).k2 ≠ 0 := by
  rw [signInputs_k, cast_emod n_pos.le]
  exact fun h0 => hk ((emod_n_eq_zero_iff _).mpr h0)

theorem castTape_mask_ne_zero (ht : (t.r1 + t.r2) % Secp256k1.n ≠ 0) :
    (castTape t).r1 + (castTape t).r2 ≠ 0 := by
  rw [castTape_mask]
  exact fun h0 => ht ((emod_n_eq_zero_iff _).mpr h0)

theorem divide_m_ne_zero (h : Sha256Hash) (hk : (p.k1 + p.k2) % Secp256k1.n ≠ 0)
    (ht : (t.r1 + t.r2) % Secp256k1.n ≠ 0) : (divide (signInputs p h) (castTape t)).m ≠ 0 := by
  rw [divide_m]
  exact mul_ne_zero (signInputs_k_ne_zero h hk) (castTape_mask_ne_zero ht)

/-- What is opened as `s` when there is a mask. -/
theorem divide_s_eq (ht : (t.r1 + t.r2) % Secp256k1.n ≠ 0) :
    (divide (signInputs p h) (castTape t)).s =
      (((p.k1 + p.k2) % Secp256k1.n : Int) : Fn)⁻¹ * ((hashToScalar h Secp256k1.n : Int) +
        (p.r : Fn) * (((p.sk1 + p.sk2) % Secp256k1.n : Int) : Fn)) := by
  rw [divide_spec _ (castTape_mask_ne_zero ht), signInputs_k, signInputs_y]

/-- With a mask the run ends at the formula's `s`, in both builds. -/
theorem run_thresholdSign_masked (hp : CanonPresign p) (hk : (p.k1 + p.k2) % Secp256k1.n ≠ 0)
    (h : Sha256Hash) (ht : t.All (Canon Secp256k1.n)) (hmask : (t.r1 + t.r2) % Secp256k1.n ≠ 0)
    (build : Build) (key : ThresholdKey) (rest : List Int) {s : Int}
    (hs : s = signScalar ((p.k1 + p.k2) % Secp256k1.n) (hashToScalar h Secp256k1.n) p.r
      ((p.sk1 + p.sk2) % Secp256k1.n)) :
    (thresholdSign build key p h).run (t.toList ++ rest) =
      (if s = 0 then .error (.thrown "threshold_sign: s == 0 (cosmically unlikely)")
        else .ok ⟨p.r, normalizeLowS s Secp256k1.n⟩, rest) := by
  obtain ⟨run, hrun, hrep⟩ := run_thresholdSignRun hp h ht
    (show build = .release ∨ _ from Or.inr (divide_m_ne_zero h hk hmask)) rest
  have hrs : run.s = s := by
    rw [hs]
    exact (hrep.s.of_cast (divide_s_eq hmask)).congr (signScalar_rep _ _ _ _)
  unfold thresholdSign thresholdSignWith
  rw [thresholdSignRunWith_drawnInv, Draws.run_bind_of_ok hrun, hrs]
  split <;> rfl

/-- Without a mask the Release build throws, at the test of `s`. -/
theorem run_thresholdSign_unmasked (hp : CanonPresign p) (h : Sha256Hash)
    (ht : t.All (Canon Secp256k1.n)) (hmask : (t.r1 + t.r2) % Secp256k1.n = 0) (key : ThresholdKey)
    (rest : List Int) : (thresholdSign .release key p h).run (t.toList ++ rest) =
      (.error (.thrown "threshold_sign: s == 0 (cosmically unlikely)"), rest) := by
  obtain ⟨run, hrun, hrep⟩ := run_thresholdSignRun hp h ht (Or.inl rfl) rest
  have hzero : (divide (signInputs p h) (castTape t)).s = 0 := by
    apply divide_of_mask_zero
    rw [castTape_mask]
    exact (emod_n_eq_zero_iff _).mp hmask
  unfold thresholdSign thresholdSignWith
  rw [thresholdSignRunWith_drawnInv, Draws.run_bind_of_ok hrun, if_pos (hrep.s.eq_zero_iff.mpr hzero)]
  rfl

end

/-! ## Every run -/

theorem uniformBelow_eq_ok {q x : Int} {tape rest : List Int}
    (h : (uniformBelow q).run tape = (.ok x, rest)) : tape = x :: rest ∧ Canon q x := by
  obtain ⟨htape, hx⟩ := Draws.run_draw_eq_ok h
  exact ⟨htape, by simpa [Canon] using hx⟩

theorem generateTriple_eq_ok {q : Int} {tape rest : List Int} {T : BeaverTriple}
    (h : (generateTriple q).run tape = (.ok T, rest)) :
    ∃ t : Deal Int, t.All (Canon q) ∧ tape = t.toList ++ rest := by
  obtain ⟨a, tape₁, ha, h⟩ := Draws.run_bind_eq_ok h
  obtain ⟨b, tape₂, hb, h⟩ := Draws.run_bind_eq_ok h
  obtain ⟨a1, tape₃, ha1, h⟩ := Draws.run_bind_eq_ok h
  obtain ⟨b1, tape₄, hb1, h⟩ := Draws.run_bind_eq_ok h
  obtain ⟨c1, tape₅, hc1, hend⟩ := Draws.run_bind_eq_ok h
  cases hend
  obtain ⟨rfl, hac⟩ := uniformBelow_eq_ok ha
  obtain ⟨rfl, hbc⟩ := uniformBelow_eq_ok hb
  obtain ⟨rfl, ha1c⟩ := uniformBelow_eq_ok ha1
  obtain ⟨rfl, hb1c⟩ := uniformBelow_eq_ok hb1
  obtain ⟨rfl, hc1c⟩ := uniformBelow_eq_ok hc1
  exact ⟨⟨a, b, a1, b1, c1⟩, ⟨hac, hbc, ha1c, hb1c, hc1c⟩, rfl⟩

theorem maskedInverseRun_eq_ok {build : Build} {k1 k2 q : Int} {T : BeaverTriple}
    {tape rest : List Int} {run : MaskedRun}
    (h : (maskedInverseRun build k1 k2 T q).run tape = (.ok run, rest)) :
    ∃ r1 r2, Canon q r1 ∧ Canon q r2 ∧ tape = r1 :: r2 :: rest := by
  obtain ⟨r1, tape₁, hr1, h⟩ := Draws.run_bind_eq_ok h
  obtain ⟨r2, tape₂, hr2, h⟩ := Draws.run_bind_eq_ok h
  obtain ⟨mInv, tape₃, hinv, hend⟩ := Draws.run_bind_eq_ok h
  cases hend
  obtain ⟨-, rfl⟩ := Prod.mk.inj hinv
  obtain ⟨rfl, hr1c⟩ := uniformBelow_eq_ok hr1
  obtain ⟨rfl, hr2c⟩ := uniformBelow_eq_ok hr2
  exact ⟨r1, r2, hr1c, hr2c, rfl⟩

/-- A signature returned was made from twelve draws in range, with a mask, by
the formula. -/
theorem thresholdSign_eq_ok {p : ThresholdPresign} (hp : CanonPresign p)
    (hk : (p.k1 + p.k2) % Secp256k1.n ≠ 0) {h : Sha256Hash} {key : ThresholdKey}
    {tape rest : List Int} {sig : Signature}
    (hsig : (thresholdSign .release key p h).run tape = (.ok sig, rest)) :
    ∃ t : Tape Int, t.All (Canon Secp256k1.n) ∧ tape = t.toList ++ rest ∧
      (t.r1 + t.r2) % Secp256k1.n ≠ 0 ∧
      ∃ s, s = signScalar ((p.k1 + p.k2) % Secp256k1.n) (hashToScalar h Secp256k1.n) p.r
        ((p.sk1 + p.sk2) % Secp256k1.n) ∧ s ≠ 0 ∧ sig = ⟨p.r, normalizeLowS s Secp256k1.n⟩ := by
  obtain ⟨run, mid, hrun, hend⟩ := Draws.run_bind_eq_ok hsig
  obtain ⟨T1, tape₁, hT1, hrun⟩ := Draws.run_bind_eq_ok hrun
  obtain ⟨M, tape₂, hM, hrun⟩ := Draws.run_bind_eq_ok hrun
  obtain ⟨T2, tape₃, hT2, hrun⟩ := Draws.run_bind_eq_ok hrun
  obtain ⟨inv, hinv, rfl⟩ := generateTriple_eq_ok hT1
  obtain ⟨r1, r2, hr1, hr2, rfl⟩ := maskedInverseRun_eq_ok hM
  obtain ⟨mul, hmul, rfl⟩ := generateTriple_eq_ok hT2
  have ht : (Tape.mk inv r1 r2 mul).All (Canon Secp256k1.n) := ⟨hinv, hr1, hr2, hmul⟩
  have hlist := Tape.toList_append (Tape.mk inv r1 r2 mul) tape₃
  rw [← hlist] at hsig ⊢
  by_cases hmask : (r1 + r2) % Secp256k1.n = 0
  · rw [run_thresholdSign_unmasked hp h ht hmask] at hsig
    cases hsig
  · have hval := run_thresholdSign_masked hp hk h ht hmask .release key tape₃ rfl
    rw [hsig] at hval
    split at hval
    · cases hval
    · next hs =>
      cases hval
      exact ⟨_, ht, rfl, hmask, _, rfl, hs, rfl⟩

/-! ## The refinement -/

/-- **`threshold_sign` refines the single-signer formula**: with a mask and
`z + r sk ≠ 0` it returns `(r, min s (n - s))`, which is what the second half
of `sign_with_hash` returns; otherwise it throws. -/
theorem thresholdSign_refines_signSPhase {p : ThresholdPresign} (hp : CanonPresign p)
    (hk : (p.k1 + p.k2) % Secp256k1.n ≠ 0) (h : Sha256Hash) {t : Tape Int}
    (ht : t.All (Canon Secp256k1.n)) (key : ThresholdKey) (rest : List Int) :
    ∃ k sk z s, k = (p.k1 + p.k2) % Secp256k1.n ∧ sk = (p.sk1 + p.sk2) % Secp256k1.n ∧
      z = hashToScalar h Secp256k1.n ∧ s = signScalar k z p.r sk ∧
      ((t.r1 + t.r2) % Secp256k1.n ≠ 0 ∧ (z + p.r * sk) % Secp256k1.n ≠ 0 →
        ∀ build, (thresholdSign build key p h).run (t.toList ++ rest) =
            (.ok ⟨p.r, min s (Secp256k1.n - s)⟩, rest) ∧
          signSPhase build sk z k p.r = .ok ⟨p.r, min s (Secp256k1.n - s)⟩) ∧
      (¬ ((t.r1 + t.r2) % Secp256k1.n ≠ 0 ∧ (z + p.r * sk) % Secp256k1.n ≠ 0) →
        (thresholdSign .release key p h).run (t.toList ++ rest) =
          (.error (.thrown "threshold_sign: s == 0 (cosmically unlikely)"), rest)) := by
  have hz := hashToScalar_rep h
  have hkr := (canon_emod n_pos (p.k1 + p.k2)).rep
  have hskr := (canon_emod n_pos (p.sk1 + p.sk2)).rep
  have hk0 : (((p.k1 + p.k2) % Secp256k1.n : Int) : Fn) ≠ 0 := fun h0 => hk (hkr.eq_zero_iff.mpr h0)
  generalize hz' : hashToScalar h Secp256k1.n = z at hz
  generalize hk' : (p.k1 + p.k2) % Secp256k1.n = k at hkr hk0
  generalize hsk' : (p.sk1 + p.sk2) % Secp256k1.n = sk at hskr
  have hsrep := signScalar_rep k z p.r sk
  -- the opened `s` is zero exactly when `z + r sk` is
  have hzero : signScalar k z p.r sk = 0 ↔ (z + p.r * sk) % Secp256k1.n = 0 := by
    rw [hsrep.eq_zero_iff, emod_n_eq_zero_iff, mul_eq_zero, or_iff_right (inv_ne_zero hk0),
      Int.cast_add, Int.cast_mul]
  refine ⟨k, sk, z, signScalar k z p.r sk, rfl, rfl, rfl, rfl, ?_, ?_⟩
  · rintro ⟨hmask, hzd⟩ build
    have hs0 : signScalar k z p.r sk ≠ 0 := fun h0 => hzd (hzero.mp h0)
    rw [← normalizeLowS_eq_min hsrep.1]
    refine ⟨?_, ?_⟩
    · rw [run_thresholdSign_masked hp hk h ht hmask build key rest rfl, hz', hk', hsk', if_neg hs0]
    · obtain ⟨s, hs, hphase⟩ := signSPhase_spec hskr hz.1.rep hkr hp.r.rep hk0
      rw [hphase build, hs.congr hsrep, if_neg hs0]
  · intro hnot
    by_cases hmask : (t.r1 + t.r2) % Secp256k1.n = 0
    · exact run_thresholdSign_unmasked hp h ht hmask key rest
    · have hs0 : signScalar k z p.r sk = 0 := hzero.mpr (by
        by_contra hzd
        exact hnot ⟨hmask, hzd⟩)
      rw [run_thresholdSign_masked hp hk h ht hmask .release key rest rfl, hz', hk', hsk', if_pos hs0]

/-! ## One run: all multiplicative shares 1, a mask 1, the zero hash -/

def sampleKey : ThresholdKey := ⟨1, 1, generator⟩

def samplePresign : ThresholdPresign where
  kA := 1
  kB := 1
  R := generator
  r := Secp256k1.gx
  sk1 := 0
  sk2 := 1
  k1 := 0
  k2 := 1

def sampleTape : Tape Int := ⟨⟨0, 0, 0, 0, 0⟩, 1, 0, ⟨0, 0, 0, 0, 0⟩⟩

def zeroHash : Sha256Hash := ⟨List.replicate 32 0, rfl⟩

theorem samplePresign_canon : CanonPresign samplePresign :=
  ⟨by decide, by decide, by decide, by decide, by decide⟩

theorem sampleTape_canon : sampleTape.All (Canon Secp256k1.n) :=
  ⟨⟨by decide, by decide, by decide, by decide, by decide⟩, by decide, by decide,
    ⟨by decide, by decide, by decide, by decide, by decide⟩⟩

theorem signScalar_sample : signScalar 1 0 Secp256k1.gx 1 = Secp256k1.gx :=
  (signScalar_rep 1 0 Secp256k1.gx 1).congr
    ⟨by decide, by rw [Int.cast_one, Int.cast_zero, inv_one, one_mul, mul_one, zero_add]⟩

theorem thresholdSign_refines_sample : (samplePresign.k1 + samplePresign.k2) % Secp256k1.n ≠ 0 ∧
    (thresholdSign .release sampleKey samplePresign zeroHash).run sampleTape.toList =
      (.ok ⟨Secp256k1.gx, Secp256k1.gx⟩, []) := by
  have hk : (samplePresign.k1 + samplePresign.k2) % Secp256k1.n ≠ 0 := by decide
  obtain ⟨k, sk, z, s, hk', hsk, hz, hs, hrun, -⟩ := thresholdSign_refines_signSPhase
    samplePresign_canon hk zeroHash sampleTape_canon sampleKey []
  rw [show (samplePresign.k1 + samplePresign.k2) % Secp256k1.n = 1 by decide] at hk'
  rw [show (samplePresign.sk1 + samplePresign.sk2) % Secp256k1.n = 1 by decide] at hsk
  rw [show hashToScalar zeroHash Secp256k1.n = 0 by decide] at hz
  subst hk' hsk hz
  rw [show samplePresign.r = Secp256k1.gx from rfl, signScalar_sample] at hs
  subst hs
  have hmin : min Secp256k1.gx (Secp256k1.n - Secp256k1.gx) = Secp256k1.gx := by decide
  have hret := (hrun ⟨by decide, by decide⟩ .release).1
  rw [List.append_nil, hmin] at hret
  exact ⟨hk, hret⟩

end Tecdsa
