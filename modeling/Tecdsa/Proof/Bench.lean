import Tecdsa.Code.Bench
import Tecdsa.Proof.Beaver
import Tecdsa.Proof.PaillierKey
import Tecdsa.Proof.PublicKey
import Tecdsa.Proof.Session

/-!
# A whole run of the benchmark

Every loop of `bench_all` reads its vectors in bounds, every signature it makes
verifies, and a run ends early for want of draws or rounds or with one of three
exceptions:

    Ends (benchAll .release …) (ReportOk …) (BenchStop …)           (benchAll_outcomes)
-/

namespace Tecdsa

namespace Bench

open Residue

/-- A list filled at the indices below `total`. -/
def Filled {α : Type} (total : Nat) (as : List α) (P : Nat → α → Prop) : Prop :=
  as.length = total ∧ ∀ i a, as[i]? = some a → P i a

/-! ## `run_benchmark` -/

section
variable {α : Type} {f : Nat → Rand α}

theorem forLoop_shift (c todo i : Nat) (tape : List Int) :
    (Draws.forLoop (fun i => f (c + i)) todo i).run tape = (Draws.forLoop f todo (c + i)).run tape := by
  induction todo generalizing i tape with
  | zero => rfl
  | succ todo ih =>
    rw [Draws.run_forLoop_succ, Draws.run_forLoop_succ]
    rcases ha : (f (c + i)).run tape with ⟨r, mid⟩
    cases r with
    | error e => rw [Draws.run_bind_of_error ha, Draws.run_bind_of_error ha]
    | ok a =>
      rw [Draws.run_bind_of_ok ha, Draws.run_bind_of_ok ha]
      have hrest := ih (i + 1) mid
      rw [← Nat.add_assoc] at hrest
      rcases has : (Draws.forLoop f todo (c + i + 1)).run mid with ⟨r, rest⟩
      rw [has] at hrest
      cases r with
      | error e => rw [Draws.run_bind_of_error hrest, Draws.run_bind_of_error has]
      | ok as => rw [Draws.run_bind_of_ok hrest, Draws.run_bind_of_ok has]

/-- Warm-up and timed rounds are one loop over `warmup + n` indices. -/
theorem run_runBenchmark (n warmup : Nat) (tape : List Int) :
    (runBenchmark n warmup f).run tape = (Draws.forLoop f (warmup + n) 0).run tape := by
  rw [← Draws.forLoop_append, Nat.zero_add]
  unfold runBenchmark
  rcases hw : (Draws.forLoop f warmup 0).run tape with ⟨r, mid⟩
  cases r with
  | error e => rw [Draws.run_bind_of_error hw, Draws.run_bind_of_error hw]
  | ok warm =>
    rw [Draws.run_bind_of_ok hw, Draws.run_bind_of_ok hw]
    have hshift := forLoop_shift (f := f) warmup n 0 mid
    rw [Nat.add_zero] at hshift
    rcases ht : (Draws.forLoop f n warmup).run mid with ⟨r, rest⟩
    rw [ht] at hshift
    cases r with
    | error e => rw [Draws.run_bind_of_error hshift, Draws.run_bind_of_error ht]
    | ok timed => rw [Draws.run_bind_of_ok hshift, Draws.run_bind_of_ok ht]

theorem forLoop_ends {total : Nat} {P : Nat → α → Prop} {E : Stop → Prop}
    (h : ∀ i < total, (f i).Ends (P i) E) :
    (Draws.forLoop f total 0).Ends (fun as => Filled total as P) E := by
  have hloop := @Draws.Ends.forLoop _ _ f E P total 0 fun i _ hi => h i (by omega)
  simp only [Nat.zero_add] at hloop
  exact hloop

/-- Every index below `warmup + n` is run, and what holds of its value holds of
the list. -/
theorem runBenchmark_ends {n warmup : Nat} {P : Nat → α → Prop} {E : Stop → Prop}
    (h : ∀ i < n + warmup, (f i).Ends (P i) E) :
    (runBenchmark n warmup f).Ends (fun as => Filled (n + warmup) as P) E := by
  intro tape
  rw [run_runBenchmark, Nat.add_comm warmup n]
  exact forLoop_ends h tape

end

/-! ## How the calls end in the Release build -/

/-- What a call of the scenarios may stop with. -/
inductive SignStop : Stop → Prop
  | exhausted : SignStop .exhausted
  | signR : SignStop (.thrown "ECDSA sign: r == 0 (cosmically unlikely)")
  | signS : SignStop (.thrown "ECDSA sign: s == 0 (cosmically unlikely)")
  | thresholdS : SignStop (.thrown "threshold_sign: s == 0 (cosmically unlikely)")

theorem candidateLoop_ends (q : Int) (qlenBits rolen fuel : Nat) (st : NonceState) :
    (∃ k, candidateLoop q qlenBits rolen fuel st = .ok k) ∨
      candidateLoop q qlenBits rolen fuel st = .error .exhausted := by
  induction fuel generalizing st with
  | zero => exact Or.inr rfl
  | succ fuel ih =>
    rw [candidateLoop_succ]
    split
    · exact Or.inl ⟨_, rfl⟩
    · exact ih _

/-- A private key in range has its nonce, given rounds enough. -/
theorem deriveNonce_ends {d : Int} (hd : NonzeroBelow Secp256k1.n d) (h : Sha256Hash) (fuel : Nat) :
    (∃ k, deriveNonce fuel d h Secp256k1.n = .ok k) ∨
      deriveNonce fuel d h Secp256k1.n = .error .exhausted := by
  obtain ⟨hd1, hdn⟩ := hd
  obtain ⟨st, hst, -⟩ := roundState_agrees (q := Secp256k1.n) ⟨hd1, by omega⟩ h 0
  rw [deriveNonce_eq_loop hst]
  exact candidateLoop_ends _ _ _ _ _

theorem signWithHash_ends {d : Int} (hd : NonzeroBelow Secp256k1.n d) (h : Sha256Hash)
    (build : Build) (fuel : Nat) :
    (∃ sig, signWithHash build fuel d h = .ok sig) ∨
      ∃ e, signWithHash build fuel d h = .error e ∧ SignStop e := by
  rcases deriveNonce_ends hd h fuel with ⟨k, hk⟩ | hstop
  · have hkn := deriveNonce_range hk
    have hkr := (canon_of_range hkn).rep
    have hk0 := cast_ne_zero_of_range hkn
    obtain ⟨R, hR, hden⟩ := scalarMul_base hkr
    obtain ⟨ρ, -, hρ⟩ := tmod_n_rep hden (hden.finite_of_ne_zero hk0)
    by_cases h0 : R.x.tmod Secp256k1.n = 0
    · refine Or.inr ⟨_, ?_, SignStop.signR⟩
      rw [signWithHash_eq, hk, Run.ok_bind, signWithNonce_of_point (hR build), if_pos h0]
    · rw [signWithHash_of_nonce hk (hR build) h0]
      obtain ⟨s, -, hphase⟩ := signSPhase_spec (canon_of_range hd).rep (hashToScalar_rep h).1.rep hkr hρ hk0
      rw [hphase build]
      by_cases hs : s = 0
      · exact Or.inr ⟨_, if_pos hs, SignStop.signS⟩
      · exact Or.inl ⟨_, if_neg hs⟩
  · refine Or.inr ⟨_, ?_, SignStop.exhausted⟩
    rw [signWithHash_eq, hstop, Run.error_bind]

/-- Nothing between the draws of `threshold_sign` and its test of `s` stops. -/
theorem thresholdSignRun_yields (p : ThresholdPresign) (h : Sha256Hash) :
    (thresholdSignRun .release p h).Yields (fun _ => True) .exhausted := by
  have hinv (T : BeaverTriple) :
      (maskedInverseRun .release p.k1 p.k2 T Secp256k1.n).Yields (fun _ => True) .exhausted := by
    refine (uniformBelow_yields _).bind ?_
    intro r1 _
    refine (uniformBelow_yields _).bind ?_
    intro r2 _
    obtain ⟨r, hr⟩ := modInv_release_returns (modAdd (beaverMulRun p.k1 p.k2 r1 r2 T Secp256k1.n).z1
      (beaverMulRun p.k1 p.k2 r1 r2 T Secp256k1.n).z2 Secp256k1.n) Secp256k1.n
    refine (Draws.Yields.lift hr (P := fun _ => True) trivial _).bind ?_
    intro mInv _
    exact Draws.Yields.pure trivial _
  refine (generateTriple_yields _).bind ?_
  intro T1 _
  refine (hinv T1).bind ?_
  intro M _
  refine (generateTriple_yields _).bind ?_
  intro T2 _
  exact Draws.Yields.pure trivial _

theorem thresholdSign_ends (key : ThresholdKey) (p : ThresholdPresign) (h : Sha256Hash) :
    (thresholdSign .release key p h).Ends (fun _ => True) SignStop := by
  refine ((thresholdSignRun_yields p h).ends SignStop.exhausted).bind ?_
  intro run _
  split
  · exact Draws.Ends.throw SignStop.thresholdS
  · exact Draws.Ends.pure trivial

/-! ## Inputs -/

/-- A single signer's key pair. -/
def KeyPairOk (kp : KeyPair) : Prop :=
  NonzeroBelow Secp256k1.n kp.d ∧ Denotes kp.Q (secp.base (kp.d : Fn))

/-- What the vectors hold at index `i`. -/
structure InputOk (i : Nat) (x : Input) : Prop where
  singleKey : KeyPairOk x.singleKey
  coSignerKey : KeyPairOk x.coSignerKey
  thresholdKey : KeyDrawn x.thresholdKey
  thresholdPresign : PresignDrawn x.thresholdKey x.thresholdPresign
  hash : x.hash = doubleSha256 (benchMessage i)
  nonceK : NonzeroBelow Secp256k1.n x.nonceK
  nonceR : Canon Secp256k1.n x.nonceR
  coord : secp.coord (secp.base (x.nonceK : Fn)) = some (x.nonceR : Fn)

/-- What the program may stop with: the scenarios' stops, and `return 1` where OpenSSL makes no key. -/
inductive BenchStop (opensslKey : Nat → Bool) (total : Nat) : Stop → Prop
  | call {e : Stop} (h : SignStop e) : BenchStop opensslKey total e
  | openssl {i : Nat} (hi : i < total) (h : opensslKey i = false) : BenchStop opensslKey total (.exited 1)

theorem makeInput_ends (build : Build) (opensslKey : Nat → Bool) {total i : Nat} (hi : i < total) :
    (makeInput build opensslKey i).Ends (fun x => InputOk i x ∧ opensslKey i = true)
      (BenchStop opensslKey total) := by
  have hexhausted : BenchStop opensslKey total .exhausted := BenchStop.call SignStop.exhausted
  refine ((generateKeypair_yields build).ends hexhausted).bind ?_
  rintro single ⟨hsingle, hsingleQ, -⟩
  refine ((generateKeypair_yields build).ends hexhausted).bind ?_
  rintro coSigner ⟨hco, hcoQ, -⟩
  refine ((thresholdKeygen_yields build).ends hexhausted).bind ?_
  intro tk htk
  refine ((thresholdPresign_yields build tk).ends hexhausted).bind ?_
  intro p hp
  refine ((uniformNonzeroBelow_yields _).ends hexhausted).bind ?_
  intro k hk
  obtain ⟨R, hR, hden⟩ := scalarMul_base (canon_of_range hk).rep
  obtain ⟨ρ, hcoord, hρ⟩ := tmod_n_rep hden (hden.finite_of_ne_zero (cast_ne_zero_of_range hk))
  refine (Draws.Ends.lift (P := fun S => S = R) (Or.inl ⟨R, hR build, rfl⟩)).bind ?_
  rintro S rfl
  cases hkey : opensslKey i with
  | false => exact Draws.Ends.throw (BenchStop.openssl hi hkey)
  | true =>
    have hinput : InputOk i ⟨single, coSigner, tk, p, doubleSha256 (benchMessage i), k, S.x.tmod Secp256k1.n⟩ := {
      singleKey := ⟨hsingle, hsingleQ⟩
      coSignerKey := ⟨hco, hcoQ⟩
      thresholdKey := htk
      thresholdPresign := hp
      hash := rfl
      nonceK := hk
      nonceR := hρ.1
      coord := by rw [hcoord, hρ.2] }
    exact Draws.Ends.pure ⟨hinput, rfl⟩

/-- A read below `total` is in bounds. -/
theorem Filled.readAt_eq {α : Type} {total : Nat} {as : List α} {P : Nat → α → Prop}
    (h : Filled total as P) {i : Nat} (hi : i < total) :
    ∃ a, readAt as i = .ok a ∧ as[i]? = some a ∧ P i a := by
  have hlen : i < as.length := h.1.symm ▸ hi
  have ha := List.getElem?_eq_getElem hlen
  refine ⟨_, ?_, ha, h.2 i _ ha⟩
  unfold readAt
  rw [ha]

/-- A body that starts with a read. -/
theorem Filled.read_ends {α β : Type} {total : Nat} {as : List α} {P : Nat → α → Prop}
    (h : Filled total as P) {i : Nat} (hi : i < total) {f : α → Rand β} {Q : α → β → Prop}
    {E : Stop → Prop} (hf : ∀ a, P i a → (f a).Ends (Q a) E) :
    ((monadLift (readAt as i) : Rand α) >>= f).Ends (fun b => ∃ a, as[i]? = some a ∧ Q a b) E := by
  obtain ⟨a, hread, ha, hPa⟩ := h.readAt_eq hi
  refine (Draws.Ends.lift (P := fun x => x = a) (Or.inl ⟨a, hread, rfl⟩)).bind ?_
  rintro _ rfl
  exact (hf _ hPa).mono (fun b hb => ⟨_, ha, hb⟩) fun e he => he

/-- Lists filled with equal values are equal. -/
theorem Filled.map_eq {α β : Type} {total : Nat} {as : List α} {bs : List β} {f : β → α}
    {P : Nat → α → Prop} {Q : Nat → β → Prop} (ha : Filled total as P) (hb : Filled total bs Q)
    (h : ∀ i a b, P i a → Q i b → f b = a) : bs.map f = as := by
  apply List.ext_getElem
  · rw [List.length_map, ha.1, hb.1]
  · intro i hbs has
    rw [List.getElem_map]
    rw [List.length_map] at hbs
    exact h i _ _ (ha.2 i _ (List.getElem?_eq_getElem has)) (hb.2 i _ (List.getElem?_eq_getElem hbs))

/-! ## Signatures -/

/-- In range, low, and valid in both builds. -/
structure SigOk (Q : AffinePoint) (msg : Octets) (sig : Signature) : Prop where
  r : NonzeroBelow Secp256k1.n sig.r
  s : 1 ≤ sig.s ∧ sig.s ≤ Secp256k1.n / 2
  verifies : ∀ build, verify build Q msg sig.r sig.s = .ok true

/-- A2: what `sign` returns for message `i`. -/
def StandardOk (fuel : Nat) (kp : KeyPair) (i : Nat) (sig : Signature) : Prop :=
  sign .release fuel kp.d (benchMessage i) = .ok sig ∧ SigOk kp.Q (benchMessage i) sig

/-- A1: the precomputed `r`, and valid unless `r` or `s` is zero. -/
def SPhaseOk (x : Input) (i : Nat) (sig : Signature) : Prop :=
  sig.r = x.nonceR ∧ (sig.r ≠ 0 → sig.s ≠ 0 → SigOk x.singleKey.Q (benchMessage i) sig)

/-- C1 to C3: the signature of the private key and the nonce that are shared,
and valid unless `r` is zero. -/
def ThresholdOk (key : ThresholdKey) (p : ThresholdPresign) (i : Nat) (sig : Signature) : Prop :=
  sig = ⟨p.r, normalizeLowS (signScalar (p.kA * p.kB % Secp256k1.n) (hashToScalar (doubleSha256 (benchMessage i))
      Secp256k1.n) p.r (key.skA * key.skB % Secp256k1.n)) Secp256k1.n⟩ ∧
    (sig.r ≠ 0 → SigOk key.Q (benchMessage i) sig)

theorem KeyPairOk.signs {kp : KeyPair} (hkp : KeyPairOk kp) (fuel i : Nat) :
    (monadLift (signWithHash .release fuel kp.d (doubleSha256 (benchMessage i))) : Rand Signature).Ends
      (StandardOk fuel kp i) SignStop := by
  apply Draws.Ends.lift
  rcases signWithHash_ends hkp.1 (doubleSha256 (benchMessage i)) .release fuel with ⟨sig, hsig⟩ | hstop
  · obtain ⟨hr, hs, hsigns⟩ := @sign_signs .release fuel kp.d (benchMessage i) sig hkp.1 hsig
    exact Or.inl ⟨sig, hsig, hsig, hr, hs, verify_of_signs hkp.2 hr ⟨hs.1, low_lt_n hs.2⟩ hsigns⟩
  · exact Or.inr hstop

/-- Drawn shares are the shares of a presign that signs. -/
theorem presignOk_of_drawn {key : ThresholdKey} {p : ThresholdPresign} (hkey : KeyDrawn key)
    (hp : PresignDrawn key p) : PresignOk key p := by
  have hagreed := hp.agreed hkey.skA hkey.skB
  have hk := (cast_eq_cast_iff n_pos.le _ _).mpr hagreed.k
  have hsk := (cast_eq_cast_iff n_pos.le _ _).mpr hagreed.sk
  rw [Int.cast_mul] at hk hsk
  exact ⟨hagreed.shares, _, _, mul_ne_zero (cast_ne_zero_of_range hp.kA) (cast_ne_zero_of_range hp.kB),
    hk, hsk, hkey.Q, hp.coord.2⟩

theorem thresholdSign_ok {key : ThresholdKey} {p : ThresholdPresign} (hkey : KeyDrawn key)
    (hp : PresignDrawn key p) (i : Nat) :
    (thresholdSign .release key p (doubleSha256 (benchMessage i))).Ends (ThresholdOk key p i) SignStop := by
  refine (thresholdSign_ends key p _).of_returns ?_
  intro tape rest sig hsig
  have hagreed := hp.agreed hkey.skA hkey.skB
  obtain ⟨t, -, -, -, s, hs, -, hval⟩ := thresholdSign_eq_ok hagreed.shares hagreed.k_ne_zero hsig
  rw [hagreed.k, hagreed.sk] at hs
  subst hs
  refine ⟨hval, ?_⟩
  intro hr
  have hok := thresholdSign_emittedOk (presignOk_of_drawn hkey hp) hsig
  rw [hval] at hr
  obtain ⟨-, hrange, hlow, hver⟩ := hok.2 hr
  exact ⟨hrange, hlow, hver⟩

theorem normalizeLowS_zero : normalizeLowS 0 Secp256k1.n = 0 := by decide

/-- With the inverse of the nonce A1 is the formula, low. -/
theorem sPhaseOnly_eq {build : Build} {x : Input} {kin : Int}
    (hkin : modInv build x.nonceK Secp256k1.n = .ok kin) :
    sPhaseOnly build x = .ok ⟨x.nonceR, normalizeLowS (modMul kin (modAdd (hashToScalar x.hash Secp256k1.n)
      (modMul x.nonceR x.singleKey.d Secp256k1.n) Secp256k1.n) Secp256k1.n) Secp256k1.n⟩ := by
  simp only [sPhaseOnly, hkin, Run.ok_bind]
  rfl

theorem sPhaseOnly_ok {i : Nat} {x : Input} (hx : InputOk i x) (build : Build) :
    ∃ sig, sPhaseOnly build x = .ok sig ∧ SPhaseOk x i sig := by
  have hk0 := cast_ne_zero_of_range hx.nonceK
  obtain ⟨ki, hki, hkir⟩ := modInv_rep (canon_of_range hx.nonceK).rep hk0
  have hz := msgScalar_rep (benchMessage i)
  rw [← hx.hash] at hz
  have hs := modMul_rep hkir (modAdd_rep hz (modMul_rep hx.nonceR.rep (canon_of_range hx.singleKey.1).rep))
  refine ⟨_, sPhaseOnly_eq (hki build), rfl, ?_⟩
  intro hr0 hs0
  have hr := hx.nonceR.range hr0
  have hlow := normalizeLowS_range hs.1 (fun h0 => hs0 (by rw [h0]; exact normalizeLowS_zero))
  exact ⟨hr, hlow, verify_of_signs hx.singleKey.2 hr ⟨hlow.1, low_lt_n hlow.2⟩
    (signs_normalizeLowS hs ⟨(x.nonceK : Fn), hk0, hx.coord, rfl⟩)⟩

/-! ## Paillier -/

theorem pickRCoprimeToN_yields (n : Int) :
    (Paillier.pickRCoprimeToN n).Yields (fun _ => True) .exhausted :=
  (Draws.Yields.doWhile (uniformNonzeroBelow_yields n)).mono fun _ _ => trivial

theorem generateKeys_yields {mpzNextprime : Int → Int} (hprime : ∀ x, (mpzNextprime x).toNat.Prime)
    (primeBits : UInt32) : (Paillier.generateKeys mpzNextprime primeBits).Yields
      (fun kp => ∃ p q : ℕ, Paillier.PrimesOf primeBits p q ∧ Paillier.KeyOf p q kp) .exhausted := by
  refine (Paillier.genPrimes_yields hprime primeBits).bind ?_
  rintro _ ⟨p, q, rfl, hpq⟩
  obtain ⟨kp, hkp, hk⟩ := hpq.keysOfPrimes_returns
  exact Draws.Yields.lift hkp ⟨p, q, hpq, hk⟩ _

/-- The order of the curve is below a modulus of 2048 bits. -/
theorem n_lt_paillier {p q : ℕ} {kp : Paillier.KeyPair} (hpq : Paillier.PrimesOf 1024 p q)
    (hk : Paillier.KeyOf p q kp) : Secp256k1.n < kp.pub.n := by
  have hbits := (Paillier.usable_of_primes hpq hk).bits_n.1
  have hwide : (2 : Int) ^ 256 ≤ 2 ^ (2 * (1024 : UInt32).toNat - 1) :=
    pow_le_pow_right₀ (by decide) (by decide)
  have horder : Secp256k1.n < 2 ^ 256 := by decide
  exact horder.trans_le (hwide.trans hbits)

/-- A share below it is a plaintext, and comes back from its ciphertext. -/
theorem encrypt_share_ends {p q : ℕ} {kp : Paillier.KeyPair} (hpq : Paillier.PrimesOf 1024 p q)
    (hk : Paillier.KeyOf p q kp) {share : Int} (hshare : NonzeroBelow Secp256k1.n share) :
    (Paillier.encrypt share kp.pub).Ends (fun c => Paillier.decrypt c kp.pub kp.priv = share) SignStop := by
  have hN := n_lt_paillier hpq hk
  obtain ⟨h1, hn⟩ := hshare
  refine Draws.Ends.of_returns ?_ ?_
  · unfold Paillier.encrypt
    rw [if_neg (by omega)]
    refine ((pickRCoprimeToN_yields _).ends SignStop.exhausted).bind ?_
    intro r _
    exact Draws.Ends.pure trivial
  · intro tape rest c hc
    obtain ⟨hm, henc, -⟩ := hk.encrypts hc
    rw [hk.decrypt_eq hpq.prime_p hpq.prime_q hpq.ne henc, Int.toNat_of_nonneg hm.1,
      Int.emod_eq_of_lt hm.1 hm.2]

/-! ## The scenarios -/

section
variable {total : Nat} {inputs : List Input} (hin : Filled total inputs InputOk) {i : Nat} (hi : i < total)
include hin hi

theorem scenarioA0_ends : (scenarioA0 inputs i).Ends (fun _ => True) SignStop := by
  refine (hin.read_ends hi (Q := fun _ _ => True) ?_).mono (fun _ _ => trivial) fun e he => he
  intro x _
  exact Draws.Ends.pure trivial

theorem scenarioA1_ends : (scenarioA1 .release inputs i).Ends
    (fun sig => ∃ x, inputs[i]? = some x ∧ SPhaseOk x i sig) SignStop := by
  refine hin.read_ends hi ?_
  intro x hx
  obtain ⟨sig, hsig, hok⟩ := sPhaseOnly_ok hx .release
  exact Draws.Ends.lift (Or.inl ⟨sig, hsig, hok⟩)

theorem scenarioA2_ends (fuel : Nat) : (scenarioA2 .release fuel inputs i).Ends
    (fun sig => ∃ x, inputs[i]? = some x ∧ StandardOk fuel x.singleKey i sig) SignStop := by
  refine hin.read_ends hi ?_
  intro x hx
  rw [hx.hash]
  exact hx.singleKey.signs fuel i

theorem scenarioB_ends (fuel : Nat) : (scenarioB .release fuel inputs i).Ends
    (fun sigs => ∃ x, inputs[i]? = some x ∧ StandardOk fuel x.singleKey i sigs.1 ∧
      StandardOk fuel x.coSignerKey i sigs.2) SignStop := by
  refine hin.read_ends hi ?_
  intro x hx
  rw [hx.hash]
  refine (hx.singleKey.signs fuel i).bind ?_
  intro sigA hA
  refine (hx.coSignerKey.signs fuel i).bind ?_
  intro sigB hB
  exact Draws.Ends.pure ⟨hA, hB⟩

theorem scenarioC1_ends : (scenarioC1 .release inputs i).Ends
    (fun sig => ∃ x, inputs[i]? = some x ∧ ThresholdOk x.thresholdKey x.thresholdPresign i sig) SignStop := by
  refine hin.read_ends hi ?_
  intro x hx
  rw [hx.hash]
  exact thresholdSign_ok hx.thresholdKey hx.thresholdPresign i

theorem scenarioC2_ends : (scenarioC2 .release inputs i).Ends
    (fun out => ∃ x, inputs[i]? = some x ∧ PresignDrawn x.thresholdKey out.1 ∧
      ThresholdOk x.thresholdKey out.1 i out.2) SignStop := by
  refine hin.read_ends hi ?_
  intro x hx
  rw [hx.hash]
  refine ((thresholdPresign_yields .release x.thresholdKey).ends SignStop.exhausted).bind ?_
  intro p hp
  refine (thresholdSign_ok hx.thresholdKey hp i).bind ?_
  intro sig hsig
  exact Draws.Ends.pure ⟨hp, hsig⟩

theorem scenarioC3_ends {p q : ℕ} {kp : Paillier.KeyPair} (hpq : Paillier.PrimesOf 1024 p q)
    (hk : Paillier.KeyOf p q kp) {shares : List Int}
    (hshares : Filled total shares fun _ => NonzeroBelow Secp256k1.n) :
    (scenarioC3 .release inputs kp.pub shares i).Ends
      (fun out => (∃ x, inputs[i]? = some x ∧ ThresholdOk x.thresholdKey x.thresholdPresign i out.1) ∧
        shares[i]? = some (Paillier.decrypt out.2 kp.pub kp.priv)) SignStop := by
  refine (hin.read_ends hi (Q := fun x out => ThresholdOk x.thresholdKey x.thresholdPresign i out.1 ∧
    shares[i]? = some (Paillier.decrypt out.2 kp.pub kp.priv)) ?_).mono ?_ fun e he => he
  · intro x hx
    rw [hx.hash]
    refine (thresholdSign_ok hx.thresholdKey hx.thresholdPresign i).bind ?_
    intro sig hsig
    refine (hshares.read_ends hi (Q := fun share ct => Paillier.decrypt ct.2 kp.pub kp.priv = share ∧ ct.1 = sig) ?_).mono ?_
      fun e he => he
    · intro share hshare
      refine (encrypt_share_ends hpq hk hshare).bind ?_
      intro ct hct
      exact Draws.Ends.pure ⟨hct, rfl⟩
    · rintro ⟨_, ct⟩ ⟨share, hread, hdec, rfl⟩
      exact ⟨hsig, by rw [hread, hdec]⟩
  · rintro out ⟨x, hread, hsig, hct⟩
    exact ⟨⟨x, hread, hsig⟩, hct⟩

end

/-! ## The program -/

section
variable (fuel : Nat) (mpzNextprime : Int → Int) (keyTape : List Int) (opensslKey : Nat → Bool) (iterations : Nat)

/-- What the program has computed when it returns. -/
structure ReportOk (rep : Report) : Prop where
  opensslKeys : ∀ i < iterations + kWarmup, opensslKey i = true
  inputs : Filled (iterations + kWarmup) rep.inputs InputOk
  a1 : Filled (iterations + kWarmup) rep.a1 fun i sig => ∃ x, rep.inputs[i]? = some x ∧ SPhaseOk x i sig
  a2 : Filled (iterations + kWarmup) rep.a2 fun i sig =>
    ∃ x, rep.inputs[i]? = some x ∧ StandardOk fuel x.singleKey i sig
  b : Filled (iterations + kWarmup) rep.b fun i sigs => ∃ x, rep.inputs[i]? = some x ∧
    StandardOk fuel x.singleKey i sigs.1 ∧ StandardOk fuel x.coSignerKey i sigs.2
  c1 : Filled (iterations + kWarmup) rep.c1 fun i sig =>
    ∃ x, rep.inputs[i]? = some x ∧ ThresholdOk x.thresholdKey x.thresholdPresign i sig
  c2 : Filled (iterations + kWarmup) rep.c2 fun i out => ∃ x, rep.inputs[i]? = some x ∧
    PresignDrawn x.thresholdKey out.1 ∧ ThresholdOk x.thresholdKey out.1 i out.2
  paillierKeys : (∃ rest, (Paillier.generateKeys mpzNextprime 1024).run keyTape = (.ok rep.paillierKeys, rest)) ∧
    ∃ p q, Paillier.Usable 1024 p q rep.paillierKeys
  c3 : Filled (iterations + kWarmup) rep.c3 fun i out =>
    (∃ x, rep.inputs[i]? = some x ∧ ThresholdOk x.thresholdKey x.thresholdPresign i out.1) ∧
      rep.beaverShares[i]? = some (Paillier.decrypt out.2 rep.paillierKeys.pub rep.paillierKeys.priv)
  /-- B signs again what A2 signed, C3 what C1 signed. -/
  again : rep.b.map Prod.fst = rep.a2 ∧ rep.c3.map Prod.fst = rep.c1

/-- How the program may end when `opts.iterations + kWarmup` is an `int`. -/
def Outcomes : Prop :=
  (benchAll .release fuel mpzNextprime keyTape opensslKey iterations).Ends
    (ReportOk fuel mpzNextprime keyTape opensslKey iterations) (BenchStop opensslKey (iterations + kWarmup))

end

theorem benchAll_outcomes {mpzNextprime : Int → Int} (hprime : ∀ x, (mpzNextprime x).toNat.Prime)
    (fuel : Nat) (keyTape : List Int) (opensslKey : Nat → Bool) {iterations : Nat}
    (htotal : iterations + kWarmup < 2 ^ 31) : Outcomes fuel mpzNextprime keyTape opensslKey iterations := by
  have hcall {e : Stop} (he : SignStop e) : BenchStop opensslKey (iterations + kWarmup) e := BenchStop.call he
  have hscenario {α : Type} {m : Rand α} {P : α → Prop} (h : m.Ends P SignStop) :
      m.Ends P (BenchStop opensslKey (iterations + kWarmup)) := h.mono (fun _ hP => hP) fun _ => hcall
  refine (Draws.Ends.lift (P := fun total => total = iterations + kWarmup)
    (Or.inl ⟨_, if_pos htotal, rfl⟩)).bind ?_
  rintro _ rfl
  refine (forLoop_ends fun i hi => makeInput_ends .release opensslKey hi).bind ?_
  intro inputs hboth
  have hin : Filled (iterations + kWarmup) inputs InputOk := ⟨hboth.1, fun i x hx => (hboth.2 i x hx).1⟩
  refine (hscenario (runBenchmark_ends fun i hi => scenarioA0_ends hin hi)).bind ?_
  intro _ _
  refine (hscenario (runBenchmark_ends fun i hi => scenarioA1_ends hin hi)).bind ?_
  intro a1 ha1
  refine (hscenario (runBenchmark_ends fun i hi => scenarioA2_ends hin hi fuel)).bind ?_
  intro a2 ha2
  refine (hscenario (runBenchmark_ends fun i hi => scenarioB_ends hin hi fuel)).bind ?_
  intro b hb
  refine (hscenario (runBenchmark_ends fun i hi => scenarioC1_ends hin hi)).bind ?_
  intro c1 hc1
  refine (hscenario (runBenchmark_ends fun i hi => scenarioC2_ends hin hi)).bind ?_
  intro c2 hc2
  have hkeys : (monadLift ((Paillier.generateKeys mpzNextprime 1024).run keyTape).1 : Rand Paillier.KeyPair).Ends
      (fun kp => (∃ rest, (Paillier.generateKeys mpzNextprime 1024).run keyTape = (.ok kp, rest)) ∧
        ∃ p q : ℕ, Paillier.PrimesOf 1024 p q ∧ Paillier.KeyOf p q kp) SignStop := by
    apply Draws.Ends.lift
    rcases generateKeys_yields hprime 1024 keyTape with ⟨kp, rest, hkp, hok⟩ | ⟨rest, hstop⟩
    · exact Or.inl ⟨kp, congrArg Prod.fst hkp, ⟨rest, hkp⟩, hok⟩
    · exact Or.inr ⟨.exhausted, congrArg Prod.fst hstop, SignStop.exhausted⟩
  refine (hscenario hkeys).bind ?_
  rintro kp ⟨hkeyTape, p, q, hpq, hk⟩
  refine (forLoop_ends fun _ _ => (uniformNonzeroBelow_yields Secp256k1.n).ends (hcall SignStop.exhausted)).bind ?_
  intro shares hshares
  refine (hscenario (runBenchmark_ends fun i hi => scenarioC3_ends hin hi hpq hk hshares)).bind ?_
  intro c3 hc3
  have hb_a2 : b.map Prod.fst = a2 := by
    refine ha2.map_eq hb ?_
    rintro i sig sigs ⟨x, hx, hsig, -⟩ ⟨y, hy, ⟨hsigA, -⟩, -⟩
    obtain rfl : x = y := Option.some.inj (hx.symm.trans hy)
    exact Except.ok.inj (hsigA.symm.trans hsig)
  have hc3_c1 : c3.map Prod.fst = c1 := by
    refine hc1.map_eq hc3 ?_
    rintro i sig out ⟨x, hx, hsig, -⟩ ⟨⟨y, hy, hout, -⟩, -⟩
    obtain rfl : x = y := Option.some.inj (hx.symm.trans hy)
    exact hout.trans hsig.symm
  refine Draws.Ends.pure ?_
  exact {
    opensslKeys := by
      intro i hi
      have hlen : i < inputs.length := hin.1.symm ▸ hi
      exact (hboth.2 i _ (List.getElem?_eq_getElem hlen)).2
    inputs := hin
    a1 := ha1
    a2 := ha2
    b := hb
    c1 := hc1
    c2 := hc2
    paillierKeys := ⟨hkeyTape, p, q, Paillier.usable_of_primes hpq hk⟩
    c3 := hc3
    again := ⟨hb_a2, hc3_c1⟩ }

end Bench

end Tecdsa
