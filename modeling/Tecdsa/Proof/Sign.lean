import Tecdsa.Proof.NonceEval

/-!
# What `sign` returns, `verify` accepts

    signSPhase build d z k r = s == 0 ? throw : (r, low s),  s = k⁻¹ (z + r d)   (signSPhase_spec)
    sign … = .ok sig → verify … sig = .ok true                                     (sign_verify)
-/

namespace Tecdsa

open Residue

/-! ## Low s -/

theorem n_odd : Secp256k1.n = 2 * (Secp256k1.n / 2) + 1 := by decide

theorem normalizeLowS_eq_min {s : Int} (hs : Canon Secp256k1.n s) :
    normalizeLowS s Secp256k1.n = min s (Secp256k1.n - s) := by
  obtain ⟨hs0, hsn⟩ := hs
  have hodd := n_odd
  have hhalf : Secp256k1.n.tdiv 2 = Secp256k1.n / 2 := by decide
  unfold normalizeLowS
  simp only [hhalf]
  split <;> omega

theorem normalizeLowS_range {s : Int} (hs : Canon Secp256k1.n s) (h0 : s ≠ 0) :
    1 ≤ normalizeLowS s Secp256k1.n ∧ normalizeLowS s Secp256k1.n ≤ Secp256k1.n / 2 := by
  rw [normalizeLowS_eq_min hs]
  obtain ⟨hs0, hsn⟩ := hs
  have hodd := n_odd
  omega

/-- `normalize_low_s` keeps `s` or negates it. -/
theorem normalizeLowS_rep {s : Int} {σ : Fn} (hs : Rep Secp256k1.n s σ) :
    ((normalizeLowS s Secp256k1.n : Int) : Fn) = σ ∨
      ((normalizeLowS s Secp256k1.n : Int) : Fn) = -σ := by
  unfold normalizeLowS
  simp only
  split
  · right
    rw [Int.cast_sub, cast_modulus n_pos.le, hs.2, zero_sub]
  · exact Or.inl hs.2

/-! ## The second half of `sign_with_hash` -/

theorem signSPhase_spec {d z k r : Int} {δ ζ κ ρ : Fn} (hd : Rep Secp256k1.n d δ)
    (hz : Rep Secp256k1.n z ζ) (hk : Rep Secp256k1.n k κ) (hr : Rep Secp256k1.n r ρ) (hκ : κ ≠ 0) :
    ∃ s, Rep Secp256k1.n s (κ⁻¹ * (ζ + ρ * δ)) ∧ ∀ build, signSPhase build d z k r =
      if s = 0 then .error (.thrown "ECDSA sign: s == 0 (cosmically unlikely)")
      else .ok ⟨r, normalizeLowS s Secp256k1.n⟩ := by
  obtain ⟨ki, hki, hkir⟩ := modInv_rep hk hκ
  refine ⟨_, modMul_rep hkir (modAdd_rep hz (modMul_rep hr hd)), ?_⟩
  intro build
  simp only [signSPhase, signSPhaseWith, hki build, Run.ok_bind]
  split <;> rfl

/-- The low `s` has a nonce when the `s` it comes from has one. -/
theorem signs_normalizeLowS {δ ζ ρ σ : Fn} {s : Int} (hs : Rep Secp256k1.n s σ)
    (h : secp.Signs δ ζ ρ σ) : secp.Signs δ ζ ρ ((normalizeLowS s Secp256k1.n : Int) : Fn) := by
  rcases normalizeLowS_rep hs with hsame | hneg
  · rwa [hsame]
  · rw [hneg]
    exact h.neg

/-- What a nonce explains, in range, verifies. -/
theorem verify_of_signs {Q : AffinePoint} {δ : Fn} (hQ : Denotes Q (secp.base δ)) {msg : Octets}
    {r s : Int} (hr : 1 ≤ r ∧ r < Secp256k1.n) (hs : 1 ≤ s ∧ s < Secp256k1.n)
    (h : secp.Signs δ (msgScalar msg) (r : Fn) (s : Fn)) (build : Build) :
    verify build Q msg r s = .ok true := by
  obtain ⟨b, hb, hiff⟩ := verify_spec hQ msg r s
  rw [hb build, hiff.mpr ⟨⟨hr, hs⟩, (EcdsaGroup.accepts_iff_signs (cast_ne_zero_of_range hs)).mpr h⟩]

theorem low_lt_n {s : Int} (hs : s ≤ Secp256k1.n / 2) : s < Secp256k1.n := by
  have : Secp256k1.n / 2 < Secp256k1.n := by decide
  omega

/-! ## Signing -/

/-- What follows the inversion in the second half of `sign_with_hash`. -/
def sPhaseEnd (d z r kInv : Int) : Run Signature :=
  let s := modMul kInv (modAdd z (modMul r d Secp256k1.n) Secp256k1.n) Secp256k1.n
  if s = 0 then .error (.thrown "ECDSA sign: s == 0 (cosmically unlikely)")
  else .ok ⟨r, normalizeLowS s Secp256k1.n⟩

theorem signSPhase_eq (build : Build) (d z k r : Int) :
    signSPhase build d z k r = modInv build k Secp256k1.n >>= sPhaseEnd d z r := by
  unfold signSPhase signSPhaseWith sPhaseEnd
  refine bind_congr ?_
  intro kInv
  simp only
  split <;> rfl

/-- `sign_with_hash` derives a nonce and signs with it. -/
theorem signWithHash_eq (build : Build) (fuel : Nat) (d : Int) (h : Sha256Hash) :
    signWithHash build fuel d h =
      (deriveNonce fuel d h Secp256k1.n >>= signWithNonce build d (hashToScalar h Secp256k1.n)) := rfl

theorem signWithNonce_eq (build : Build) (d z k : Int) :
    signWithNonce build d z k = scalarMul build k generator >>= fun R =>
      if R.x.tmod Secp256k1.n = 0 then .error (.thrown "ECDSA sign: r == 0 (cosmically unlikely)")
      else signSPhase build d z k (R.x.tmod Secp256k1.n) := by
  unfold signWithNonce signWithNonceWith
  refine bind_congr ?_
  intro R
  simp only
  split <;> rfl

/-- With its point a nonce signs unless `r` is zero. -/
theorem signWithNonce_of_point {build : Build} {k : Int} {R : AffinePoint}
    (hR : scalarMul build k generator = .ok R) (d z : Int) :
    signWithNonce build d z k =
      if R.x.tmod Secp256k1.n = 0 then .error (.thrown "ECDSA sign: r == 0 (cosmically unlikely)")
      else signSPhase build d z k (R.x.tmod Secp256k1.n) := by
  rw [signWithNonce_eq, hR, Run.ok_bind]

theorem signWithHash_eq_ok {build : Build} {fuel : Nat} {d : Int} {h : Sha256Hash} {sig : Signature}
    (hsig : signWithHash build fuel d h = .ok sig) :
    ∃ k R, deriveNonce fuel d h Secp256k1.n = .ok k ∧ scalarMul build k generator = .ok R ∧
      R.x.tmod Secp256k1.n ≠ 0 ∧
      signSPhase build d (hashToScalar h Secp256k1.n) k (R.x.tmod Secp256k1.n) = .ok sig := by
  rw [signWithHash_eq] at hsig
  obtain ⟨k, hk, hsig⟩ := Run.bind_eq_ok hsig
  obtain ⟨R, hR, -⟩ := Run.bind_eq_ok hsig
  rw [signWithNonce_of_point hR] at hsig
  by_cases h0 : R.x.tmod Secp256k1.n = 0
  · rw [if_pos h0] at hsig
    cases hsig
  · rw [if_neg h0] at hsig
    exact ⟨k, R, hk, hR, h0, hsig⟩

/-- With its nonce point `sign_with_hash` is its second half. -/
theorem signWithHash_of_nonce {build : Build} {fuel : Nat} {d k : Int} {h : Sha256Hash}
    {R : AffinePoint} (hk : deriveNonce fuel d h Secp256k1.n = .ok k)
    (hR : scalarMul build k generator = .ok R) (h0 : R.x.tmod Secp256k1.n ≠ 0) :
    signWithHash build fuel d h =
      signSPhase build d (hashToScalar h Secp256k1.n) k (R.x.tmod Secp256k1.n) := by
  rw [signWithHash_eq, hk, Run.ok_bind, signWithNonce_of_point hR, if_neg h0]

theorem signWithHash_r_ne_zero {build : Build} {fuel : Nat} {d : Int} {h : Sha256Hash} {sig : Signature}
    (hsig : signWithHash build fuel d h = .ok sig) : sig.r ≠ 0 := by
  obtain ⟨k, R, -, -, h0, hphase⟩ := signWithHash_eq_ok hsig
  rw [signSPhase_eq] at hphase
  obtain ⟨kInv, -, hend⟩ := Run.bind_eq_ok hphase
  simp only [sPhaseEnd] at hend
  split at hend
  · cases hend
  · cases hend
    exact h0

/-- What `sign` returns is in range, low, and explained by its nonce. -/
theorem sign_signs {build : Build} {fuel : Nat} {d : Int} {msg : Octets} {sig : Signature}
    (hd : 1 ≤ d ∧ d < Secp256k1.n) (hsig : sign build fuel d msg = .ok sig) :
    (1 ≤ sig.r ∧ sig.r < Secp256k1.n) ∧ (1 ≤ sig.s ∧ sig.s ≤ Secp256k1.n / 2) ∧
      secp.Signs (d : Fn) (msgScalar msg) (sig.r : Fn) (sig.s : Fn) := by
  obtain ⟨k, R, hnonce, hR, hr0, hphase⟩ := signWithHash_eq_ok hsig
  have hk := deriveNonce_range hnonce
  have hkr := (canon_of_range hk).rep
  have hk0 := cast_ne_zero_of_range hk
  -- the nonce point is finite and its coordinate is `r`
  obtain ⟨R', hR', hRden⟩ := scalarMul_base hkr
  have : R' = R := Except.ok.inj ((hR' build).symm.trans hR)
  subst this
  obtain ⟨ρ, hcoord, hρ⟩ := tmod_n_rep hRden (hRden.finite_of_ne_zero hk0)
  -- `s` is explained by that nonce
  obtain ⟨s, hs, hphase'⟩ := signSPhase_spec (canon_of_range hd).rep (msgScalar_rep msg) hkr hρ hk0
  rw [hphase'] at hphase
  by_cases hs0 : s = 0
  · rw [if_pos hs0] at hphase
    cases hphase
  · rw [if_neg hs0] at hphase
    cases hphase
    refine ⟨hρ.1.range hr0, normalizeLowS_range hs.1 hs0, signs_normalizeLowS hs ?_⟩
    rw [hρ.2]
    exact ⟨(k : Fn), hk0, hcoord, rfl⟩

/-- **What `sign` returns is low and verifies**, for every message. -/
theorem sign_verify {build : Build} {fuel : Nat} {d : Int} {msg : Octets} {sig : Signature}
    (hd : 1 ≤ d ∧ d < Secp256k1.n) (hsig : sign build fuel d msg = .ok sig) :
    (1 ≤ sig.r ∧ sig.r < Secp256k1.n) ∧ (1 ≤ sig.s ∧ sig.s ≤ Secp256k1.n / 2) ∧
      ∃ Q, (∀ build, scalarMul build d generator = .ok Q) ∧
        ∀ build, verify build Q msg sig.r sig.s = .ok true := by
  obtain ⟨hr, hs, hsigns⟩ := sign_signs hd hsig
  obtain ⟨Q, hQ, hden⟩ := scalarMul_base (canon_of_range hd).rep
  exact ⟨hr, hs, Q, hQ, verify_of_signs hden hr ⟨hs.1, low_lt_n hs.2⟩ hsigns⟩

/-! ## One signature: the key 1 and the empty message -/

/-- Its nonce. -/
def nonceOne : Nat := 109970516049612146002749120002029634399286110438299837156928482161672892089207

def pointOne : AffinePoint :=
  .ofXY 71321440739453850750170180072350150785504926343461905470583750786926661445805
    21251224047993801854319665756984996601162770434686420813526488509542545120089

def signatureOne : Signature where
  r := 71321440739453850750170180072350150785504926343461905470583750786926661445805
  s := 3943593513590169655573685487440879393277258206773867678088329151105897132182

/-- The scalar of the message. -/
def scalarOne : Nat := 42501291392743695431878740634531681500576291905345320922138468513085152597078

set_option maxRecDepth 20000 in
theorem hashToScalar_empty : hashToScalar (doubleSha256 []) Secp256k1.n = scalarOne := by
  unfold doubleSha256
  rw [sha256_eq_eval]
  decide +kernel

set_option maxRecDepth 20000 in
theorem nonceCandidate_one : nonceCandidate 1 scalarOne = nonceOne := by
  unfold nonceCandidate NonceState.candidateNat seedState
  rw [hmacSha256_eq_eval]
  decide +kernel

theorem deriveNonce_one : deriveNonce 1 1 (doubleSha256 []) Secp256k1.n = .ok (nonceOne : Int) :=
  deriveNonce_of_candidate (by decide) hashToScalar_empty nonceCandidate_one (by decide) 0

set_option maxRecDepth 20000 in
theorem ladderCheck_one :
    ladderCheck 255 nonceOne pointOne.x.toNat pointOne.y.toNat = true := by decide +kernel

-- the hash is evaluated once, before `signSPhase` uses it in several places
theorem signSPhase_one : signSPhase .release 1 (hashToScalar (doubleSha256 []) Secp256k1.n) nonceOne
    (pointOne.x.tmod Secp256k1.n) = .ok signatureOne := by
  rw [hashToScalar_empty]
  decide +kernel

theorem scalarMul_one : scalarMul .release nonceOne generator = .ok pointOne := by
  obtain ⟨R, hR, hden⟩ := scalarMul_denotes nonceOne generator_denotes
  rw [natCast_zsmul] at hden
  have hpoint := nsmul_G_denotes ladderCheck_one (by decide) (by decide)
  rw [hR, ← hpoint.record_unique hden rfl]
  rfl

theorem sign_one : sign .release 1 1 [] = .ok signatureOne :=
  (signWithHash_of_nonce deriveNonce_one scalarMul_one (by decide)).trans signSPhase_one

theorem sign_verify_one : sign .release 1 1 [] = .ok signatureOne ∧
    ∃ Q, (∀ build, scalarMul build 1 generator = .ok Q) ∧
      ∀ build, verify build Q [] signatureOne.r signatureOne.s = .ok true :=
  ⟨sign_one, (sign_verify (by decide) sign_one).2.2⟩

end Tecdsa
