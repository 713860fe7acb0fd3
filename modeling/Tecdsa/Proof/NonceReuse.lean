import Tecdsa.Proof.Session
import Tecdsa.Proof.Tamper

/-!
# A nonce used twice gives the private key away

`recoverKey` is a program over the functions of the source: it solves two
signatures with one `r` for the key, for both signs of the second `s`, and
keeps the solution whose multiple of `G` is the public key.

    verify … msg r s, verify … msg' r s' → recoverKey … = .ok (some d)     (repeated_r_reveals_key)
    one presign, two messages            → recoverKey … = .ok (some d)     (presign_reuse_reveals_key)
-/

namespace Tecdsa

open Residue

/-! ## Algorithm -/

/-- The key of `(r, s)` for `z` and `(r, t)` for `z'`, made with one nonce. -/
def keyCandidate (build : Build) (z z' r s t : Int) : Run Int := do
  let n := Secp256k1.n
  let num := modSub (modMul t z n) (modMul s z' n) n
  let denom := modMul r (modSub s t n) n
  return modMul num (← modInv build denom n) n

/-- The candidate, if it is the key of `Q`. -/
def testKey (build : Build) (Q : AffinePoint) (z z' r s t : Int) : Run (Option Int) :=
  if s = t then .ok none
  else do
    let d ← keyCandidate build z z' r s t
    let P ← scalarMul build d generator
    return if P == Q then some d else none

def recoverKey (build : Build) (Q : AffinePoint) (z z' r s s' : Int) : Run (Option Int) := do
  let found ← testKey build Q z z' r s s'
  if found.isSome then return found
  testKey build Q z z' r s (Secp256k1.n - s')

/-! ## Correctness -/

section
variable {z z' r s t : Int}

theorem keyCandidate_rep (hz : Canon Secp256k1.n z) (hz' : Canon Secp256k1.n z')
    (hr : 1 ≤ r ∧ r < Secp256k1.n) (hs : Canon Secp256k1.n s) (ht : Canon Secp256k1.n t) (hst : s ≠ t) :
    ∃ d, (∀ build, keyCandidate build z z' r s t = .ok d) ∧
      Rep Secp256k1.n d (((t : Fn) * z - (s : Fn) * z') / ((r : Fn) * ((s : Fn) - t))) := by
  have hnum := modSub_rep (modMul_rep ht.rep hz.rep) (modMul_rep hs.rep hz'.rep)
  have hden := modMul_rep (canon_of_range hr).rep (modSub_rep hs.rep ht.rep)
  have hne : (r : Fn) * ((s : Fn) - t) ≠ 0 := by
    refine mul_ne_zero (cast_ne_zero_of_range hr) (sub_ne_zero.mpr ?_)
    exact fun heq => hst ((hs.rep.eq_iff ht.rep).mpr heq)
  obtain ⟨i, hi, hirep⟩ := modInv_rep hden hne
  refine ⟨_, fun build => ?_, modMul_rep hnum hirep⟩
  unfold keyCandidate
  simp only [hi build, Run.ok_bind]
  rfl

/-- A key found is the key; the right sign finds it. -/
theorem testKey_spec {Q : AffinePoint} {δ : Fn} (hQ : Denotes Q (secp.base δ))
    (hz : Canon Secp256k1.n z) (hz' : Canon Secp256k1.n z') (hr : 1 ≤ r ∧ r < Secp256k1.n)
    (hs : Canon Secp256k1.n s) (ht : Canon Secp256k1.n t) :
    ∃ found, (∀ build, testKey build Q z z' r s t = .ok found) ∧ (∀ d, found = some d → Rep Secp256k1.n d δ) ∧
      ((s : Fn) ≠ t → δ = ((t : Fn) * z - (s : Fn) * z') / ((r : Fn) * ((s : Fn) - t)) → found.isSome) := by
  by_cases hst : s = t
  · refine ⟨none, fun build => ?_, ?_, ?_⟩
    · unfold testKey
      rw [if_pos hst]
    · intro d hd
      cases hd
    · intro hne
      exact absurd (congrArg _ hst) hne
  · obtain ⟨d, hd, hdrep⟩ := keyCandidate_rep hz hz' hr hs ht hst
    obtain ⟨P, hP, hPden⟩ := scalarMul_base hdrep
    have hbeq := (beq_iff hPden hQ).trans secp_base_eq_iff
    refine ⟨if P == Q then some d else none, fun build => ?_, ?_, ?_⟩
    · unfold testKey
      rw [if_neg hst]
      simp only [hd build, hP build, Run.ok_bind]
      rfl
    · intro d' hd'
      by_cases hPQ : (P == Q) = true
      · rw [if_pos hPQ, Option.some.injEq] at hd'
        rw [← hd', ← hbeq.mp hPQ]
        exact hdrep
      · rw [if_neg hPQ] at hd'
        cases hd'
    · intro _ hδ
      rw [if_pos (hbeq.mpr hδ.symm)]
      rfl

/-- **One right sign is enough.** -/
theorem recoverKey_spec {Q : AffinePoint} {d : Int} (hd : Canon Secp256k1.n d)
    (hQ : Denotes Q (secp.base (d : Fn))) {s' : Int} (hz : Canon Secp256k1.n z)
    (hz' : Canon Secp256k1.n z') (hr : 1 ≤ r ∧ r < Secp256k1.n) (hs : Canon Secp256k1.n s)
    (hs' : 1 ≤ s' ∧ s' < Secp256k1.n) {τ : Fn} (hτ : τ = (s' : Fn) ∨ τ = -(s' : Fn)) (hne : (s : Fn) ≠ τ)
    (hkey : (d : Fn) = (τ * z - (s : Fn) * z') / ((r : Fn) * ((s : Fn) - τ))) (build : Build) :
    recoverKey build Q z z' r s s' = .ok (some d) := by
  have hneg : Rep Secp256k1.n (Secp256k1.n - s') (-(s' : Fn)) := by
    refine ⟨⟨by omega, by omega⟩, ?_⟩
    rw [Int.cast_sub, cast_modulus n_pos.le, zero_sub]
  obtain ⟨found, hfound, hsound, hcomplete⟩ := testKey_spec hQ hz hz' hr hs (canon_of_range hs')
  obtain ⟨found', hfound', hsound', hcomplete'⟩ := testKey_spec hQ hz hz' hr hs hneg.1
  rw [hneg.2] at hcomplete'
  unfold recoverKey
  rw [hfound build, Run.ok_bind]
  cases hopt : found with
  | some d₁ =>
    have hd₁ := (hsound d₁ hopt).congr hd.rep
    subst hd₁
    rfl
  | none =>
    -- then the sign was the other one
    rcases hτ with rfl | rfl
    · have := hcomplete hne hkey
      rw [hopt] at this
      cases this
    · obtain ⟨d₂, hd₂⟩ := Option.isSome_iff_exists.mp (hcomplete' hne hkey)
      have heq := (hsound' d₂ hd₂).congr hd.rep
      subst heq
      rw [← hd₂, ← hfound' build]
      rfl

end

/-! ## Two signatures with one `r` -/

/-- **Two messages accepted with one `r` give the private key away**, unless
`r + n` may be an x-coordinate too. -/
theorem repeated_r_reveals_key {d : Int} (hd : 1 ≤ d ∧ d < Secp256k1.n) {Q : AffinePoint} {build : Build}
    (hQ : scalarMul build d generator = .ok Q) {msg msg' : Octets} {r s s' : Int}
    (hv : verify build Q msg r s = .ok true) (hv' : verify build Q msg' r s' = .ok true)
    (hbig : Secp256k1.p ≤ r + Secp256k1.n)
    (hz : hashToScalar (doubleSha256 msg) Secp256k1.n ≠ hashToScalar (doubleSha256 msg') Secp256k1.n) :
    recoverKey build Q (hashToScalar (doubleSha256 msg) Secp256k1.n)
      (hashToScalar (doubleSha256 msg') Secp256k1.n) r s s' = .ok (some d) := by
  obtain ⟨Q', hQ', hden⟩ := scalarMul_generator d
  cases (hQ' build).symm.trans hQ
  obtain ⟨b, hb, hiff⟩ := verify_spec hden msg r s
  obtain ⟨b', hb', hiff'⟩ := verify_spec hden msg' r s'
  obtain ⟨⟨hr, hs⟩, hacc⟩ := hiff.mp (Except.ok.inj ((hb build).symm.trans hv))
  obtain ⟨⟨-, hs'⟩, hacc'⟩ := hiff'.mp (Except.ok.inj ((hb' build).symm.trans hv'))
  have hzF : msgScalar msg ≠ msgScalar msg' := fun heq =>
    hz (((msgScalar_rep msg).eq_iff (msgScalar_rep msg')).mpr heq)
  have hpm : ∀ κ ∈ secp.nonces (r : Fn), ∀ μ ∈ secp.nonces (r : Fn), μ = κ ∨ μ = -κ := by
    intro κ hκ μ hμ
    exact scalar_eq_or_neg (nonces_subset_fibre hr hbig hκ) (nonces_subset_fibre hr hbig hμ)
  obtain ⟨τ, hτ, hne, hkey⟩ := EcdsaGroup.exists_key_of_accepts (cast_ne_zero_of_range hr)
    (cast_ne_zero_of_range hs) (cast_ne_zero_of_range hs') hzF hpm hacc hacc'
  exact recoverKey_spec (canon_of_range hd) hden (msgScalar_rep msg).1 (msgScalar_rep msg').1 hr
    (canon_of_range hs) hs' hτ hne hkey build

/-! ## Sessions -/

/-- What holds of the keys, of the presigns and of the signatures of a session. -/
structure Session.All (K : ThresholdKey → Prop) (P : ThresholdKey → ThresholdPresign → Prop)
    (E : Emitted → Prop) (st : Session) : Prop where
  keys : ∀ key ∈ st.keys, K key
  presigns : ∀ kp ∈ st.presigns, P kp.1 kp.2
  emitted : ∀ e ∈ st.emitted, E e

/-- What the calls establish holds throughout a session. -/
theorem Session.run_all {K : ThresholdKey → Prop} {P : ThresholdKey → ThresholdPresign → Prop}
    {E : Emitted → Prop} {build : Build} (hkeygen : (thresholdKeygen build).Returns K)
    (hpresign : ∀ key, K key → (thresholdPresign build key).Returns (P key))
    (hsign : ∀ key p msg tape sig rest, P key p →
      (thresholdSign build key p (doubleSha256 msg)).run tape = (.ok sig, rest) → E ⟨key, p, msg, sig, tape⟩)
    (tape : List Int) (calls : List Call) : Session.All K P E (Session.run build tape calls) := by
  have step (st : Session) (hst : Session.All K P E st) (call : Call) : Session.All K P E (st.step build call) := by
    cases call with
    | keygen =>
      simp only [Session.step]
      split
      · next key rest hrun => exact { hst with keys := forall_mem_concat hst.keys (hkeygen _ _ _ hrun) }
      · exact { hst with }
    | presign i =>
      simp only [Session.step]
      split
      · exact hst
      · next key hkey =>
        have hK := hst.keys key (List.mem_of_getElem? hkey)
        split
        · next p rest hrun =>
          exact { hst with presigns := forall_mem_concat hst.presigns (hpresign key hK _ _ _ hrun) }
        · exact { hst with }
    | sign i msg =>
      simp only [Session.step]
      split
      · exact hst
      · next key p hp =>
        have hP := hst.presigns (key, p) (List.mem_of_getElem? hp)
        split
        · next sig rest hrun =>
          exact { hst with emitted := forall_mem_concat hst.emitted (hsign _ _ _ _ _ _ hP hrun) }
        · exact { hst with }
    | elsewhere count => exact { hst with }
  have go : ∀ (calls : List Call) (st : Session), Session.All K P E st →
      Session.All K P E (calls.foldl (Session.step build) st) := by
    intro calls
    induction calls with
    | nil => exact fun st hst => hst
    | cons call calls ih => exact fun st hst => ih _ (step st hst call)
  exact go calls _ ⟨by simp [Session.start], by simp [Session.start], by simp [Session.start]⟩

/-- What a signature of a session was made from. -/
structure Made (e : Emitted) : Prop where
  key : KeyDrawn e.key
  presign : PresignDrawn e.key e.presign
  sig : ∃ rest, (thresholdSign .release e.key e.presign (doubleSha256 e.msg)).run e.tape = (.ok e.sig, rest)

theorem run_made (tape : List Int) (calls : List Call) :
    ∀ e ∈ (Session.run .release tape calls).emitted, Made e := by
  refine (Session.run_all (K := KeyDrawn) (P := fun key p => KeyDrawn key ∧ PresignDrawn key p)
    (thresholdKeygen_yields .release).returns ?_ ?_ tape calls).emitted
  · intro key hkey
    exact (thresholdPresign_yields .release key).returns.mono fun p hp => ⟨hkey, hp⟩
  · intro key p msg tape sig rest hp hrun
    exact ⟨hp.1, hp.2, rest, hrun⟩

/-! ## One presign, two messages -/

/-- The low `s` comes from the nonce or from its negative. -/
theorem normalizeLowS_nonce {s : Int} {κ y : Fn} (hs : Rep Secp256k1.n s (κ⁻¹ * y)) (hκ : κ ≠ 0) :
    ∃ k, (k = κ ∨ k = -κ) ∧ ((normalizeLowS s Secp256k1.n : Int) : Fn) * k = y := by
  rcases normalizeLowS_rep hs with hsame | hneg
  · exact ⟨κ, Or.inl rfl, by rw [hsame, mul_comm, mul_inv_cancel_left₀ hκ]⟩
  · exact ⟨-κ, Or.inr rfl, by rw [hneg, neg_mul_neg, mul_comm, mul_inv_cancel_left₀ hκ]⟩

/-- The signature of a call, from the shared nonce and the shared key. -/
theorem Made.sig_eq {e : Emitted} (h : Made e) :
    ∃ s, s = signScalar (e.presign.kA * e.presign.kB % Secp256k1.n)
        (hashToScalar (doubleSha256 e.msg) Secp256k1.n) e.presign.r (e.key.skA * e.key.skB % Secp256k1.n) ∧
      s ≠ 0 ∧ e.sig = ⟨e.presign.r, normalizeLowS s Secp256k1.n⟩ := by
  have hp := h.presign.agreed h.key.skA h.key.skB
  obtain ⟨rest, hrun⟩ := h.sig
  obtain ⟨t, -, -, -, s, hs, hs0, hsig⟩ := thresholdSign_eq_ok hp.shares hp.k_ne_zero hrun
  rw [hp.k, hp.sk] at hs
  exact ⟨s, hs, hs0, hsig⟩

/-- One presign belongs to one private key. -/
theorem Made.key_eq {e e' : Emitted} (h : Made e) (h' : Made e') (hsame : e.presign = e'.presign) :
    e.key.skA * e.key.skB % Secp256k1.n = e'.key.skA * e'.key.skB % Secp256k1.n := by
  have hsk := (h.presign.agreed h.key.skA h.key.skB).sk
  have hsk' := (h'.presign.agreed h'.key.skA h'.key.skB).sk
  rw [← hsame] at hsk'
  exact hsk.symm.trans hsk'

/-- **A presign used for two messages gives the private key away**, in every
session; used again for one message it makes one signature. -/
theorem presign_reuse_reveals_key (tape : List Int) (calls : List Call) {e e' : Emitted}
    (he : e ∈ (Session.run .release tape calls).emitted) (he' : e' ∈ (Session.run .release tape calls).emitted)
    (hsame : e.presign = e'.presign) :
    (hashToScalar (doubleSha256 e.msg) Secp256k1.n = hashToScalar (doubleSha256 e'.msg) Secp256k1.n →
      e.sig = e'.sig) ∧
    (e.presign.r ≠ 0 →
      hashToScalar (doubleSha256 e.msg) Secp256k1.n ≠ hashToScalar (doubleSha256 e'.msg) Secp256k1.n →
      ∀ build, recoverKey build e.key.Q (hashToScalar (doubleSha256 e.msg) Secp256k1.n)
        (hashToScalar (doubleSha256 e'.msg) Secp256k1.n) e.sig.r e.sig.s e'.sig.s =
          .ok (some (modMul e.key.skA e.key.skB Secp256k1.n))) := by
  have hm := run_made tape calls e he
  have hm' := run_made tape calls e' he'
  obtain ⟨s, hs, hs0, hsig⟩ := hm.sig_eq
  obtain ⟨s', hs', hs0', hsig'⟩ := hm'.sig_eq
  rw [← hsame] at hs' hsig'
  rw [← hm.key_eq hm' hsame] at hs'
  rw [hsig, hsig']
  refine ⟨?_, ?_⟩
  · intro hz
    rw [hs, hs', hz]
  · intro hr0 hz build
    have hd := modMul_rep (canon_of_range hm.key.skA).rep (canon_of_range hm.key.skB).rep
    have hr := hm.presign.coord.1.range hr0
    have hκ : ((e.presign.kA * e.presign.kB % Secp256k1.n : Int) : Fn) ≠ 0 := by
      intro h0
      exact emod_mul_ne_zero hm.presign.kA hm.presign.kB ((canon_emod n_pos _).rep.eq_zero_iff.mpr h0)
    have hσ : ((e.key.skA * e.key.skB % Secp256k1.n : Int) : Fn) = (modMul e.key.skA e.key.skB Secp256k1.n : Int) := by
      rw [hd.2, cast_emod n_pos.le, Int.cast_mul]
    -- both values of `s` come from one nonce, up to its sign
    have hsrep := hs ▸ signScalar_rep _ _ _ _
    have hsrep' := hs' ▸ signScalar_rep _ _ _ _
    obtain ⟨k, hk, heq⟩ := normalizeLowS_nonce hsrep hκ
    obtain ⟨k', hk', heq'⟩ := normalizeLowS_nonce hsrep' hκ
    have hkk : k' = k ∨ k' = -k := by
      rcases hk with rfl | rfl <;> rcases hk' with rfl | rfl <;> simp
    have hzF : msgScalar e.msg ≠ msgScalar e'.msg := fun heq =>
      hz (((msgScalar_rep _).eq_iff (msgScalar_rep _)).mpr heq)
    rw [hσ] at heq heq'
    obtain ⟨τ, hτ, hne, hkey⟩ := EcdsaGroup.exists_key_of_opposite (cast_ne_zero_of_range hr) hzF hkk heq heq'
    have hlow := normalizeLowS_range hsrep.1 hs0
    have hlow' := normalizeLowS_range hsrep'.1 hs0'
    have hQ := hm.key.Q
    rw [← hd.2] at hQ
    exact recoverKey_spec hd.1 hQ (msgScalar_rep _).1 (msgScalar_rep _).1 hr
      (canon_of_range ⟨hlow.1, low_lt_n hlow.2⟩) ⟨hlow'.1, low_lt_n hlow'.2⟩ hτ hne hkey build

/-! ## One session: a presign used for the messages `[]` and `[1]` -/

def reuseDraws : List Int := sampleDraws ++ sampleTape.toList

def reuseCalls : List Call := sampleCalls ++ [.sign 0 [1]]

def firstEmitted : Emitted := { sampleEmitted with tape := sampleTape.toList ++ sampleTape.toList }

def secondEmitted : Emitted where
  key := sampleKey
  presign := samplePresign
  msg := [1]
  sig := ⟨Secp256k1.gx, 9868216004301992901011777275028638191778952317649520115363543683970661365191⟩
  tape := sampleTape.toList

set_option maxRecDepth 20000 in
theorem run_reuse : (Session.run .release reuseDraws reuseCalls).emitted = [firstEmitted, secondEmitted] := by
  decide +kernel

theorem mem_run_reuse : firstEmitted ∈ (Session.run .release reuseDraws reuseCalls).emitted ∧
    secondEmitted ∈ (Session.run .release reuseDraws reuseCalls).emitted := by
  rw [run_reuse]
  exact ⟨List.mem_cons_self, List.mem_cons_of_mem _ List.mem_cons_self⟩

set_option maxRecDepth 20000 in
theorem hashToScalar_reuse : hashToScalar (doubleSha256 []) Secp256k1.n ≠
    hashToScalar (doubleSha256 [1]) Secp256k1.n := by
  unfold doubleSha256
  rw [sha256_eq_eval]
  decide +kernel

theorem presign_reuse_reveals_key_sample :
    (firstEmitted ∈ (Session.run .release reuseDraws reuseCalls).emitted ∧
      secondEmitted ∈ (Session.run .release reuseDraws reuseCalls).emitted) ∧
    recoverKey .release generator (hashToScalar (doubleSha256 []) Secp256k1.n)
      (hashToScalar (doubleSha256 [1]) Secp256k1.n) Secp256k1.gx firstEmitted.sig.s secondEmitted.sig.s =
        .ok (some 1) :=
  ⟨mem_run_reuse, (presign_reuse_reveals_key reuseDraws reuseCalls mem_run_reuse.1 mem_run_reuse.2 rfl).2
    (by decide) hashToScalar_reuse .release⟩

theorem scalarMul_gen : scalarMul .release 1 generator = .ok generator := by decide +kernel

theorem repeated_r_reveals_key_sample :
    verify .release generator [] Secp256k1.gx firstEmitted.sig.s = .ok true ∧
    verify .release generator [1] Secp256k1.gx secondEmitted.sig.s = .ok true ∧
    recoverKey .release generator (hashToScalar (doubleSha256 []) Secp256k1.n)
      (hashToScalar (doubleSha256 [1]) Secp256k1.n) Secp256k1.gx firstEmitted.sig.s secondEmitted.sig.s =
        .ok (some 1) := by
  have hsound := (run_sound reuseDraws reuseCalls).emitted
  have hv := ((hsound _ mem_run_reuse.1).2 (by decide)).2.2.2 .release
  have hv' := ((hsound _ mem_run_reuse.2).2 (by decide)).2.2.2 .release
  exact ⟨hv, hv', repeated_r_reveals_key (by decide) scalarMul_gen hv hv' (by decide) hashToScalar_reuse⟩

end Tecdsa
