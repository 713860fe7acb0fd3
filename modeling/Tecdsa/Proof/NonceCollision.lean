import Tecdsa.Proof.HashCollision
import Tecdsa.Proof.NonceSeparation

/-!
# Equal nonces

`nonceHmacs` are the key and the text of each HMAC that `derive_nonce` computes,
`nonceCalls` the passes of the chunk loop under them.  Going back round by
round, two derivations that return one nonce were given one pair `(d, z)`, or
two of these passes collide:

    deriveNonce fuel d h n = deriveNonce fuel' d' h' n = k →
      (d = d' ∧ z = z') ∨ Collide … (nonceCalls fuel d h) (nonceCalls fuel' d' h')   (nonce_collision)
-/

namespace Tecdsa

open IteratedHash Residue Sha256

/-! ## The HMACs of a derivation -/

/-- `fillT`: one HMAC for each pass of its loop. -/
def fillTHmacs (K : Sha256Hash) (rolen : Nat) (V : Sha256Hash) (T : Octets) : List (Octets × Octets) :=
  if T.length < rolen then
    let V' := hmacSha256 K.val V.val
    (K.val, V.val) :: fillTHmacs K rolen V' (T ++ V'.val)
  else []
termination_by rolen - T.length
decreasing_by simp only [List.length_append, (hmacSha256 K.val V.val).property]; omega

/-- `reseed`. -/
def reseedHmacs (st : NonceState) : List (Octets × Octets) :=
  [(st.K.val, st.V.val ++ [0x00]), ((hmacSha256 st.K.val (st.V.val ++ [0x00])).val, st.V.val)]

/-- `candidateLoop`. -/
def candidateLoopHmacs (q : Int) (qlenBits rolen : Nat) : (fuel : Nat) → NonceState → List (Octets × Octets)
  | 0, _ => []
  | fuel + 1, st =>
    let (k, V) := candidate st qlenBits rolen
    fillTHmacs st.K rolen st.V [] ++
      if k ≥ 1 ∧ k < q then []
      else reseedHmacs ⟨st.K, V⟩ ++ candidateLoopHmacs q qlenBits rolen fuel (reseed ⟨st.K, V⟩)

/-- Step b. -/
def onesHash : Sha256Hash := ⟨List.replicate 32 0x01, List.length_replicate⟩

/-- `keyedSteps`. -/
def keyedHmacs (material : Octets) : List (Octets × Octets) :=
  let V := onesHash
  let K := nullHash
  let K₁ := hmacSha256 K.val (stepText V 0x00 material)
  let V₁ := hmacSha256 K₁.val V.val
  let K₂ := hmacSha256 K₁.val (stepText V₁ 0x01 material)
  [(K.val, stepText V 0x00 material), (K₁.val, V.val), (K₁.val, stepText V₁ 0x01 material), (K₂.val, V₁.val)]

/-- `derive_nonce` for the order of the curve. -/
def nonceHmacs (fuel : Nat) (d : Int) (h : Sha256Hash) : List (Octets × Octets) :=
  match nonceMaterial d h Secp256k1.n with
  | .ok material =>
    keyedHmacs material ++ candidateLoopHmacs Secp256k1.n 256 32 fuel (keyedSteps material)
  | .error _ => []

/-- The passes of the chunk loop that `derive_nonce` makes. -/
def nonceCalls (fuel : Nat) (d : Int) (h : Sha256Hash) : List (Regs × Octets) :=
  (nonceHmacs fuel d h).flatMap hmacCalls

/-! ## Rounds -/

/-- A rejected round, for 32 octets: one HMAC fills `T`. -/
def roundStep (st : NonceState) : NonceState := reseed ⟨st.K, hmacSha256 st.K.val st.V.val⟩

def roundHmacs (st : NonceState) : List (Octets × Octets) :=
  (st.K.val, st.V.val) :: reseedHmacs ⟨st.K, hmacSha256 st.K.val st.V.val⟩

theorem fillTHmacs_32 (K V : Sha256Hash) : fillTHmacs K 32 V [] = [(K.val, V.val)] := by
  have hshort : ([] : Octets).length < 32 := by decide
  have hfull (V' : Sha256Hash) : fillTHmacs K 32 V' ([] ++ V'.val) = [] := by
    unfold fillTHmacs
    rw [List.nil_append, if_neg (Nat.not_lt.mpr V'.property.ge)]
  unfold fillTHmacs
  rw [if_pos hshort]
  exact congrArg _ (hfull _)

/-- The states of the rejected rounds. -/
def rounds (st : NonceState) (i : Nat) : List (NonceState × Unit) :=
  inputs (fun st _ => roundStep st) st (List.replicate i ())

/-- The state after `i` rejected rounds. -/
def roundsEnd (st : NonceState) (i : Nat) : NonceState :=
  (List.replicate i ()).foldl (fun st _ => roundStep st) st

/-- The loop returns the candidate of some round, and its HMACs are those of the
rounds before and that candidate's. -/
theorem candidateLoop_rounds {q k : Int} {fuel : Nat} {st : NonceState}
    (hk : candidateLoop q 256 32 fuel st = .ok k) :
    ∃ i, k = mpzImport (hmacSha256 (roundsEnd st i).K.val (roundsEnd st i).V.val).val ∧
      candidateLoopHmacs q 256 32 fuel st =
        ((rounds st i).flatMap fun c => roundHmacs c.1) ++
          [((roundsEnd st i).K.val, (roundsEnd st i).V.val)] := by
  induction fuel generalizing st with
  | zero => cases hk
  | succ fuel ih =>
    rw [candidateLoop_succ, candidate_32] at hk
    unfold candidateLoopHmacs
    rw [candidate_32, fillTHmacs_32]
    by_cases hacc : mpzImport (hmacSha256 st.K.val st.V.val).val ≥ 1 ∧
        mpzImport (hmacSha256 st.K.val st.V.val).val < q
    · rw [if_pos hacc] at hk
      refine ⟨0, (Except.ok.inj hk).symm, ?_⟩
      simp only [if_pos hacc]
      rfl
    · rw [if_neg hacc] at hk
      obtain ⟨i, hki, hcalls⟩ := ih hk
      refine ⟨i + 1, hki, ?_⟩
      simp only [if_neg hacc]
      rw [hcalls]
      simp only [rounds, roundsEnd, List.replicate_succ, List.foldl_cons, inputs, List.flatMap_cons,
        roundHmacs, roundStep, List.cons_append, List.nil_append, List.append_assoc]

/-! ## Going back -/

/-- One HMAC, keys of 32 octets. -/
theorem hmac_back {l l' : List (Octets × Octets)} {K K' : Sha256Hash} {m m' : Octets}
    (hm : (K.val, m) ∈ l) (hm' : (K'.val, m') ∈ l') (h : hmacSha256 K.val m = hmacSha256 K'.val m') :
    Collide hmacPair l l' ∨ (K = K' ∧ m = m') := by
  rcases collide_or_eq (g := hmacPair) hm hm' h with hcol | heq
  · exact Or.inl hcol
  · rw [Prod.mk.injEq] at heq
    exact Or.inr ⟨Subtype.ext heq.1, heq.2⟩

/-- A round. -/
theorem roundStep_back {st st' : NonceState} (h : roundStep st = roundStep st') :
    Collide hmacPair (roundHmacs st) (roundHmacs st') ∨ st = st' := by
  unfold roundStep reseed at h
  rw [NonceState.mk.injEq] at h
  obtain ⟨hK, hV⟩ := h
  rw [hK] at hV
  unfold roundHmacs reseedHmacs
  rcases hmac_back (List.mem_cons_of_mem _ List.mem_cons_self) (List.mem_cons_of_mem _ List.mem_cons_self)
    hK with hcol | ⟨hKeq, htext⟩
  · exact Or.inl hcol
  · have hV' := Subtype.ext (List.append_inj' htext rfl).1
    rcases hmac_back List.mem_cons_self List.mem_cons_self hV' with hcol | ⟨-, hVeq⟩
    · exact Or.inl hcol
    · right
      cases st
      cases st'
      cases hKeq
      cases Subtype.ext hVeq
      rfl

/-- The last two steps of the seed. -/
theorem keyedSteps_eq (m : Octets) : ∃ K V : Sha256Hash, (K.val, stepText V 0x01 m) ∈ keyedHmacs m ∧
    (keyedSteps m).K = hmacSha256 K.val (stepText V 0x01 m) :=
  ⟨_, _, List.mem_cons_of_mem _ (List.mem_cons_of_mem _ List.mem_cons_self), rfl⟩

/-- The seed. -/
theorem keyedSteps_back {m m' : Octets} (h : keyedSteps m = keyedSteps m') :
    Collide hmacPair (keyedHmacs m) (keyedHmacs m') ∨ m = m' := by
  obtain ⟨K, V, hmem, hK⟩ := keyedSteps_eq m
  obtain ⟨K', V', hmem', hK'⟩ := keyedSteps_eq m'
  rw [h] at hK
  rcases hmac_back hmem hmem' (hK.symm.trans hK') with hcol | ⟨-, htext⟩
  · exact Or.inl hcol
  · exact Or.inr (stepText_injective htext)

/-- The texts of steps d and f are longer than those of step h. -/
theorem stepText_ne_reseed {V V' : Sha256Hash} {tag tag' : UInt8} {m : Octets} (hm : m ≠ []) :
    stepText V tag m ≠ V'.val ++ [tag'] := by
  intro htext
  have hlen := congrArg List.length htext
  have hpos := List.length_pos_of_ne_nil hm
  rw [stepText, List.length_append, List.length_append, List.length_append, V.property, V'.property,
    List.length_singleton, List.length_singleton] at hlen
  omega

/-- A seed is no state after a round. -/
theorem keyedSteps_roundStep {m : Octets} (hm : m ≠ []) {st : NonceState} (h : keyedSteps m = roundStep st) :
    Collide hmacPair (keyedHmacs m) (roundHmacs st) := by
  obtain ⟨K, V, hmem, hK⟩ := keyedSteps_eq m
  rw [h] at hK
  rcases hmac_back hmem (List.mem_cons_of_mem _ List.mem_cons_self) hK.symm with hcol | ⟨-, htext⟩
  · exact hcol
  · exact absurd htext (stepText_ne_reseed hm)

/-! ## Two derivations -/

/-- The HMACs of a derivation that returns after `i` rejected rounds. -/
def derivationHmacs (m : Octets) (i : Nat) : List (Octets × Octets) :=
  keyedHmacs m ++ (((rounds (keyedSteps m) i).flatMap fun c => roundHmacs c.1) ++
    [((roundsEnd (keyedSteps m) i).K.val, (roundsEnd (keyedSteps m) i).V.val)])

/-- A seed that some rounds of another derivation lead to. -/
theorem keyedSteps_rounds {m m' : Octets} (hm : m ≠ []) {t : List Unit} {i i' : Nat}
    (ht : List.replicate i' () = t ++ List.replicate i ())
    (hs : keyedSteps m = t.foldl (fun st _ => roundStep st) (keyedSteps m')) :
    Collide hmacPair (derivationHmacs m i) (derivationHmacs m' i') ∨ m = m' := by
  unfold derivationHmacs
  rcases List.eq_nil_or_concat t with rfl | ⟨t, u, rfl⟩
  · rcases keyedSteps_back hs with hcol | heq
    · exact Or.inl hcol.inl
    · exact Or.inr heq
  · rw [List.concat_eq_append] at ht hs
    rw [List.foldl_append, List.foldl_cons, List.foldl_nil] at hs
    rw [List.append_assoc] at ht
    refine Or.inl ((keyedSteps_roundStep hm hs).mono (List.subset_append_left _ _) ?_)
    intro c hc
    have hround := mem_inputs (fun st _ => roundStep st) (keyedSteps m') t u (List.replicate i ())
    rw [← List.singleton_append, ← ht] at hround
    exact List.mem_append_right _ (List.mem_append_left _ (List.mem_flatMap.mpr ⟨_, hround, hc⟩))

/-- Derivations that end with one HMAC. -/
theorem derivation_collide {m m' : Octets} (hm : m ≠ []) (hm' : m' ≠ []) {i i' : Nat}
    (h : hmacSha256 (roundsEnd (keyedSteps m) i).K.val (roundsEnd (keyedSteps m) i).V.val =
      hmacSha256 (roundsEnd (keyedSteps m') i').K.val (roundsEnd (keyedSteps m') i').V.val) :
    Collide hmacPair (derivationHmacs m i) (derivationHmacs m' i') ∨ m = m' := by
  rcases hmac_back List.mem_cons_self List.mem_cons_self h with hcol | ⟨hK, hV⟩
  · exact Or.inl hcol.inr.inr
  have hstate : roundsEnd (keyedSteps m) i = roundsEnd (keyedSteps m') i' := by
    cases hst : roundsEnd (keyedSteps m) i
    cases hst' : roundsEnd (keyedSteps m') i'
    rw [hst, hst'] at hK hV
    cases hK
    cases Subtype.ext hV
    rfl
  rcases collide_or_end hstate with hcol | ⟨t, ht, hs⟩ | ⟨t, ht, hs⟩
  · -- two rounds led to one state
    have hrounds : Collide hmacPair ((rounds (keyedSteps m) i).flatMap fun c => roundHmacs c.1)
        ((rounds (keyedSteps m') i').flatMap fun c => roundHmacs c.1) :=
      hcol.flatMap fun x _ y _ hne heq =>
        (roundStep_back heq).resolve_right fun hxy => hne (Prod.ext hxy rfl)
    exact Or.inl hrounds.inl.inr
  · exact keyedSteps_rounds hm ht hs
  · rcases keyedSteps_rounds hm' ht hs with hcol | heq
    · exact Or.inl hcol.symm
    · exact Or.inr heq.symm

theorem deriveNonce_derivation {d : Int} (hd : Canon Secp256k1.n d) {h : Sha256Hash} {fuel : Nat} {k : Int}
    (hk : deriveNonce fuel d h Secp256k1.n = .ok k) :
    ∃ m i, nonceMaterial d h Secp256k1.n = .ok m ∧ m.length = 64 ∧
      k = mpzImport (hmacSha256 (roundsEnd (keyedSteps m) i).K.val (roundsEnd (keyedSteps m) i).V.val).val ∧
      nonceHmacs fuel d h = derivationHmacs m i := by
  obtain ⟨intD, bitsH, hm, ⟨hd32, -⟩, hh32, -⟩ := nonceMaterial_spec hd h
  rw [deriveNonce_eq_material, hm, Run.ok_bind, qlenBits_n] at hk
  obtain ⟨i, hki, hhmacs⟩ := candidateLoop_rounds hk
  refine ⟨intD ++ bitsH, i, hm, ?_, hki, ?_⟩
  · rw [List.length_append, hd32, hh32]
  · unfold nonceHmacs
    simp only [hm]
    rw [hhmacs]
    rfl

/-- A key of 32 octets, and a text that fits two chunks. -/
def ShortHmac (c : Octets × Octets) : Prop := c.1.length = 32 ∧ c.2.length ≤ 97

theorem shortHmac_V (K V : Sha256Hash) : ShortHmac (K.val, V.val) :=
  ⟨K.property, V.property.le.trans (by decide)⟩

theorem roundHmacs_short (st : NonceState) : ∀ c ∈ roundHmacs st, ShortHmac c := by
  have hreseed (V : Sha256Hash) : ShortHmac (st.K.val, V.val ++ [0x00]) := by
    refine ⟨st.K.property, ?_⟩
    rw [List.length_append, V.property, List.length_singleton]
    decide
  unfold roundHmacs reseedHmacs
  rw [List.forall_mem_cons, List.forall_mem_cons, List.forall_mem_singleton]
  exact ⟨shortHmac_V _ _, hreseed _, shortHmac_V _ _⟩

theorem keyedHmacs_short {m : Octets} (hm : m.length = 64) : ∀ c ∈ keyedHmacs m, ShortHmac c := by
  have hstep (K V : Sha256Hash) (tag : UInt8) : ShortHmac (K.val, stepText V tag m) := by
    refine ⟨K.property, ?_⟩
    rw [stepText, List.length_append, List.length_append, V.property, List.length_singleton, hm]
  unfold keyedHmacs
  rw [List.forall_mem_cons, List.forall_mem_cons, List.forall_mem_cons, List.forall_mem_singleton]
  exact ⟨hstep _ _ _, shortHmac_V _ _, hstep _ _ _, shortHmac_V _ _⟩

theorem derivationHmacs_short {m : Octets} (hm : m.length = 64) {i : Nat} {c : Octets × Octets}
    (hc : c ∈ derivationHmacs m i) : ShortHmac c := by
  unfold derivationHmacs at hc
  rcases List.mem_append.mp hc with hc | hc
  · exact keyedHmacs_short hm c hc
  rcases List.mem_append.mp hc with hc | hc
  · obtain ⟨x, -, hx⟩ := List.mem_flatMap.mp hc
    exact roundHmacs_short x.1 c hx
  · rw [List.mem_singleton.mp hc]
    exact shortHmac_V _ _

/-- **Equal nonces**: one private key and one hash scalar, or two passes of
the chunk loop, each on 64 octets, that collide. -/
theorem nonce_collision {d d' : Int} (hd : 1 ≤ d ∧ d < Secp256k1.n) (hd' : 1 ≤ d' ∧ d' < Secp256k1.n)
    {h h' : Sha256Hash} {fuel fuel' : Nat} {k : Int} (hk : deriveNonce fuel d h Secp256k1.n = .ok k)
    (hk' : deriveNonce fuel' d' h' Secp256k1.n = .ok k) :
    (d = d' ∧ hashToScalar h Secp256k1.n = hashToScalar h' Secp256k1.n) ∨
      Collide compressChunk (nonceCalls fuel d h) (nonceCalls fuel' d' h') := by
  obtain ⟨m, i, hm, hlen, hki, hhmacs⟩ := deriveNonce_derivation (canon_of_range hd) hk
  obtain ⟨m', i', hm', hlen', hki', hhmacs'⟩ := deriveNonce_derivation (canon_of_range hd') hk'
  have hne (x : Octets) (hx : x.length = 64) : x ≠ [] := by
    rintro rfl
    cases hx
  -- the nonce is the last HMAC, read as a number
  have hlast : hmacSha256 (roundsEnd (keyedSteps m) i).K.val (roundsEnd (keyedSteps m) i).V.val =
      hmacSha256 (roundsEnd (keyedSteps m') i').K.val (roundsEnd (keyedSteps m') i').V.val := by
    apply Subtype.ext
    apply Octets.ext_toNat
    · exact (hmacSha256 _ _).property.trans (hmacSha256 _ _).property.symm
    · exact Int.ofNat.inj (hki.symm.trans hki')
  rcases derivation_collide (hne m hlen) (hne m' hlen') hlast with hcol | heq
  · right
    unfold nonceCalls
    rw [hhmacs, hhmacs']
    refine hcol.flatMap ?_
    intro x hx y hy hxy heq
    obtain ⟨hxk, hxt⟩ := derivationHmacs_short hlen hx
    obtain ⟨hyk, hyt⟩ := derivationHmacs_short hlen' hy
    rcases hmacSha256_collide_of_length (by omega) (hxk.trans hyk.symm) (by omega) (by omega) heq with hc | hc
    · exact hc
    · exact absurd (Prod.ext hc.1 hc.2) hxy
  · left
    rw [← nonceMaterial_eq_iff (canon_of_range hd) (canon_of_range hd'), hm, hm', heq]

/-- The nonce of the key 1 and the scalar 0. -/
def nonceZero : Nat := 460428100221261538758501968554618800188726435462293948223212110817776932575

set_option maxRecDepth 20000 in
theorem nonceCandidate_zero : nonceCandidate 1 0 = nonceZero := by
  unfold nonceCandidate NonceState.candidateNat seedState
  rw [hmacSha256_eq_eval]
  decide +kernel

/-- Two hashes of one scalar. -/
theorem nonce_collision_order : orderHash ≠ nullHash ∧
    deriveNonce 1 1 orderHash Secp256k1.n = .ok (nonceZero : Int) ∧
    deriveNonce 1 1 nullHash Secp256k1.n = .ok (nonceZero : Int) ∧
    (((1 : Int) = 1 ∧ hashToScalar orderHash Secp256k1.n = hashToScalar nullHash Secp256k1.n) ∨
      Collide compressChunk (nonceCalls 1 1 orderHash) (nonceCalls 1 1 nullHash)) := by
  have hone : (1 : Int) ≤ 1 ∧ 1 < Secp256k1.n := by decide
  have horder : deriveNonce 1 1 orderHash Secp256k1.n = .ok (nonceZero : Int) :=
    deriveNonce_of_candidate (by decide) (by decide) nonceCandidate_zero (by decide) 0
  have hnull : deriveNonce 1 1 nullHash Secp256k1.n = .ok (nonceZero : Int) :=
    deriveNonce_of_candidate (by decide) (by decide) nonceCandidate_zero (by decide) 0
  exact ⟨by decide, horder, hnull, nonce_collision hone hone horder hnull⟩

end Tecdsa
