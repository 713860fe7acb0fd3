import Tecdsa.Proof.Sign

/-!
# What the deterministic nonce depends on

`sign_with_hash` reduces the hash with `hash_to_scalar`, `derive_nonce` with
`bits2octets`.  The two reductions are one, so the key material of the nonce
spells the pair `(d, z)`, in two fields of 32 octets:

    nonceMaterial d h n = int2octets d || int2octets (hash_to_scalar h n)   (nonceMaterial_spec)
    equal material ↔ d = d', z = z'                                  (nonceMaterial_separates)
-/

namespace Tecdsa

open Residue

/-- `int2octets(d) || bits2octets(h)`, as steps d and f append it. -/
def nonceMaterial (d : Int) (h : Sha256Hash) (q : Int) : Run Octets := do
  let qlenBits := mpzSizeinbase2 q
  let rolen := (qlenBits + 7) / 8
  let intD ← int2octets d rolen
  let bitsH ← bits2octets h.val q qlenBits rolen
  return intD ++ bitsH

/-- The text of a keyed step: `V`, the step's tag, the key material. -/
def stepText (V : Sha256Hash) (tag : UInt8) (material : Octets) : Octets :=
  V.val ++ [tag] ++ material

/-- Steps b to g, from the texts of steps d and f. -/
def keyedSteps (material : Octets) : NonceState :=
  let V : Sha256Hash := ⟨List.replicate kSha256OutputSize 0x01, List.length_replicate⟩
  let K : Sha256Hash := ⟨List.replicate kSha256OutputSize 0x00, List.length_replicate⟩
  let K := hmacSha256 K.val (stepText V 0x00 material)
  let V := hmacSha256 K.val V.val
  let K := hmacSha256 K.val (stepText V 0x01 material)
  let V := hmacSha256 K.val V.val
  ⟨K, V⟩

/-- The seed sees the key material only as a whole. -/
theorem seedState_eq_keyedSteps (intD bitsH : Octets) :
    seedState intD bitsH = keyedSteps (intD ++ bitsH) := by
  simp only [seedState, keyedSteps, stepText, List.append_assoc]

/-! ## Fixed-width fields -/

/-- A canonical scalar fills a field of 32 octets that spells it. -/
theorem int2octets_scalar {x : Int} (hx : Canon Secp256k1.n x) :
    ∃ bs, int2octets x 32 = .ok bs ∧ bs.length = 32 ∧ (bs.toNat : Int) = x := by
  obtain ⟨h0, hn⟩ := hx
  have hlt : x.toNat < 2 ^ (8 * 32) := by
    have := n_lt_two_pow
    omega
  refine ⟨_, int2octets_eq 32 h0 hlt, Octets.length_ofNat _ _, ?_⟩
  rw [Octets.toNat_ofNat, Nat.mod_eq_of_lt hlt, Int.toNat_of_nonneg h0]

theorem hashToScalar_canon (h : Sha256Hash) : Canon Secp256k1.n (hashToScalar h Secp256k1.n) :=
  (hashToScalar_rep h).1

/-! ## The key material -/

/-- The key material is two fields: the private key and the hash scalar. -/
theorem nonceMaterial_spec {d : Int} (hd : Canon Secp256k1.n d) (h : Sha256Hash) :
    ∃ intD bitsH, nonceMaterial d h Secp256k1.n = .ok (intD ++ bitsH) ∧
      (intD.length = 32 ∧ (intD.toNat : Int) = d) ∧
      bitsH.length = 32 ∧ (bitsH.toNat : Int) = hashToScalar h Secp256k1.n := by
  obtain ⟨intD, hintD, hd32, hdval⟩ := int2octets_scalar hd
  obtain ⟨bitsH, hbitsH, hh32, hhval⟩ := int2octets_scalar (hashToScalar_canon h)
  refine ⟨intD, bitsH, ?_, ⟨hd32, hdval⟩, hh32, hhval⟩
  rw [← bits2octets_hash] at hbitsH
  unfold nonceMaterial
  simp only [qlenBits_n, hintD, hbitsH, Run.ok_bind]
  rfl

theorem nonceMaterial_eq_iff {d d' : Int} (hd : Canon Secp256k1.n d) (hd' : Canon Secp256k1.n d')
    (h h' : Sha256Hash) : nonceMaterial d h Secp256k1.n = nonceMaterial d' h' Secp256k1.n ↔
      d = d' ∧ hashToScalar h Secp256k1.n = hashToScalar h' Secp256k1.n := by
  constructor
  · intro heq
    obtain ⟨intD, bitsH, hm, ⟨hd32, hdval⟩, hh32, hhval⟩ := nonceMaterial_spec hd h
    obtain ⟨intD', bitsH', hm', ⟨hd32', hdval'⟩, hh32', hhval'⟩ := nonceMaterial_spec hd' h'
    rw [hm, hm', Except.ok.injEq] at heq
    -- fields of one length are equal one by one
    obtain ⟨hD, hH⟩ := List.append_inj heq (hd32.trans hd32'.symm)
    subst hD hH
    exact ⟨hdval.symm.trans hdval', hhval.symm.trans hhval'⟩
  · rintro ⟨rfl, hz⟩
    unfold nonceMaterial
    simp only [qlenBits_n]
    rw [bits2octets_hash, bits2octets_hash, hz]

/-- `derive_nonce` reads the private key and the hash through the material. -/
theorem deriveNonce_eq_material (fuel : Nat) (d : Int) (h : Sha256Hash) (q : Int) :
    deriveNonce fuel d h q = nonceMaterial d h q >>= fun material =>
      candidateLoop q (mpzSizeinbase2 q) ((mpzSizeinbase2 q + 7) / 8) fuel (keyedSteps material) := by
  unfold deriveNonce nonceMaterial
  cases hd : int2octets d ((mpzSizeinbase2 q + 7) / 8) with
  | error e => simp only [hd, Run.error_bind]
  | ok intD =>
    cases hh : bits2octets h.val q (mpzSizeinbase2 q) ((mpzSizeinbase2 q + 7) / 8) with
    | error e => simp only [hd, hh, Run.ok_bind, Run.error_bind]
    | ok bitsH =>
      simp only [hd, hh, Run.ok_bind, Run.pure_eq_ok]
      rw [seedState_eq_keyedSteps]

/-- One scalar, one nonce. -/
theorem deriveNonce_congr {d : Int} (hd : Canon Secp256k1.n d) {h h' : Sha256Hash}
    (hz : hashToScalar h Secp256k1.n = hashToScalar h' Secp256k1.n) (fuel : Nat) :
    deriveNonce fuel d h Secp256k1.n = deriveNonce fuel d h' Secp256k1.n := by
  rw [deriveNonce_eq_material, deriveNonce_eq_material, (nonceMaterial_eq_iff hd hd h h').mpr ⟨rfl, hz⟩]

/-- One scalar, one outcome of signing. -/
theorem signWithHash_congr {d : Int} (hd : Canon Secp256k1.n d) {h h' : Sha256Hash}
    (hz : hashToScalar h Secp256k1.n = hashToScalar h' Secp256k1.n) (build : Build) (fuel : Nat) :
    signWithHash build fuel d h = signWithHash build fuel d h' := by
  rw [signWithHash_eq, signWithHash_eq, deriveNonce_congr hd hz fuel, hz]

/-- Texts of keyed steps differ when their key material does. -/
theorem stepText_injective {V V' : Sha256Hash} {tag tag' : UInt8} {m m' : Octets}
    (h : stepText V tag m = stepText V' tag' m') : m = m' := by
  unfold stepText at h
  refine (List.append_inj h ?_).2
  simp only [List.length_append, V.property, V'.property, List.length_singleton]

/-- **Nonces separate `(d, z)` and nothing else**: the key material of steps d
and f is the same exactly for one key and one scalar, one scalar gives one
nonce and one signature, and two scalars never meet in a step's text. -/
theorem nonceMaterial_separates {d d' : Int} (hd : 1 ≤ d ∧ d < Secp256k1.n)
    (hd' : 1 ≤ d' ∧ d' < Secp256k1.n) (h h' : Sha256Hash) :
    ∃ m m', nonceMaterial d h Secp256k1.n = .ok m ∧ nonceMaterial d' h' Secp256k1.n = .ok m' ∧
      (∀ fuel, deriveNonce fuel d h Secp256k1.n =
        candidateLoop Secp256k1.n 256 32 fuel (keyedSteps m)) ∧
      (m = m' ↔ d = d' ∧ hashToScalar h Secp256k1.n = hashToScalar h' Secp256k1.n) ∧
      (hashToScalar h Secp256k1.n = hashToScalar h' Secp256k1.n →
        (∀ fuel, deriveNonce fuel d h Secp256k1.n = deriveNonce fuel d h' Secp256k1.n) ∧
        ∀ build fuel, signWithHash build fuel d h = signWithHash build fuel d h') ∧
      (hashToScalar h Secp256k1.n ≠ hashToScalar h' Secp256k1.n →
        ∀ V V' tag tag', stepText V tag m ≠ stepText V' tag' m') := by
  have hc := canon_of_range hd
  have hc' := canon_of_range hd'
  have hiff := nonceMaterial_eq_iff hc hc' h h'
  obtain ⟨intD, bitsH, hm, -⟩ := nonceMaterial_spec hc h
  obtain ⟨intD', bitsH', hm', -⟩ := nonceMaterial_spec hc' h'
  rw [hm, hm', Except.ok.injEq] at hiff
  refine ⟨_, _, hm, hm', ?_, hiff, ?_, ?_⟩
  · intro fuel
    rw [deriveNonce_eq_material, hm, Run.ok_bind, qlenBits_n]
  · intro hz
    exact ⟨deriveNonce_congr hc hz, signWithHash_congr hc hz⟩
  · intro hz V V' tag tag' htext
    exact hz (hiff.mp (stepText_injective htext)).2

/-- The hash that spells `n`, which both reductions send to 0. -/
def orderHash : Sha256Hash := ⟨Octets.ofNat 32 Secp256k1.n.toNat, Octets.length_ofNat _ _⟩

def nullHash : Sha256Hash := ⟨List.replicate 32 0, List.length_replicate⟩

theorem nonceMaterial_separates_order : orderHash ≠ nullHash ∧
    hashToScalar orderHash Secp256k1.n = hashToScalar nullHash Secp256k1.n ∧
    ∀ build fuel, signWithHash build fuel 1 orderHash = signWithHash build fuel 1 nullHash := by
  have hz : hashToScalar orderHash Secp256k1.n = hashToScalar nullHash Secp256k1.n := by decide
  have hone : (1 : Int) ≤ 1 ∧ 1 < Secp256k1.n := by decide
  obtain ⟨m, m', -, -, -, -, hsame, -⟩ := nonceMaterial_separates hone hone orderHash nullHash
  exact ⟨by decide, hz, (hsame hz).2⟩

end Tecdsa
