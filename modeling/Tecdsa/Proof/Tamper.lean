import Tecdsa.Proof.Scalars
import Tecdsa.Proof.Sign

/-!
# How many messages and keys a signature is accepted for

A signature names the coordinate of its nonce point, so its nonces are those
of the points with that coordinate modulo `n`: two for each `x` in `[0, p)` that
reduces to `r`, and there are two such `x` at most.

    encard_nonces_le               four nonces, two when r + n ≥ p
    verify_tamper                  four messages, four keys
-/

namespace Tecdsa

open Residue WeierstrassCurve.Affine

/-! ## The nonces of a coordinate -/

/-- `p` is less than `2 n`, so `[0, p)` holds at most two `x` with one residue. -/
theorem eq_or_eq_add_n {x r : Int} (hx : Canon Secp256k1.p x) (h : x % Secp256k1.n = r) :
    x = r ∨ x = r + Secp256k1.n := by
  obtain ⟨h0, hp⟩ := hx
  have hn := n_pos
  have h2n : Secp256k1.p < 2 * Secp256k1.n := by decide
  rcases Int.lt_or_le x Secp256k1.n with hlt | hle
  · rw [Int.emod_eq_of_lt h0 hlt] at h
    exact Or.inl h
  · rw [← Int.sub_emod_right, Int.emod_eq_of_lt (by omega) (by omega)] at h
    omega

/-- The x-coordinates of the points with the coordinate `r`. -/
theorem xCoord_of_coord {r : Int} (hr : 1 ≤ r ∧ r < Secp256k1.n) {A : Group}
    (h : secp.coord A = some (r : Fn)) : ShortCurve.xCoord A = some (r : Fp) ∨
      r + Secp256k1.n < Secp256k1.p ∧
        ShortCurve.xCoord A = some ((r + Secp256k1.n : Int) : Fp) := by
  cases A with
  | zero => cases h
  | some X Y hXY =>
    have hval : (((lift X : Int)) : Fn) = (r : Fn) := by
      have hX : (X.val : Fn) = (r : Fn) := Option.some.inj h
      rw [← hX]
      exact Int.cast_natCast X.val
    rw [cast_eq_cast_iff n_pos.le, (canon_of_range hr).emod_eq] at hval
    have hX := rep_lift p_pos X
    have hx : ShortCurve.xCoord (Point.some X Y hXY) = some ((lift X : Int) : Fp) := by
      rw [hX.2]
      rfl
    rcases eq_or_eq_add_n hX.1 hval with heq | heq
    · rw [hx, heq]
      exact Or.inl rfl
    · refine Or.inr ⟨by rw [← heq]; exact hX.1.2, ?_⟩
      rw [hx, heq]

/-- Scalars whose multiples share an x-coordinate are equal or opposite. -/
theorem scalar_eq_or_neg {κ μ : Fn} {x : Option Fp}
    (hκ : ShortCurve.xCoord (secp.base κ) = x) (hμ : ShortCurve.xCoord (secp.base μ) = x) :
    μ = κ ∨ μ = -κ := by
  rcases ShortCurve.eq_or_eq_neg_of_xCoord_eq (hκ.trans hμ.symm) with h | h
  · exact Or.inl (secp_base_injective h)
  · rw [← map_neg] at h
    exact Or.inr (secp_base_injective h)

/-- The scalars over one x-coordinate. -/
def fibre (x : Fp) : Set Fn := {κ | ShortCurve.xCoord (secp.base κ) = some x}

theorem encard_fibre_le (x : Fp) : (fibre x).encard ≤ 2 :=
  EcdsaGroup.encard_le_two fun _ hκ _ hμ => scalar_eq_or_neg hκ hμ

theorem nonces_subset {r : Int} (hr : 1 ≤ r ∧ r < Secp256k1.n) :
    secp.nonces (r : Fn) ⊆ fibre (r : Fp) ∪ fibre ((r + Secp256k1.n : Int) : Fp) := by
  intro κ hκ
  exact (xCoord_of_coord hr hκ).imp id And.right

/-- When `r + n` is no x-coordinate one fibre is left. -/
theorem nonces_subset_fibre {r : Int} (hr : 1 ≤ r ∧ r < Secp256k1.n)
    (hbig : Secp256k1.p ≤ r + Secp256k1.n) : secp.nonces (r : Fn) ⊆ fibre (r : Fp) := by
  intro κ hκ
  rcases xCoord_of_coord hr hκ with h | ⟨hlt, -⟩
  · exact h
  · omega

/-- **A signature has four nonces at most, and two when `r + n ≥ p`.** -/
theorem encard_nonces_le {r : Int} (hr : 1 ≤ r ∧ r < Secp256k1.n) :
    (secp.nonces (r : Fn)).encard ≤ 4 ∧
      (Secp256k1.p ≤ r + Secp256k1.n → (secp.nonces (r : Fn)).encard ≤ 2) := by
  constructor
  · calc (secp.nonces (r : Fn)).encard
        ≤ (fibre (r : Fp) ∪ fibre ((r + Secp256k1.n : Int) : Fp)).encard :=
          Set.encard_le_encard (nonces_subset hr)
      _ ≤ (fibre (r : Fp)).encard + (fibre ((r + Secp256k1.n : Int) : Fp)).encard :=
          Set.encard_union_le _ _
      _ ≤ 2 + 2 := add_le_add (encard_fibre_le _) (encard_fibre_le _)
      _ = 4 := by norm_num
  · intro hbig
    exact (Set.encard_le_encard (nonces_subset_fibre hr hbig)).trans (encard_fibre_le _)

/-! ## Records of multiples -/

/-- At infinity a record is `identity`, as the code makes it. -/
def Tidy (P : AffinePoint) : Prop := P.infinity = true → P = identity

theorem tidy_identity : Tidy identity := fun _ => rfl

theorem tidy_of_finite {P : AffinePoint} (h : P.infinity = false) : Tidy P := by
  intro hinf
  rw [h] at hinf
  cases hinf

theorem pointDouble_tidy {build : Build} {P R : AffinePoint} (hP : Tidy P)
    (h : pointDouble build P = .ok R) : Tidy R := by
  unfold pointDouble pointDoubleWith at h
  simp only at h
  split at h
  · cases h
    exact hP
  · split at h
    · cases h
      exact tidy_identity
    · obtain ⟨i, -, hend⟩ := Run.bind_eq_ok h
      cases hend
      exact tidy_of_finite rfl

theorem pointAdd_tidy {build : Build} {P Q R : AffinePoint} (hP : Tidy P) (hQ : Tidy Q)
    (h : pointAdd build P Q = .ok R) : Tidy R := by
  unfold pointAdd pointAddWith at h
  simp only at h
  split at h
  · cases h
    exact hQ
  · split at h
    · cases h
      exact hP
    · split at h
      · split at h
        · exact pointDouble_tidy hP h
        · cases h
          exact tidy_identity
      · obtain ⟨i, -, hend⟩ := Run.bind_eq_ok h
        cases hend
        exact tidy_of_finite rfl

theorem scalarMulLoop_tidy {build : Build} {k : Int} {numBits : Nat} (todo : Nat) :
    ∀ {i : Nat} {R Q S : AffinePoint}, Tidy R → Tidy Q →
      scalarMulLoop build k numBits todo i R Q = .ok S → Tidy S := by
  induction todo with
  | zero =>
    intro i R Q S hR _ h
    cases h
    exact hR
  | succ todo ih =>
    intro i R Q S hR hQ h
    rw [scalarMulLoop_succ] at h
    obtain ⟨R', hR', h⟩ := Run.bind_eq_ok h
    obtain ⟨Q', hQ', h⟩ := Run.bind_eq_ok h
    refine ih ?_ ?_ h
    · split at hR'
      · exact pointAdd_tidy hR hQ hR'
      · cases hR'
        exact hR
    · split at hQ'
      · exact pointDouble_tidy hQ hQ'
      · cases hQ'
        exact hQ

theorem scalarMul_tidy {build : Build} {k : Int} {P R : AffinePoint} (hP : Tidy P)
    (h : scalarMul build k P = .ok R) : Tidy R := by
  unfold scalarMul at h
  fun_induction scalarMulWith (modInv build) k P with
  | case1 k P hinf =>
    cases h
    exact hP
  | case2 P hinf =>
    cases h
    exact tidy_identity
  | case3 k P hinf h0 hneg ih =>
    refine ih (tidy_of_finite ?_) h
    unfold pointNeg
    rw [if_neg hinf]
    rfl
  | case4 k P hinf h0 hneg numBits => exact scalarMulLoop_tidy numBits tidy_identity hP h

/-- One multiple of `G`, one record. -/
theorem scalarMul_record {build : Build} {a b : Int} (hab : (a : Fn) = (b : Fn)) {A B : AffinePoint}
    (hA : scalarMul build a generator = .ok A) (hB : scalarMul build b generator = .ok B) : A = B := by
  obtain ⟨A', hA', hdenA⟩ := scalarMul_generator a
  obtain ⟨B', hB', hdenB⟩ := scalarMul_generator b
  cases (hA' build).symm.trans hA
  cases (hB' build).symm.trans hB
  rw [← hab] at hdenB
  cases hinf : A.infinity with
  | false => exact hdenA.record_unique hdenB hinf
  | true =>
    have hinfB : B.infinity = true := hdenB.infinity_iff.mpr (hdenA.infinity_iff.mp hinf)
    have hG : Tidy generator := tidy_of_finite rfl
    rw [scalarMul_tidy hG hA hinf, scalarMul_tidy hG hB hinfB]

/-! ## Acceptance -/

theorem verifyScalar_iff {Q : AffinePoint} {δ : Fn} (hQ : Denotes Q (secp.base δ)) {z r s : Int}
    (hz : Canon Secp256k1.n z) (hr : 1 ≤ r ∧ r < Secp256k1.n) (hs : 1 ≤ s ∧ s < Secp256k1.n)
    (build : Build) :
    verifyScalar build Q z r s = .ok true ↔ secp.Accepts δ (z : Fn) (r : Fn) (s : Fn) := by
  obtain ⟨b, hb, hiff⟩ := verifyScalar_spec hQ hz.rep r s
  rw [hb build, Except.ok.injEq, hiff, and_iff_right]
  exact ⟨hr, hs⟩

/-- The hash scalars a signature is accepted for. -/
def acceptedScalars (build : Build) (Q : AffinePoint) (r s : Int) : Set Int :=
  {z | Canon Secp256k1.n z ∧ verifyScalar build Q z r s = .ok true}

/-- The multiples of `G` that accept a signature of a message. -/
def acceptingKeys (build : Build) (msg : Octets) (r s : Int) : Set AffinePoint :=
  {Q | (∃ d : Int, scalarMul build d generator = .ok Q) ∧ verify build Q msg r s = .ok true}

section
variable {r s : Int}

theorem encard_acceptedScalars_le {Q : AffinePoint} {δ : Fn} (hQ : Denotes Q (secp.base δ))
    (hr : 1 ≤ r ∧ r < Secp256k1.n) (hs : 1 ≤ s ∧ s < Secp256k1.n) (build : Build) :
    (acceptedScalars build Q r s).encard ≤ (secp.nonces (r : Fn)).encard := by
  have hmaps : Set.MapsTo (fun z : Int => (z : Fn)) (acceptedScalars build Q r s)
      {ζ | secp.Accepts δ ζ (r : Fn) (s : Fn)} := by
    rintro z ⟨hz, hver⟩
    exact (verifyScalar_iff hQ hz hr hs build).mp hver
  have hinj : Set.InjOn (fun z : Int => (z : Fn)) (acceptedScalars build Q r s) := by
    rintro z ⟨hz, -⟩ z' ⟨hz', -⟩ heq
    exact (hz.rep.eq_iff hz'.rep).mpr heq
  exact (Set.encard_le_encard_of_injOn hmaps hinj).trans
    (EcdsaGroup.encard_scalars_le (cast_ne_zero_of_range hs) δ _)

theorem encard_acceptingKeys_le (hr : 1 ≤ r ∧ r < Secp256k1.n) (hs : 1 ≤ s ∧ s < Secp256k1.n)
    (build : Build) (msg : Octets) :
    (acceptingKeys build msg r s).encard ≤ (secp.nonces (r : Fn)).encard := by
  -- every accepting key is the record of an accepting scalar
  have hrecord (δ : Fn) : ∃ Q, scalarMul build (lift δ) generator = .ok Q :=
    (scalarMul_generator (lift δ)).imp fun _ h => h.1 build
  choose record hrec using hrecord
  have hsub : acceptingKeys build msg r s ⊆
      record '' {δ | secp.Accepts δ (msgScalar msg) (r : Fn) (s : Fn)} := by
    rintro Q ⟨⟨d, hd⟩, hver⟩
    obtain ⟨Q', hQ', hden⟩ := scalarMul_generator d
    cases (hQ' build).symm.trans hd
    refine ⟨(d : Fn), (verifyScalar_iff hden (msgScalar_rep msg).1 hr hs build).mp hver, ?_⟩
    exact scalarMul_record (rep_lift n_pos _).2 (hrec _) hd
  calc (acceptingKeys build msg r s).encard
      ≤ (record '' {δ | secp.Accepts δ (msgScalar msg) (r : Fn) (s : Fn)}).encard :=
        Set.encard_le_encard hsub
    _ ≤ {δ | secp.Accepts δ (msgScalar msg) (r : Fn) (s : Fn)}.encard := Set.encard_image_le _ _
    _ ≤ (secp.nonces (r : Fn)).encard := EcdsaGroup.encard_keys_le (cast_ne_zero_of_range hr)
        (cast_ne_zero_of_range hs) _

/-- With two nonces one other scalar is left. -/
theorem accepted_scalar_eq_or {d : Int} {Q : AffinePoint} (hQ : Denotes Q (secp.base (d : Fn)))
    (hr : 1 ≤ r ∧ r < Secp256k1.n) (hs : 1 ≤ s ∧ s < Secp256k1.n)
    (hbig : Secp256k1.p ≤ r + Secp256k1.n) {build : Build} {z z' : Int}
    (hz : z ∈ acceptedScalars build Q r s) (hz' : z' ∈ acceptedScalars build Q r s) :
    z' = z ∨ z' = (-z - 2 * r * d) % Secp256k1.n := by
  obtain ⟨hzc, hzv⟩ := hz
  obtain ⟨hzc', hzv'⟩ := hz'
  have hpm : ∀ κ ∈ secp.nonces (r : Fn), ∀ μ ∈ secp.nonces (r : Fn), μ = κ ∨ μ = -κ := by
    intro κ hκ μ hμ
    exact scalar_eq_or_neg (nonces_subset_fibre hr hbig hκ) (nonces_subset_fibre hr hbig hμ)
  rcases EcdsaGroup.scalar_eq_or (cast_ne_zero_of_range hs) hpm
    ((verifyScalar_iff hQ hzc hr hs build).mp hzv)
    ((verifyScalar_iff hQ hzc' hr hs build).mp hzv') with h | h
  · exact Or.inl ((hzc'.rep.eq_iff hzc.rep).mpr h)
  · right
    refine hzc'.rep.congr ((rep_emod n_pos _).of_cast ?_)
    rw [h]
    push_cast
    ring

end

/-- **A signature is accepted for four messages and four keys at most**, two of
each when `r + n ≥ p`; the other message then has the scalar `-z - 2 r d`.
Messages are counted by their scalar, keys as the records `scalar_mul` makes. -/
theorem verify_tamper (d : Int) {r s : Int} (hr : 1 ≤ r ∧ r < Secp256k1.n)
    (hs : 1 ≤ s ∧ s < Secp256k1.n) :
    ∃ Q, (∀ build, scalarMul build d generator = .ok Q) ∧ ∀ build,
      ((acceptedScalars build Q r s).encard ≤ 4 ∧
        (Secp256k1.p ≤ r + Secp256k1.n → (acceptedScalars build Q r s).encard ≤ 2)) ∧
      (∀ msg, verify build Q msg r s = .ok true ↔
        hashToScalar (doubleSha256 msg) Secp256k1.n ∈ acceptedScalars build Q r s) ∧
      (Secp256k1.p ≤ r + Secp256k1.n → ∀ z ∈ acceptedScalars build Q r s, ∀ msg,
        verify build Q msg r s = .ok true →
          hashToScalar (doubleSha256 msg) Secp256k1.n = z ∨
          hashToScalar (doubleSha256 msg) Secp256k1.n = (-z - 2 * r * d) % Secp256k1.n) ∧
      ∀ msg, (acceptingKeys build msg r s).encard ≤ 4 ∧
        (Secp256k1.p ≤ r + Secp256k1.n → (acceptingKeys build msg r s).encard ≤ 2) := by
  obtain ⟨hfour, htwo⟩ := encard_nonces_le hr
  obtain ⟨Q, hQ, hden⟩ := scalarMul_generator d
  refine ⟨Q, hQ, ?_⟩
  intro build
  have hscalars := encard_acceptedScalars_le hden hr hs build
  have hmsg (msg : Octets) : verify build Q msg r s = .ok true ↔
      hashToScalar (doubleSha256 msg) Secp256k1.n ∈ acceptedScalars build Q r s := by
    unfold verify
    exact (and_iff_right (msgScalar_rep msg).1).symm
  refine ⟨⟨hscalars.trans hfour, fun hbig => hscalars.trans (htwo hbig)⟩, hmsg, ?_, ?_⟩
  · intro hbig z hz msg hver
    exact accepted_scalar_eq_or hden hr hs hbig hz ((hmsg msg).mp hver)
  · intro msg
    have hkeys := encard_acceptingKeys_le hr hs build msg
    exact ⟨hkeys.trans hfour, fun hbig => hkeys.trans (htwo hbig)⟩

/-- The signature of the key 1 and the empty message, whose `r + n` is no x-coordinate. -/
theorem verify_tamper_one : ∃ Q, (∀ build, scalarMul build 1 generator = .ok Q) ∧ ∀ build,
    verify build Q [] signatureOne.r signatureOne.s = .ok true ∧
    (scalarOne : Int) ∈ acceptedScalars build Q signatureOne.r signatureOne.s ∧
    (acceptedScalars build Q signatureOne.r signatureOne.s).encard ≤ 2 ∧
    (∀ msg, verify build Q msg signatureOne.r signatureOne.s = .ok true →
      hashToScalar (doubleSha256 msg) Secp256k1.n = scalarOne ∨
      hashToScalar (doubleSha256 msg) Secp256k1.n = (-scalarOne - 2 * signatureOne.r * 1) % Secp256k1.n) ∧
    (acceptingKeys build [] signatureOne.r signatureOne.s).encard ≤ 2 := by
  have hone : (1 : Int) ≤ 1 ∧ 1 < Secp256k1.n := by decide
  obtain ⟨hr, hs, hsigns⟩ := sign_signs hone sign_one
  have hsn : 1 ≤ signatureOne.s ∧ signatureOne.s < Secp256k1.n := ⟨hs.1, low_lt_n hs.2⟩
  have hbig : Secp256k1.p ≤ signatureOne.r + Secp256k1.n := by decide
  obtain ⟨Q, hQ, h⟩ := verify_tamper 1 hr hsn
  obtain ⟨Q', hQ', hden⟩ := scalarMul_base (canon_of_range hone).rep
  cases (hQ .release).symm.trans (hQ' .release)
  refine ⟨Q, hQ, ?_⟩
  intro build
  obtain ⟨hscalars, hmsg, hother, hkeys⟩ := h build
  have hver := verify_of_signs hden hr hsn hsigns build
  have hmem := (hmsg []).mp hver
  rw [hashToScalar_empty] at hmem
  exact ⟨hver, hmem, hscalars.2 hbig, hother hbig _ hmem, (hkeys []).2 hbig⟩

end Tecdsa
