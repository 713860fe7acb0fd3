import Tecdsa.Proof.Sha256
import Tecdsa.Spec.Rfc6979

/-!
# `derive_nonce` is RFC 6979, for every group order

The code keeps octets and integers, the RFC bit strings; a state of the code
and a state of the RFC agree (`Agrees`) when their `K` and `V` have the same
bits, and every step keeps that:

    seedState                      ~  seed                            (seedState_agrees)
    fillT, bits2int                ~  blocks, candidate               (candidate_agrees)
    reseed                         ~  reseed                          (reseed_agrees)
-/

namespace Tecdsa

open Rfc6979 (qlen rlen blockCount)

/-! ## Lengths -/

theorem mpzSizeinbase2_eq {x : Int} (hx : x ≠ 0) : mpzSizeinbase2 x = x.natAbs.size := by
  have hpos : x.natAbs ≠ 0 := by omega
  apply Nat.le_antisymm
  · exact Nat.lt_size.mpr (Nat.log2_self_le hpos)
  · exact Nat.size_le.mpr Nat.lt_log2_self

theorem qlenBits_eq {q : Int} (hq : 0 < q) : mpzSizeinbase2 q = qlen q.toNat := by
  rw [mpzSizeinbase2_eq hq.ne', qlen, show q.natAbs = q.toNat by omega]

theorem rlen_eq (q : Nat) : rlen q = 8 * ((qlen q + 7) / 8) := rfl

theorem lt_two_pow_rlen {q x : Nat} (h : x < q) : x < 2 ^ rlen q := by
  have hq : q < 2 ^ qlen q := Nat.lt_size_self q
  have hle : 2 ^ qlen q ≤ 2 ^ rlen q := Nat.pow_le_pow_right (by omega) (by rw [rlen_eq]; omega)
  omega

/-! ## Conversions -/

theorem mpzSizeinbase2_le {x : Int} {k : Nat} (hx : x ≠ 0) (h : x.natAbs < 2 ^ k) :
    mpzSizeinbase2 x ≤ k := by
  rw [mpzSizeinbase2_eq hx]
  exact Nat.size_le.mpr h

/-- The octets that hold a number's bits hold the number. -/
theorem lt_two_pow_octets (x : Int) : x.natAbs < 2 ^ (8 * ((mpzSizeinbase2 x + 7) / 8)) := by
  have hlog : x.natAbs < 2 ^ mpzSizeinbase2 x := Nat.lt_log2_self
  have hle : 2 ^ mpzSizeinbase2 x ≤ 2 ^ (8 * ((mpzSizeinbase2 x + 7) / 8)) :=
    Nat.pow_le_pow_right (by omega) (by omega)
  omega

/-- **A number that fits fills the field from the right.** -/
theorem int2octets_eq (rolen : Nat) {x : Int} (h0 : 0 ≤ x) (hx : x.toNat < 2 ^ (8 * rolen)) :
    int2octets x rolen = .ok (Octets.ofNat rolen x.toNat) := by
  by_cases hz : x = 0
  · subst hz
    rw [int2octets, if_pos rfl, ← Octets.replicate_append_ofNat (k := 0) (by omega) (by decide)]
    simp [Octets.ofNat]
  · have hbits : mpzSizeinbase2 x ≤ 8 * rolen := mpzSizeinbase2_le hz (by omega)
    have hfit : ¬ rolen < (mpzSizeinbase2 x + 7) / 8 := by omega
    have habs : x.natAbs = x.toNat := by omega
    unfold int2octets
    rw [if_neg hz]
    simp only [if_neg hfit]
    rw [mpzExport, Octets.replicate_append_ofNat (by omega) (lt_two_pow_octets x), habs]

/-- Within `rolen` octets the code writes the RFC's bits. -/
theorem int2octets_spec (rolen : Nat) {x : Int} (h0 : 0 ≤ x) (hx : x.toNat < 2 ^ (8 * rolen)) :
    ∃ bs, int2octets x rolen = .ok bs ∧ bs.toBits = Bits.ofNat (8 * rolen) x.toNat :=
  ⟨_, int2octets_eq rolen h0 hx, Octets.toBits_ofNat _ _⟩

theorem bits2int_eq (q : Nat) (data : Octets) :
    bits2int data (qlen q) = (Rfc6979.bits2int q data.toBits : Int) := by
  rw [bits2int, Rfc6979.bits2int, Octets.length_toBits, mpzImport]
  by_cases hlong : data.length * 8 > qlen q
  · rw [if_pos hlong, if_pos (by omega), ← Int.natCast_shiftRight, Nat.shiftRight_eq_div_pow,
      Bits.toNat_take, Octets.toNat_toBits, Octets.length_toBits, Nat.mul_comm]
  · rw [if_neg hlong, if_neg (by omega), Bits.toNat_append, Bits.toNat_replicate_false, zero_mul,
      zero_add, Octets.toNat_toBits]

theorem bits2octets_spec {q : Int} (hq : 0 < q) (data : Octets) :
    ∃ bs, bits2octets data q (qlen q.toNat) ((qlen q.toNat + 7) / 8) = .ok bs ∧
      bs.toBits = Rfc6979.bits2octets q.toNat data.toBits := by
  have hz : (bits2int data (qlen q.toNat)).tmod q =
      ((Rfc6979.bits2int q.toNat data.toBits % q.toNat : Nat) : Int) := by
    rw [bits2int_eq, Int.tmod_eq_emod_of_nonneg (Int.natCast_nonneg _), Int.natCast_mod,
      Int.toNat_of_nonneg hq.le]
  have hlt : Rfc6979.bits2int q.toNat data.toBits % q.toNat < q.toNat := Nat.mod_lt _ (by omega)
  rw [bits2octets, hz]
  obtain ⟨bs, hbs, hbits⟩ := int2octets_spec ((qlen q.toNat + 7) / 8)
    (Int.natCast_nonneg (Rfc6979.bits2int q.toNat data.toBits % q.toNat))
    (by rw [Int.toNat_natCast]; exact lt_two_pow_rlen hlt)
  exact ⟨bs, hbs, hbits⟩

/-- Only the first `qlen` bits count. -/
theorem bits2int_of_le {q : Nat} {b : Bits} (h : qlen q ≤ b.length) :
    Rfc6979.bits2int q b = Bits.toNat (b.take (qlen q)) := by
  rw [Rfc6979.bits2int]
  by_cases hlt : qlen q < b.length
  · rw [if_pos hlt]
  · rw [if_neg hlt, show qlen q - b.length = 0 by omega, List.replicate_zero, List.nil_append,
      List.take_of_length_le (by omega)]

/-- **Truncating `T` to `rolen` octets changes no candidate.** -/
theorem bits2int_take (q : Nat) {T : Octets} (h : (qlen q + 7) / 8 ≤ T.length) :
    bits2int (T.take ((qlen q + 7) / 8)) (qlen q) = bits2int T (qlen q) := by
  rw [bits2int_eq, bits2int_eq, Octets.toBits_take, bits2int_of_le, bits2int_of_le, List.take_take,
    Nat.min_eq_left (by omega)]
  · rw [Octets.length_toBits]
    omega
  · rw [List.length_take, Octets.length_toBits]
    omega

/-! ## States -/

/-- The code's `K` and `V` are the RFC's. -/
structure Agrees (st : NonceState) (S : Rfc6979.State) : Prop where
  K : st.K.val.toBits = S.K
  V : st.V.val.toBits = S.V

theorem hmacSha256_toBits (key msg : Octets) :
    (hmacSha256 key msg).val.toBits = Rfc6979.hmacSha256 key.toBits msg.toBits := by
  rw [Rfc6979.hmacSha256, Octets.ofBits_toBits, Octets.ofBits_toBits, hmacSha256_eq_hmac]

theorem seedState_agrees {intD bitsH : Octets} {q x : Nat} {h1 : Bits}
    (hd : intD.toBits = Rfc6979.int2octets q x) (hh : bitsH.toBits = Rfc6979.bits2octets q h1) :
    Agrees (seedState intD bitsH) (Rfc6979.seed Rfc6979.hmacSha256 256 q x h1) := by
  have hV : Octets.toBits (List.replicate 32 0x01) =
      (List.replicate (256 / 8) (Rfc6979.octet 0x01)).flatten := by decide +kernel
  have hK : Octets.toBits (List.replicate 32 0x00) =
      (List.replicate (256 / 8) (Rfc6979.octet 0x00)).flatten := by decide +kernel
  have h0 : Octets.toBits [0x00] = Rfc6979.octet 0x00 := by decide
  have h1' : Octets.toBits [0x01] = Rfc6979.octet 0x01 := by decide
  constructor <;>
    simp only [seedState, Rfc6979.seed, kSha256OutputSize, hmacSha256_toBits, Octets.toBits_append,
      hV, hK, h0, h1', hd, hh]

/-! ## The inner loop -/

theorem blocks_length (st : Rfc6979.State) (j : Nat) :
    (Rfc6979.blocks Rfc6979.hmacSha256 st j).2.length = 256 * j := by
  have hmac_length (K text : Bits) : (Rfc6979.hmacSha256 K text).length = 256 := by
    rw [Rfc6979.hmacSha256, ← hmacSha256_eq_hmac, Octets.length_toBits, (hmacSha256 _ _).property]
  induction j with
  | zero => rfl
  | succ j ih =>
    rw [Rfc6979.blocks_succ, List.length_append, ih, hmac_length]
    ring

/-- `fillT` entered after `j` blocks leaves after the RFC's number of blocks. -/
theorem fillT_agrees {st : NonceState} {S : Rfc6979.State} (hst : Agrees st S) (q todo j : Nat)
    (hj : j + todo = blockCount 256 q) (V : Sha256Hash) (T : Octets)
    (hV : V.val.toBits = (Rfc6979.blocks Rfc6979.hmacSha256 S j).1)
    (hT : T.toBits = (Rfc6979.blocks Rfc6979.hmacSha256 S j).2) :
    (fillT st.K ((qlen q + 7) / 8) V T).1.val.toBits =
        (Rfc6979.blocks Rfc6979.hmacSha256 S (blockCount 256 q)).1 ∧
      (fillT st.K ((qlen q + 7) / 8) V T).2.toBits =
        (Rfc6979.blocks Rfc6979.hmacSha256 S (blockCount 256 q)).2 := by
  have hlen : T.length = 32 * j := by
    have h := congrArg List.length hT
    rw [blocks_length, Octets.length_toBits] at h
    omega
  have hcount := Rfc6979.blockCount_spec 256 q (by omega) j
  induction todo generalizing j V T with
  | zero =>
    have : blockCount 256 q = j := by omega
    unfold fillT
    rw [if_neg (by omega), this]
    exact ⟨hV, hT⟩
  | succ todo ih =>
    unfold fillT
    rw [if_pos (by omega)]
    have hV' : (hmacSha256 st.K.val V.val).val.toBits =
        (Rfc6979.blocks Rfc6979.hmacSha256 S (j + 1)).1 := by
      rw [hmacSha256_toBits, hst.K, hV, Rfc6979.blocks_succ]
    refine ih (j + 1) (by omega) _ _ hV' ?_ ?_ (Rfc6979.blockCount_spec 256 q (by omega) (j + 1))
    · rw [Octets.toBits_append, hV', hT, Rfc6979.blocks_succ]
    · rw [List.length_append, (hmacSha256 st.K.val V.val).property]
      omega

theorem candidate_agrees {st : NonceState} {S : Rfc6979.State} (hst : Agrees st S) (q : Nat) :
    (candidate st (qlen q) ((qlen q + 7) / 8)).1 =
        (Rfc6979.candidate Rfc6979.hmacSha256 256 q S : Int) ∧
      (candidate st (qlen q) ((qlen q + 7) / 8)).2.val.toBits =
        (Rfc6979.blocks Rfc6979.hmacSha256 S (blockCount 256 q)).1 := by
  obtain ⟨hV, hT⟩ := fillT_agrees hst q (blockCount 256 q) 0 (by omega) st.V [] hst.V rfl
  refine ⟨?_, hV⟩
  have hlong : (qlen q + 7) / 8 ≤ (fillT st.K ((qlen q + 7) / 8) st.V []).2.length := by
    have h := congrArg List.length hT
    have hcount := (Rfc6979.blockCount_spec 256 q (by omega) (blockCount 256 q)).mpr (le_refl _)
    rw [blocks_length, Octets.length_toBits] at h
    omega
  show bits2int (List.take _ (fillT st.K ((qlen q + 7) / 8) st.V []).2) (qlen q) = _
  rw [bits2int_take q hlong, bits2int_eq, hT, Rfc6979.candidate]

theorem reseed_agrees {st : NonceState} {S : Rfc6979.State} (hst : Agrees st S) (q : Nat) :
    Agrees (reseed ⟨st.K, (candidate st (qlen q) ((qlen q + 7) / 8)).2⟩)
      (Rfc6979.reseed Rfc6979.hmacSha256 256 q S) := by
  have hV := (candidate_agrees hst q).2
  have h0 : Octets.toBits [0x00] = Rfc6979.octet 0x00 := by decide
  constructor <;>
    simp only [reseed, Rfc6979.reseed, hmacSha256_toBits, Octets.toBits_append, hst.K, hV, h0]

/-! ## The rejection loop -/

/-- The state at the start of round `i` of `derive_nonce`'s loop. -/
def roundState (d : Int) (h : Sha256Hash) (q : Int) : Nat → Run NonceState
  | 0 => do
    let rolen := (mpzSizeinbase2 q + 7) / 8
    let intD ← int2octets d rolen
    let bitsH ← bits2octets h.val q (mpzSizeinbase2 q) rolen
    return seedState intD bitsH
  | i + 1 => do
    let st ← roundState d h q i
    let (_, V) := candidate st (mpzSizeinbase2 q) ((mpzSizeinbase2 q + 7) / 8)
    return reseed ⟨st.K, V⟩

/-- The RFC's state and candidate of round `i`. -/
def rfcRound (d : Int) (h : Sha256Hash) (q : Int) (i : Nat) : Rfc6979.State :=
  Rfc6979.round Rfc6979.hmacSha256 256 q.toNat d.toNat h.val.toBits i

def rfcCandidate (d : Int) (h : Sha256Hash) (q : Int) (i : Nat) : Nat :=
  Rfc6979.candidate Rfc6979.hmacSha256 256 q.toNat (rfcRound d h q i)

/-- A run of the loop from a state that agrees with round `i` returns the first
acceptable candidate from there on. -/
theorem candidateLoop_eq_ok {d q : Int} {h : Sha256Hash} (fuel i : Nat) {st : NonceState}
    (hst : Agrees st (rfcRound d h q i)) (k : Int) :
    candidateLoop q (qlen q.toNat) ((qlen q.toNat + 7) / 8) fuel st = .ok k ↔
      ∃ j, i ≤ j ∧ j < i + fuel ∧ (rfcCandidate d h q j : Int) = k ∧ (1 ≤ k ∧ k < q) ∧
        ∀ l, i ≤ l → l < j → ¬ (1 ≤ rfcCandidate d h q l ∧ (rfcCandidate d h q l : Int) < q) := by
  induction fuel generalizing i st with
  | zero =>
    constructor
    · intro hk
      cases hk
    · rintro ⟨j, hij, hji, -⟩
      omega
  | succ fuel ih =>
    have hcand : (candidate st (qlen q.toNat) ((qlen q.toNat + 7) / 8)).1 = rfcCandidate d h q i :=
      (candidate_agrees hst q.toNat).1
    have hnext := ih (i + 1) (reseed_agrees hst q.toNat)
    rw [candidateLoop_succ, hcand]
    by_cases hacc : ((rfcCandidate d h q i : Nat) : Int) ≥ 1 ∧ (rfcCandidate d h q i : Int) < q
    · rw [if_pos hacc]
      constructor
      · intro hk
        cases hk
        exact ⟨i, le_refl i, by omega, rfl, hacc, fun l h1 h2 => by omega⟩
      · rintro ⟨j, hij, -, hk, hkr, hrej⟩
        have : i = j := by
          by_contra hne
          exact hrej i (le_refl i) (by omega) ⟨by omega, hacc.2⟩
        subst this
        rw [← hk]
    · rw [if_neg hacc, hnext]
      constructor
      · rintro ⟨j, hij, hj, hk, hkr, hrej⟩
        refine ⟨j, by omega, by omega, hk, hkr, ?_⟩
        intro l h1 h2
        by_cases hl : l = i
        · subst hl
          exact fun hc => hacc ⟨by omega, hc.2⟩
        · exact hrej l (by omega) h2
      · rintro ⟨j, hij, hj, hk, hkr, hrej⟩
        have : i ≠ j := by
          rintro rfl
          exact hacc ⟨by omega, by omega⟩
        exact ⟨j, by omega, by omega, hk, hkr, fun l h1 h2 => hrej l (by omega) h2⟩

/-- The loop starts, and every round is the RFC's. -/
theorem roundState_agrees {d q : Int} (hd : 1 ≤ d ∧ d ≤ q - 1) (h : Sha256Hash) (i : Nat) :
    ∃ st, roundState d h q i = .ok st ∧ Agrees st (rfcRound d h q i) := by
  have hq : 0 < q := by omega
  induction i with
  | zero =>
    obtain ⟨intD, hintD, hdbits⟩ := int2octets_spec ((qlen q.toNat + 7) / 8) (show 0 ≤ d by omega)
      (lt_two_pow_rlen (show d.toNat < q.toNat by omega))
    obtain ⟨bitsH, hbitsH, hhbits⟩ := bits2octets_spec hq h.val
    refine ⟨seedState intD bitsH, ?_, seedState_agrees hdbits hhbits⟩
    unfold roundState
    simp only [qlenBits_eq hq, hintD, hbitsH, Run.ok_bind]
    rfl
  | succ i ih =>
    obtain ⟨st, hst, hagree⟩ := ih
    refine ⟨_, ?_, reseed_agrees hagree q.toNat⟩
    unfold roundState
    simp only [qlenBits_eq hq, hst, Run.ok_bind]
    rfl

/-- `derive_nonce` is its loop, started in round 0. -/
theorem deriveNonce_eq_loop {d q : Int} {h : Sha256Hash} {st : NonceState}
    (hst : roundState d h q 0 = .ok st) (fuel : Nat) :
    deriveNonce fuel d h q =
      candidateLoop q (mpzSizeinbase2 q) ((mpzSizeinbase2 q + 7) / 8) fuel st := by
  unfold roundState at hst
  unfold deriveNonce
  cases hd : int2octets d ((mpzSizeinbase2 q + 7) / 8) with
  | error e => simp [hd] at hst
  | ok intD =>
    cases hh : bits2octets h.val q (mpzSizeinbase2 q) ((mpzSizeinbase2 q + 7) / 8) with
    | error e => simp [hd, hh] at hst
    | ok bitsH =>
      simp only [hd, hh, Run.ok_bind, Run.pure_eq_ok, Except.ok.injEq] at hst ⊢
      rw [hst]

theorem deriveNonce_eq_ok {d q : Int} (hd : 1 ≤ d ∧ d ≤ q - 1) (h : Sha256Hash) (fuel : Nat) (k : Int) :
    deriveNonce fuel d h q = .ok k ↔
      ∃ j < fuel, (rfcCandidate d h q j : Int) = k ∧ (1 ≤ k ∧ k < q) ∧
        ∀ l < j, ¬ (1 ≤ rfcCandidate d h q l ∧ (rfcCandidate d h q l : Int) < q) := by
  obtain ⟨st, hst, hagree⟩ := roundState_agrees hd h 0
  have hq : 0 < q := by omega
  rw [deriveNonce_eq_loop hst, qlenBits_eq hq, candidateLoop_eq_ok fuel 0 hagree]
  constructor
  · rintro ⟨j, -, hj, hk, hkr, hrej⟩
    exact ⟨j, by omega, hk, hkr, fun l hl => hrej l (by omega) hl⟩
  · rintro ⟨j, hj, hk, hkr, hrej⟩
    exact ⟨j, by omega, by omega, hk, hkr, fun l _ hl => hrej l hl⟩

/-- A nonce is in range, whatever the number of rounds. -/
theorem deriveNonce_range {fuel : Nat} {d q : Int} {h : Sha256Hash} {k : Int}
    (hk : deriveNonce fuel d h q = .ok k) : 1 ≤ k ∧ k < q := by
  have loop (qlenBits rolen : Nat) : ∀ (fuel : Nat) (st : NonceState),
      candidateLoop q qlenBits rolen fuel st = .ok k → 1 ≤ k ∧ k < q := by
    intro fuel
    induction fuel with
    | zero =>
      intro st h
      cases h
    | succ fuel ih =>
      intro st h
      rw [candidateLoop_succ] at h
      by_cases hacc : (candidate st qlenBits rolen).1 ≥ 1 ∧ (candidate st qlenBits rolen).1 < q
      · rw [if_pos hacc] at h
        cases h
        exact hacc
      · rw [if_neg hacc] at h
        exact ih _ h
  unfold deriveNonce at hk
  cases hd : int2octets d ((mpzSizeinbase2 q + 7) / 8) with
  | error e => simp [hd] at hk
  | ok intD =>
    cases hh : bits2octets h.val q (mpzSizeinbase2 q) ((mpzSizeinbase2 q + 7) / 8) with
    | error e => simp [hd, hh] at hk
    | ok bitsH =>
      simp only [hd, hh, Run.ok_bind] at hk
      exact loop _ _ _ _ hk

/-- **`derive_nonce` implements RFC 6979, section 3.2**, for every `q ≥ 2`. -/
theorem deriveNonce_refines_rfc6979 {q d : Int} (hq : 2 ≤ q) (hd : 1 ≤ d ∧ d ≤ q - 1) (h : Sha256Hash) :
    (∀ i, ∃ st, roundState d h q i = .ok st ∧
      st.K.val.toBits = (rfcRound d h q i).K ∧ st.V.val.toBits = (rfcRound d h q i).V ∧
      (candidate st (mpzSizeinbase2 q) ((mpzSizeinbase2 q + 7) / 8)).1 = rfcCandidate d h q i) ∧
    (∀ k : Int, (∃ fuel, deriveNonce fuel d h q = .ok k) ↔ ∃ n : Nat, k = n ∧
      Rfc6979.IsNonce Rfc6979.hmacSha256 256 q.toNat d.toNat h.val.toBits n) ∧
    ∀ T : Octets, (mpzSizeinbase2 q + 7) / 8 ≤ T.length →
      bits2int (T.take ((mpzSizeinbase2 q + 7) / 8)) (mpzSizeinbase2 q) =
        bits2int T (mpzSizeinbase2 q) := by
  have hq0 : 0 < q := by omega
  refine ⟨fun i => ?_, fun k => ⟨?_, ?_⟩, fun T hT => ?_⟩
  · obtain ⟨st, hst, hagree⟩ := roundState_agrees hd h i
    rw [qlenBits_eq hq0]
    exact ⟨st, hst, hagree.K, hagree.V, (candidate_agrees hagree q.toNat).1⟩
  · rintro ⟨fuel, hk⟩
    obtain ⟨j, -, hcand, hkr, hrej⟩ := (deriveNonce_eq_ok hd h fuel k).mp hk
    refine ⟨rfcCandidate d h q j, hcand.symm, j, rfl, by omega, ?_⟩
    intro l hl hc
    have hc' : 1 ≤ rfcCandidate d h q l ∧ rfcCandidate d h q l ≤ q.toNat - 1 := hc
    exact hrej l hl ⟨hc'.1, by omega⟩
  · rintro ⟨n, rfl, j, hcand, hkr, hrej⟩
    refine ⟨j + 1, (deriveNonce_eq_ok hd h (j + 1) n).mpr ⟨j, by omega, ?_, by omega, fun l hl hc => ?_⟩⟩
    · exact congrArg Nat.cast hcand
    · exact hrej l hl ⟨hc.1, show rfcCandidate d h q l ≤ q.toNat - 1 by omega⟩
  · rw [qlenBits_eq hq0] at hT ⊢
    exact bits2int_take q.toNat hT

/-- The smallest order: candidates of two bits, the rest of the hash shifted out. -/
theorem deriveNonce_refines_rfc6979_two : (2 : Int) ≤ 2 ∧
    ∀ k : Int, (∃ fuel, deriveNonce fuel 1 (sha256 []) 2 = .ok k) ↔ ∃ n : Nat, k = n ∧
      Rfc6979.IsNonce Rfc6979.hmacSha256 256 2 1 (sha256 []).val.toBits n :=
  ⟨by decide, (deriveNonce_refines_rfc6979 (by decide) ⟨by decide, by decide⟩ (sha256 [])).2.1⟩

end Tecdsa
