import Tecdsa.Lib.Rejection
import Tecdsa.Proof.CurveOrder
import Tecdsa.Proof.KeyFlow
import Tecdsa.Proof.ThresholdSign

/-!
# Keys and nonce points are drawn uniformly

`uniform_nonzero_below` rejects zeros and keeps the draw after them, so the
tapes a function returns on are known (`run_thresholdKeygen_iff`,
`run_thresholdPresign_iff`).  With one share fixed, the other is mapped one to
one onto the finite points of the curve:

    for Q finite and valid, each skA has exactly one skB              (thresholdKeygen_uniform)
    for R finite and valid, each kA has exactly one kB                (thresholdPresign_uniform)
-/

namespace Tecdsa

open Residue

/-! ## Draws -/

theorem run_uniformNonzeroBelow_iff {q x : Int} {tape rest : List Int} :
    (uniformNonzeroBelow q).run tape = (.ok x, rest) ↔
      ∃ i, tape = List.replicate i 0 ++ x :: rest ∧ NonzeroBelow q x := by
  unfold uniformNonzeroBelow mpzUrandomm
  rw [Draws.run_doWhile_draw_iff]
  simp only [Bool.and_eq_true, decide_eq_true_eq, beq_iff_eq, beq_eq_false_iff_ne]
  constructor
  · rintro ⟨pre, rfl, hpre, ⟨h0, hq⟩, hne⟩
    refine ⟨pre.length, ?_, by omega, hq⟩
    rw [← List.eq_replicate_of_mem fun y hy => (hpre y hy).2]
  · rintro ⟨i, rfl, h1, hq⟩
    refine ⟨_, rfl, ?_, ⟨by omega, hq⟩, by omega⟩
    intro y hy
    rw [List.eq_of_mem_replicate hy]
    exact ⟨⟨le_refl 0, by omega⟩, rfl⟩

/-- With one share known, the product determines the other. -/
theorem existsUnique_factor {a : Int} (ha : NonzeroBelow Secp256k1.n a) {κ : Fn} (hκ : κ ≠ 0) :
    ∃! b : Int, NonzeroBelow Secp256k1.n b ∧ (a : Fn) * (b : Fn) = κ := by
  have ha0 := cast_ne_zero_of_range ha
  have hrep := rep_lift n_pos ((a : Fn)⁻¹ * κ)
  have hne : lift ((a : Fn)⁻¹ * κ) ≠ 0 := fun h =>
    mul_ne_zero (inv_ne_zero ha0) hκ (hrep.eq_zero_iff.mp h)
  refine ⟨lift ((a : Fn)⁻¹ * κ), ⟨hrep.1.range hne, ?_⟩, ?_⟩
  · rw [hrep.2, mul_inv_cancel_left₀ ha0]
  · rintro b ⟨hb, hab⟩
    refine (canon_of_range hb).rep.congr (hrep.of_cast ?_)
    rw [← hab, inv_mul_cancel_left₀ ha0]

/-! ## Keys -/

section
variable {build : Build} {tape rest : List Int}

/-- The runs that return a key. -/
theorem run_thresholdKeygen_iff {key : ThresholdKey} :
    (thresholdKeygen build).run tape = (.ok key, rest) ↔
      ∃ i j, tape = List.replicate i 0 ++ key.skA :: (List.replicate j 0 ++ key.skB :: rest) ∧
        NonzeroBelow Secp256k1.n key.skA ∧ NonzeroBelow Secp256k1.n key.skB ∧
        Denotes key.Q (secp.base ((key.skA : Fn) * (key.skB : Fn))) := by
  constructor
  · intro h
    obtain ⟨skA, mid, hA, h⟩ := Draws.run_bind_eq_ok h
    obtain ⟨skB, mid', hB, h⟩ := Draws.run_bind_eq_ok h
    obtain ⟨Q, mid'', hQ, hend⟩ := Draws.run_bind_eq_ok h
    cases hend
    obtain ⟨hmul, rfl⟩ := Prod.mk.inj hQ
    obtain ⟨i, rfl, hAr⟩ := run_uniformNonzeroBelow_iff.mp hA
    obtain ⟨j, rfl, hBr⟩ := run_uniformNonzeroBelow_iff.mp hB
    obtain ⟨R, hR, hden, -⟩ := scalarMul_product hAr hBr
    cases (hR build).symm.trans hmul
    exact ⟨i, j, rfl, hAr, hBr, hden⟩
  · rintro ⟨i, j, rfl, hA, hB, hQ⟩
    obtain ⟨skA, skB, Q⟩ := key
    obtain ⟨R, hR, hden, hfin, -⟩ := scalarMul_product hA hB
    have hRQ := hden.record_unique hQ hfin
    subst hRQ
    unfold thresholdKeygen
    simp only [Draws.run_bind_of_ok (run_uniformNonzeroBelow_iff.mpr ⟨i, rfl, hA⟩),
      Draws.run_bind_of_ok (run_uniformNonzeroBelow_iff.mpr ⟨j, rfl, hB⟩),
      Draws.run_lift_bind (hR build), Draws.run_pure]

theorem run_generateKeypair_iff {kp : KeyPair} :
    (generateKeypair build).run tape = (.ok kp, rest) ↔
      ∃ i, tape = List.replicate i 0 ++ kp.d :: rest ∧ NonzeroBelow Secp256k1.n kp.d ∧
        Denotes kp.Q (secp.base (kp.d : Fn)) := by
  constructor
  · intro h
    obtain ⟨d, mid, hd, h⟩ := Draws.run_bind_eq_ok h
    obtain ⟨Q, mid', hQ, hend⟩ := Draws.run_bind_eq_ok h
    cases hend
    obtain ⟨hmul, rfl⟩ := Prod.mk.inj hQ
    obtain ⟨i, rfl, hdr⟩ := run_uniformNonzeroBelow_iff.mp hd
    obtain ⟨R, hR, hden⟩ := scalarMul_base (canon_of_range hdr).rep
    cases (hR build).symm.trans hmul
    exact ⟨i, rfl, hdr, hden⟩
  · rintro ⟨i, rfl, hd, hQ⟩
    obtain ⟨d, Q⟩ := kp
    obtain ⟨R, hR, hden⟩ := scalarMul_base (canon_of_range hd).rep
    have hRQ := hden.record_unique hQ (hden.finite_of_ne_zero (cast_ne_zero_of_range hd))
    subst hRQ
    unfold generateKeypair
    simp only [Draws.run_bind_of_ok (run_uniformNonzeroBelow_iff.mpr ⟨i, rfl, hd⟩),
      Draws.run_lift_bind (hR build), Draws.run_pure]

end

/-- The scalar of a finite point. -/
theorem exists_scalar {Q : AffinePoint} (hQ : Valid Q) (hfin : Q.infinity = false) :
    ∃ κ : Fn, κ ≠ 0 ∧ Denotes Q (secp.base κ) := by
  obtain ⟨k, hk, -, hden⟩ := exists_scalarMul_eq hQ hfin
  exact ⟨k, cast_ne_zero_of_range hk, hden⟩

/-- Two scalars of one record. -/
theorem Denotes.base_iff {Q : AffinePoint} {κ : Fn} (hQ : Denotes Q (secp.base κ)) (μ : Fn) :
    Denotes Q (secp.base μ) ↔ μ = κ := by
  constructor
  · intro h
    exact secp_base_injective (h.unique hQ)
  · rintro rfl
    exact hQ

/-- With one share fixed, exactly one other share makes the point. -/
theorem existsUnique_share {Q : AffinePoint} (hQ : Valid Q) (hfin : Q.infinity = false) {a : Int}
    (ha : NonzeroBelow Secp256k1.n a) :
    (∃! b : Int, NonzeroBelow Secp256k1.n b ∧ Denotes Q (secp.base ((a : Fn) * (b : Fn)))) ∧
      ∃! b : Int, NonzeroBelow Secp256k1.n b ∧ Denotes Q (secp.base ((b : Fn) * (a : Fn))) := by
  obtain ⟨κ, hκ, hden⟩ := exists_scalar hQ hfin
  simp only [hden.base_iff]
  refine ⟨existsUnique_factor ha hκ, ?_⟩
  simp only [mul_comm _ (a : Fn)]
  exact existsUnique_factor ha hκ

/-- **Keys are uniform.**  The tapes that return a key are its shares, each
after zeros; with either share fixed, every finite point is the public key of
exactly one other share.  The single signer draws each point once. -/
theorem thresholdKeygen_uniform (build : Build) :
    (∀ tape rest key, (thresholdKeygen build).run tape = (.ok key, rest) ↔
      ∃ i j, tape = List.replicate i 0 ++ key.skA :: (List.replicate j 0 ++ key.skB :: rest) ∧
        (thresholdKeygen build).run [key.skA, key.skB] = (.ok key, [])) ∧
    ∀ Q, Valid Q → Q.infinity = false →
      (∀ skA, NonzeroBelow Secp256k1.n skA →
        ∃! skB, (thresholdKeygen build).run [skA, skB] = (.ok ⟨skA, skB, Q⟩, [])) ∧
      (∀ skB, NonzeroBelow Secp256k1.n skB →
        ∃! skA, (thresholdKeygen build).run [skA, skB] = (.ok ⟨skA, skB, Q⟩, [])) ∧
      ∃! d, (generateKeypair build).run [d] = (.ok ⟨d, Q⟩, []) := by
  have hlist (a b : Int) (Q : AffinePoint) : (thresholdKeygen build).run [a, b] = (.ok ⟨a, b, Q⟩, []) ↔
      NonzeroBelow Secp256k1.n a ∧ NonzeroBelow Secp256k1.n b ∧ Denotes Q (secp.base ((a : Fn) * (b : Fn))) := by
    rw [run_thresholdKeygen_iff]
    constructor
    · rintro ⟨-, -, -, h⟩
      exact h
    · intro h
      exact ⟨0, 0, rfl, h⟩
  refine ⟨?_, ?_⟩
  · intro tape rest key
    rw [hlist, run_thresholdKeygen_iff]
  · intro Q hQ hfin
    refine ⟨?_, ?_, ?_⟩
    · intro skA hA
      simp only [hlist, hA, true_and]
      exact (existsUnique_share hQ hfin hA).1
    · intro skB hB
      simp only [hlist, hB, true_and]
      exact (existsUnique_share hQ hfin hB).2
    · have hone : NonzeroBelow Secp256k1.n 1 := ⟨by decide, by decide⟩
      obtain ⟨hunique, -⟩ := existsUnique_share hQ hfin hone
      simp only [Int.cast_one, one_mul] at hunique
      convert hunique using 2
      rw [run_generateKeypair_iff]
      constructor
      · rintro ⟨-, -, h⟩
        exact h
      · intro h
        exact ⟨0, rfl, h⟩

/-! ## Presigns -/

section
variable {build : Build} {key : ThresholdKey} {tape rest : List Int}

/-- The runs that return a presign. -/
theorem run_thresholdPresign_iff {p : ThresholdPresign} :
    (thresholdPresign build key).run tape = (.ok p, rest) ↔
      (∃ i j, tape = List.replicate i 0 ++ p.kA :: (List.replicate j 0 ++ p.kB :: p.sk1 :: p.k1 :: rest)) ∧
        PresignDrawn key p := by
  constructor
  · intro h
    have hp := (thresholdPresign_yields build key).returns _ _ _ h
    refine ⟨?_, hp⟩
    unfold thresholdPresign thresholdPresignWith at h
    simp only [Draws.liftM_self, scalarMulWith_drawnInv] at h
    obtain ⟨kA, mid, hA, h₁⟩ := Draws.run_bind_eq_ok h
    obtain ⟨kB, mid', hB, h₂⟩ := Draws.run_bind_eq_ok h₁
    obtain ⟨R, mid'', hR, h₃⟩ := Draws.run_bind_eq_ok h₂
    split at h₃
    · cases h₃
    · obtain ⟨sk1, mid₁, hsk1, h₄⟩ := Draws.run_bind_eq_ok h₃
      obtain ⟨k1, mid₂, hk1, hend⟩ := Draws.run_bind_eq_ok h₄
      cases hend
      obtain ⟨-, rfl⟩ := Prod.mk.inj hR
      obtain ⟨rfl, -⟩ := uniformBelow_eq_ok hsk1
      obtain ⟨rfl, -⟩ := uniformBelow_eq_ok hk1
      obtain ⟨j, rfl, -⟩ := run_uniformNonzeroBelow_iff.mp hB
      obtain ⟨i, rfl, -⟩ := run_uniformNonzeroBelow_iff.mp hA
      exact ⟨i, j, rfl⟩
  · rintro ⟨⟨i, j, rfl⟩, hp⟩
    obtain ⟨R, hR, hden, hfin, -⟩ := scalarMul_product hp.kA hp.kB
    have hRp := hden.record_unique hp.R hfin
    subst hRp
    unfold thresholdPresign thresholdPresignWith
    simp only [Draws.liftM_self, scalarMulWith_drawnInv, Draws.run_bind_of_ok (run_uniformNonzeroBelow_iff.mpr ⟨i, rfl, hp.kA⟩),
      Draws.run_bind_of_ok (run_uniformNonzeroBelow_iff.mpr ⟨j, rfl, hp.kB⟩),
      Draws.run_lift_bind (hR build), hfin, Bool.false_eq_true, if_false,
      Draws.run_bind_of_ok (run_uniformBelow hp.sk1 _), Draws.run_bind_of_ok (run_uniformBelow hp.k1 _),
      Draws.run_pure, ← hp.r, ← hp.sk2, ← hp.k2]

theorem run_thresholdPresign_draws {kA kB sk1 k1 : Int} {p : ThresholdPresign} :
    (thresholdPresign build key).run [kA, kB, sk1, k1] = (.ok p, []) ↔
      (p.kA = kA ∧ p.kB = kB ∧ p.sk1 = sk1 ∧ p.k1 = k1) ∧ PresignDrawn key p := by
  rw [run_thresholdPresign_iff]
  constructor
  · rintro ⟨⟨i, j, htape⟩, hp⟩
    refine ⟨?_, hp⟩
    -- four draws leave no place for zeros
    have hlen := congrArg List.length htape
    simp only [List.length_append, List.length_cons, List.length_nil, List.length_replicate] at hlen
    obtain rfl : i = 0 := by omega
    obtain rfl : j = 0 := by omega
    simp only [List.replicate_zero, List.nil_append, List.cons.injEq, and_true] at htape
    obtain ⟨hA, hB, hsk, hk⟩ := htape
    exact ⟨hA.symm, hB.symm, hsk.symm, hk.symm⟩
  · rintro ⟨⟨rfl, rfl, rfl, rfl⟩, hp⟩
    exact ⟨⟨0, 0, rfl⟩, hp⟩

end

/-- The share that is missing to a difference. -/
theorem existsUnique_modSub {q s c : Int} (hs : Canon q s) (hc : Canon q c) :
    ∃! x : Int, Canon q x ∧ modSub s x q = c := by
  have hx := modSub_rep hs.rep hc.rep
  refine ⟨modSub s c q, ⟨hx.1, ?_⟩, ?_⟩
  · exact ((modSub_rep hs.rep hx).of_cast (sub_sub_cancel _ _)).congr hc.rep
  · rintro x ⟨hxc, rfl⟩
    have hd := modSub_rep hs.rep hxc.rep
    exact hxc.rep.congr ((modSub_rep hs.rep hd).of_cast (sub_sub_cancel _ _))

theorem presignDrawn_of_draws (build : Build) (key : ThresholdKey) {kA kB sk1 k1 : Int}
    (hA : NonzeroBelow Secp256k1.n kA) (hB : NonzeroBelow Secp256k1.n kB) (hsk1 : Canon Secp256k1.n sk1)
    (hk1 : Canon Secp256k1.n k1) :
    ∃ p, (thresholdPresign build key).run [kA, kB, sk1, k1] = (.ok p, []) ∧
      Denotes p.R (secp.base ((kA : Fn) * (kB : Fn))) := by
  obtain ⟨R, hR, hden⟩ := run_thresholdPresign build key hA hB hsk1 hk1 []
  exact ⟨_, hR, hden⟩

/-- **Presigns are uniform**, for every key: with one nonce share fixed each
finite point is the nonce point of exactly one other share, and each pair of
second shares of `sk` and `k` is left by exactly one pair of first shares. -/
theorem thresholdPresign_uniform (build : Build) {key : ThresholdKey}
    (hskA : NonzeroBelow Secp256k1.n key.skA) (hskB : NonzeroBelow Secp256k1.n key.skB) :
    (∀ tape rest p, (thresholdPresign build key).run tape = (.ok p, rest) ↔
      ∃ i j, tape = List.replicate i 0 ++ p.kA :: (List.replicate j 0 ++ p.kB :: p.sk1 :: p.k1 :: rest) ∧
        (thresholdPresign build key).run [p.kA, p.kB, p.sk1, p.k1] = (.ok p, [])) ∧
    (∀ R, Valid R → R.infinity = false → ∀ sk1 k1, Canon Secp256k1.n sk1 → Canon Secp256k1.n k1 →
      (∀ kA, NonzeroBelow Secp256k1.n kA →
        ∃! kB, ∃ p, (thresholdPresign build key).run [kA, kB, sk1, k1] = (.ok p, []) ∧ p.R = R) ∧
      ∀ kB, NonzeroBelow Secp256k1.n kB →
        ∃! kA, ∃ p, (thresholdPresign build key).run [kA, kB, sk1, k1] = (.ok p, []) ∧ p.R = R) ∧
    ∀ kA kB sk2 k2, NonzeroBelow Secp256k1.n kA → NonzeroBelow Secp256k1.n kB → Canon Secp256k1.n sk2 →
      Canon Secp256k1.n k2 → ∃! x : Int × Int, ∃ p,
        (thresholdPresign build key).run [kA, kB, x.1, x.2] = (.ok p, []) ∧ p.sk2 = sk2 ∧ p.k2 = k2 := by
  refine ⟨?_, ?_, ?_⟩
  · intro tape rest p
    rw [run_thresholdPresign_iff, run_thresholdPresign_draws]
    constructor
    · rintro ⟨⟨i, j, htape⟩, hp⟩
      exact ⟨i, j, htape, ⟨rfl, rfl, rfl, rfl⟩, hp⟩
    · rintro ⟨i, j, htape, -, hp⟩
      exact ⟨⟨i, j, htape⟩, hp⟩
  · intro R hR hfin sk1 k1 hsk1 hk1
    have hpoint (kA kB : Int) : (∃ p, (thresholdPresign build key).run [kA, kB, sk1, k1] = (.ok p, []) ∧
        p.R = R) ↔ NonzeroBelow Secp256k1.n kA ∧ NonzeroBelow Secp256k1.n kB ∧
          Denotes R (secp.base ((kA : Fn) * (kB : Fn))) := by
      constructor
      · rintro ⟨p, hrun, rfl⟩
        obtain ⟨⟨rfl, rfl, -⟩, hp⟩ := run_thresholdPresign_draws.mp hrun
        exact ⟨hp.kA, hp.kB, hp.R⟩
      · rintro ⟨hA, hB, hden⟩
        obtain ⟨p, hrun, hpden⟩ := presignDrawn_of_draws build key hA hB hsk1 hk1
        exact ⟨p, hrun, (hden.record_unique hpden hfin).symm⟩
    refine ⟨?_, ?_⟩
    · intro kA hA
      simp only [hpoint, hA, true_and]
      exact (existsUnique_share hR hfin hA).1
    · intro kB hB
      simp only [hpoint, hB, true_and]
      exact (existsUnique_share hR hfin hB).2
  · intro kA kB sk2 k2 hA hB hsk2 hk2
    have hsk := modMul_rep (canon_of_range hskA).rep (canon_of_range hskB).rep
    have hk := modMul_rep (canon_of_range hA).rep (canon_of_range hB).rep
    obtain ⟨x, ⟨hx, hxsk⟩, hxu⟩ := existsUnique_modSub hsk.1 hsk2
    obtain ⟨y, ⟨hy, hyk⟩, hyu⟩ := existsUnique_modSub hk.1 hk2
    refine ⟨(x, y), ?_, ?_⟩
    · obtain ⟨p, hrun, -⟩ := presignDrawn_of_draws build key hA hB hx hy
      obtain ⟨⟨rfl, rfl, rfl, rfl⟩, hp⟩ := run_thresholdPresign_draws.mp hrun
      exact ⟨p, hrun, hp.sk2.trans hxsk, hp.k2.trans hyk⟩
    · rintro ⟨x', y'⟩ ⟨p, hrun, rfl, rfl⟩
      obtain ⟨⟨rfl, rfl, rfl, rfl⟩, hp⟩ := run_thresholdPresign_draws.mp hrun
      exact Prod.ext (hxu _ ⟨hp.sk1, hp.sk2.symm⟩) (hyu _ ⟨hp.k1, hp.k2.symm⟩)

theorem thresholdPresign_uniform_sample : NonzeroBelow Secp256k1.n sampleKey.skA ∧
    ∃! x : Int × Int, ∃ p,
      (thresholdPresign .release sampleKey).run [1, 1, x.1, x.2] = (.ok p, []) ∧ p.sk2 = 0 ∧ p.k2 = 0 := by
  have hone : NonzeroBelow Secp256k1.n 1 := ⟨by decide, by decide⟩
  have hzero : Canon Secp256k1.n 0 := by decide
  exact ⟨hone, (thresholdPresign_uniform .release hone hone).2.2 1 1 0 0 hone hone hzero hzero⟩

end Tecdsa
