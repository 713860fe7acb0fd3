import Tecdsa.Proof.SharedSigning

/-!
# The simulated key and nonce generation is the two-party message flow

`threshold_keygen` and `threshold_presign` multiply the shares first and then
the generator once; in the protocol one party multiplies the other's partial
point.  The points are the same, in either order, and neither function throws:
a run that does not return has run out of draws.

    Yields (thresholdKeygen build) KeyDrawn .exhausted               (thresholdKeygen_yields)
    Yields (generateKeypair build) … .exhausted                      (generateKeypair_yields)
    Yields (thresholdPresign build key) (PresignDrawn key) .exhausted
                                                                     (thresholdPresign_yields)
-/

namespace Tecdsa

open Residue

/-! ## Draws -/

/-- `[1, q)` -/
def NonzeroBelow (q x : Int) : Prop := 1 ≤ x ∧ x < q

theorem uniformBelow_yields (q : Int) : (uniformBelow q).Yields (Canon q) .exhausted := by
  refine (Draws.Yields.draw _ _).mono ?_
  intro x hx
  simpa [Canon] using hx

theorem uniformNonzeroBelow_yields (q : Int) :
    (uniformNonzeroBelow q).Yields (NonzeroBelow q) .exhausted := by
  refine (Draws.Yields.doWhile (uniformBelow_yields q)).mono ?_
  rintro x ⟨⟨h0, hq⟩, hx⟩
  have hx0 : x ≠ 0 := by simpa using hx
  exact ⟨by omega, hq⟩

theorem run_uniformNonzeroBelow {q x : Int} (hx : NonzeroBelow q x) (rest : List Int) :
    (uniformNonzeroBelow q).run (x :: rest) = (.ok x, rest) := by
  obtain ⟨h1, hq⟩ := hx
  have hx0 : x ≠ 0 := by omega
  exact Draws.run_doWhile_of_done (run_uniformBelow ⟨by omega, hq⟩ rest) (by simpa using hx0)

/-! ## Points among the draws -/

section
variable (build : Build)

theorem pointDoubleWith_drawnInv (P : AffinePoint) :
    pointDoubleWith (drawnInv build) P = liftM (pointDouble build P) := by
  unfold pointDouble pointDoubleWith
  simp only [apply_ite (liftM : Run AffinePoint → Rand AffinePoint), Draws.lift_bind]
  rfl

theorem pointAddWith_drawnInv (P Q : AffinePoint) :
    pointAddWith (drawnInv build) P Q = liftM (pointAdd build P Q) := by
  unfold pointAdd pointAddWith
  simp only [apply_ite (liftM : Run AffinePoint → Rand AffinePoint), Draws.lift_bind, pointDoubleWith_drawnInv]
  rfl

theorem scalarMulLoopWith_drawnInv (k : Int) (numBits todo : Nat) : ∀ (i : Nat) (R Q : AffinePoint),
    scalarMulLoopWith (drawnInv build) k numBits todo i R Q = liftM (scalarMulLoop build k numBits todo i R Q) := by
  induction todo with
  | zero => exact fun i R Q => rfl
  | succ todo ih =>
    intro i R Q
    rw [scalarMulLoop_succ, scalarMulLoopWith, Draws.lift_bind]
    simp only [ih, Draws.lift_bind, pointAddWith_drawnInv, pointDoubleWith_drawnInv,
      apply_ite (liftM : Run AffinePoint → Rand AffinePoint)]
    split <;> split <;> rfl

/-- Lifting `mod_inv` lifts `scalar_mul`. -/
theorem scalarMulWith_drawnInv (k : Int) (P : AffinePoint) :
    scalarMulWith (drawnInv build) k P = liftM (scalarMul build k P) := by
  unfold scalarMul
  fun_induction scalarMulWith (modInv build) k P with
  | case1 k P hinf =>
    rw [scalarMulWith, if_pos hinf]
    rfl
  | case2 P hinf =>
    rw [scalarMulWith, if_neg hinf, if_pos rfl]
    rfl
  | case3 k P hinf h0 hneg ih => rw [scalarMulWith, if_neg hinf, if_neg h0, if_pos hneg, ih]
  | case4 k P hinf h0 hneg numBits =>
    rw [scalarMulWith, if_neg hinf, if_neg h0, if_neg hneg]
    exact scalarMulLoopWith_drawnInv build k numBits numBits 0 identity P

end

/-! ## Two shares, one point -/

/-- Both orders of the message flow, from shares `a` and `b`, end at `R`. -/
def FlowEnds (a b : Int) (R : AffinePoint) : Prop :=
  (∀ build, (do scalarMul build a (← scalarMul build b generator)) = .ok R) ∧
    ∀ build, (do scalarMul build b (← scalarMul build a generator)) = .ok R

/-- The product of the shares, multiplied centrally, is where both flows end. -/
theorem scalarMul_product {a b : Int} (ha : NonzeroBelow Secp256k1.n a)
    (hb : NonzeroBelow Secp256k1.n b) :
    ∃ R, (∀ build, scalarMul build (modMul a b Secp256k1.n) generator = .ok R) ∧
      Denotes R (secp.base ((a : Fn) * (b : Fn))) ∧ R.infinity = false ∧ FlowEnds a b R := by
  have har := (canon_of_range ha).rep
  have hbr := (canon_of_range hb).rep
  have hne : (a : Fn) * (b : Fn) ≠ 0 := mul_ne_zero (cast_ne_zero_of_range ha) (cast_ne_zero_of_range hb)
  obtain ⟨R, hR, hden⟩ := scalarMul_base (modMul_rep har hbr)
  have hfin := hden.finite_of_ne_zero hne
  -- a finite point has one record, so the flows end at that very record
  have flow {x y : Int} {χ υ : Fn} (hx : Rep Secp256k1.n x χ) (hy : Rep Secp256k1.n y υ)
      (hxy : χ * υ = (a : Fn) * (b : Fn)) (build : Build) :
      (do scalarMul build x (← scalarMul build y generator)) = .ok R := by
    obtain ⟨Y, hY, hdenY⟩ := scalarMul_base hy
    obtain ⟨S, hS, hdenS⟩ := scalarMul_multiple hx hdenY
    rw [hxy] at hdenS
    rw [hY build, Run.ok_bind, hS build, hden.record_unique hdenS hfin]
  exact ⟨R, hR, hden, hfin, flow har hbr rfl, flow hbr har (mul_comm _ _)⟩

theorem emod_mul_ne_zero {a b : Int} (ha : NonzeroBelow Secp256k1.n a)
    (hb : NonzeroBelow Secp256k1.n b) : a * b % Secp256k1.n ≠ 0 := by
  have hne : (a : Fn) * (b : Fn) ≠ 0 := mul_ne_zero (cast_ne_zero_of_range ha) (cast_ne_zero_of_range hb)
  rw [← Int.cast_mul] at hne
  exact fun h => hne ((rep_emod n_pos (a * b)).eq_zero_iff.mp h)

/-- The second share is what is missing to the product. -/
theorem modSub_shares {a b c : Int} (ha : NonzeroBelow Secp256k1.n a)
    (hb : NonzeroBelow Secp256k1.n b) (hc : Canon Secp256k1.n c) :
    Canon Secp256k1.n (modSub (modMul a b Secp256k1.n) c Secp256k1.n) ∧
      (c + modSub (modMul a b Secp256k1.n) c Secp256k1.n) % Secp256k1.n = a * b % Secp256k1.n := by
  have hprod := modMul_rep (canon_of_range ha).rep (canon_of_range hb).rep
  have hdiff := modSub_rep hprod hc.rep
  refine ⟨hdiff.1, ?_⟩
  rw [← cast_eq_cast_iff n_pos.le, Int.cast_add, hdiff.2, Int.cast_mul, add_sub_cancel]

/-! ## Key generation -/

/-- What `threshold_keygen` returns: two shares and their product's point. -/
structure KeyDrawn (key : ThresholdKey) : Prop where
  skA : NonzeroBelow Secp256k1.n key.skA
  skB : NonzeroBelow Secp256k1.n key.skB
  Q : Denotes key.Q (secp.base ((key.skA : Fn) * (key.skB : Fn)))
  finite : key.Q.infinity = false
  flow : FlowEnds key.skA key.skB key.Q

theorem thresholdKeygen_yields (build : Build) :
    (thresholdKeygen build).Yields KeyDrawn .exhausted := by
  refine (uniformNonzeroBelow_yields _).bind ?_
  intro skA hA
  refine (uniformNonzeroBelow_yields _).bind ?_
  intro skB hB
  obtain ⟨Q, hQ, hden, hfin, hflow⟩ := scalarMul_product hA hB
  have hkey : KeyDrawn ⟨skA, skB, Q⟩ := ⟨hA, hB, hden, hfin, hflow⟩
  refine (Draws.Yields.lift (hQ build) (P := fun R => R = Q) rfl _).bind ?_
  rintro _ rfl
  exact Draws.Yields.pure hkey _

/-- What the parties agree on after key generation. -/
structure KeyAgreed (key : ThresholdKey) : Prop where
  skA : NonzeroBelow Secp256k1.n key.skA
  skB : NonzeroBelow Secp256k1.n key.skB
  valid : Valid key.Q
  finite : key.Q.infinity = false
  flow : FlowEnds key.skA key.skB key.Q

theorem KeyDrawn.agreed {key : ThresholdKey} (h : KeyDrawn key) : KeyAgreed key :=
  ⟨h.skA, h.skB, h.Q.valid, h.finite, h.flow⟩

/-- Every pair of shares is drawn on some tape. -/
theorem run_thresholdKeygen (build : Build) {skA skB : Int} (hA : NonzeroBelow Secp256k1.n skA)
    (hB : NonzeroBelow Secp256k1.n skB) (rest : List Int) :
    ∃ Q, (thresholdKeygen build).run (skA :: skB :: rest) = (.ok ⟨skA, skB, Q⟩, rest) := by
  obtain ⟨Q, hQ, -⟩ := scalarMul_product hA hB
  refine ⟨Q, ?_⟩
  unfold thresholdKeygen
  simp only [Draws.run_bind_of_ok (run_uniformNonzeroBelow hA _),
    Draws.run_bind_of_ok (run_uniformNonzeroBelow hB _), Draws.run_lift_bind (hQ build), Draws.run_pure]

/-- The single signer's keys: a private key in range and its point. -/
theorem generateKeypair_yields (build : Build) :
    (generateKeypair build).Yields (fun kp => NonzeroBelow Secp256k1.n kp.d ∧
      Denotes kp.Q (secp.base (kp.d : Fn)) ∧
      ∀ build, scalarMul build kp.d generator = .ok kp.Q) .exhausted := by
  refine (uniformNonzeroBelow_yields _).bind ?_
  intro d hd
  obtain ⟨Q, hQ, hden⟩ := scalarMul_base (canon_of_range hd).rep
  refine (Draws.Yields.lift (hQ build) (P := fun R => R = Q) rfl _).bind ?_
  rintro _ rfl
  exact Draws.Yields.pure ⟨hd, hden, hQ⟩ _

/-! ## Presigning -/

/-- What `threshold_presign` returns, whatever the key. -/
structure PresignDrawn (key : ThresholdKey) (p : ThresholdPresign) : Prop where
  kA : NonzeroBelow Secp256k1.n p.kA
  kB : NonzeroBelow Secp256k1.n p.kB
  R : Denotes p.R (secp.base ((p.kA : Fn) * (p.kB : Fn)))
  finite : p.R.infinity = false
  flow : FlowEnds p.kA p.kB p.R
  r : p.r = p.R.x.tmod Secp256k1.n
  sk1 : Canon Secp256k1.n p.sk1
  sk2 : p.sk2 = modSub (modMul key.skA key.skB Secp256k1.n) p.sk1 Secp256k1.n
  k1 : Canon Secp256k1.n p.k1
  k2 : p.k2 = modSub (modMul p.kA p.kB Secp256k1.n) p.k1 Secp256k1.n

theorem thresholdPresign_yields (build : Build) (key : ThresholdKey) :
    (thresholdPresign build key).Yields (PresignDrawn key) .exhausted := by
  unfold thresholdPresign thresholdPresignWith
  simp only [Draws.liftM_self, scalarMulWith_drawnInv]
  refine (uniformNonzeroBelow_yields _).bind ?_
  intro kA hA
  refine (uniformNonzeroBelow_yields _).bind ?_
  intro kB hB
  obtain ⟨R, hR, hden, hfin, hflow⟩ := scalarMul_product hA hB
  refine (Draws.Yields.lift (hR build) (P := fun S => S = R) rfl _).bind ?_
  rintro _ rfl
  -- the branch that throws is not taken
  rw [if_neg (by simp [hfin])]
  refine (uniformBelow_yields _).bind ?_
  intro sk1 hsk1
  refine (uniformBelow_yields _).bind ?_
  intro k1 hk1
  exact Draws.Yields.pure ⟨hA, hB, hden, hfin, hflow, rfl, hsk1, rfl, hk1, rfl⟩ _

/-- `r` is the coordinate of `kA kB G`. -/
theorem PresignDrawn.coord {key : ThresholdKey} {p : ThresholdPresign} (h : PresignDrawn key p) :
    Canon Secp256k1.n p.r ∧ secp.coord (secp.base ((p.kA : Fn) * (p.kB : Fn))) = some (p.r : Fn) := by
  obtain ⟨ρ, hcoord, hρ⟩ := tmod_n_rep h.R h.finite
  rw [← h.r] at hρ
  exact ⟨hρ.1, by rw [hcoord, hρ.2]⟩

/-- What the parties agree on after presigning. -/
structure PresignAgreed (key : ThresholdKey) (p : ThresholdPresign) : Prop where
  kA : NonzeroBelow Secp256k1.n p.kA
  kB : NonzeroBelow Secp256k1.n p.kB
  finite : p.R.infinity = false
  flow : FlowEnds p.kA p.kB p.R
  r : p.r = p.R.x % Secp256k1.n
  shares : CanonPresign p
  k : (p.k1 + p.k2) % Secp256k1.n = p.kA * p.kB % Secp256k1.n
  k_ne_zero : (p.k1 + p.k2) % Secp256k1.n ≠ 0
  sk : (p.sk1 + p.sk2) % Secp256k1.n = key.skA * key.skB % Secp256k1.n
  sk_ne_zero : (p.sk1 + p.sk2) % Secp256k1.n ≠ 0

theorem PresignDrawn.agreed {key : ThresholdKey} {p : ThresholdPresign} (h : PresignDrawn key p)
    (hskA : NonzeroBelow Secp256k1.n key.skA) (hskB : NonzeroBelow Secp256k1.n key.skB) :
    PresignAgreed key p := by
  obtain ⟨hsk2, hsk⟩ := modSub_shares hskA hskB h.sk1
  obtain ⟨hk2, hk⟩ := modSub_shares h.kA h.kB h.k1
  rw [← h.sk2] at hsk2 hsk
  rw [← h.k2] at hk2 hk
  exact {
    kA := h.kA
    kB := h.kB
    finite := h.finite
    flow := h.flow
    r := by rw [h.r, tmod_n_eq_emod h.R.valid h.finite]
    shares := ⟨h.coord.1, h.sk1, hsk2, h.k1, hk2⟩
    k := hk
    k_ne_zero := by rw [hk]; exact emod_mul_ne_zero h.kA h.kB
    sk := hsk
    sk_ne_zero := by rw [hsk]; exact emod_mul_ne_zero hskA hskB }

/-- Every choice of shares is drawn on some tape. -/
theorem run_thresholdPresign (build : Build) (key : ThresholdKey) {kA kB sk1 k1 : Int}
    (hA : NonzeroBelow Secp256k1.n kA) (hB : NonzeroBelow Secp256k1.n kB)
    (hsk1 : Canon Secp256k1.n sk1) (hk1 : Canon Secp256k1.n k1) (rest : List Int) :
    ∃ R, (thresholdPresign build key).run (kA :: kB :: sk1 :: k1 :: rest) =
      (.ok ⟨kA, kB, R, R.x.tmod Secp256k1.n, sk1,
        modSub (modMul key.skA key.skB Secp256k1.n) sk1 Secp256k1.n, k1,
        modSub (modMul kA kB Secp256k1.n) k1 Secp256k1.n⟩, rest) ∧
      Denotes R (secp.base ((kA : Fn) * (kB : Fn))) := by
  obtain ⟨R, hR, hden, hfin, -⟩ := scalarMul_product hA hB
  refine ⟨R, ?_, hden⟩
  unfold thresholdPresign thresholdPresignWith
  simp only [Draws.liftM_self, scalarMulWith_drawnInv, Draws.run_bind_of_ok (run_uniformNonzeroBelow hA _),
    Draws.run_bind_of_ok (run_uniformNonzeroBelow hB _), Draws.run_lift_bind (hR build), hfin,
    Bool.false_eq_true, if_false, Draws.run_bind_of_ok (run_uniformBelow hsk1 _),
    Draws.run_bind_of_ok (run_uniformBelow hk1 _), Draws.run_pure]

/-- **Key and nonce generation are the two-party flow**, on every tape.  The
second part says that no shares are missed: each choice is drawn on some tape. -/
theorem keygen_presign_flow (build : Build) :
    (∀ tape, (∃ rest, (thresholdKeygen build).run tape = (.error .exhausted, rest)) ∨
      ∃ key rest, (thresholdKeygen build).run tape = (.ok key, rest) ∧ KeyAgreed key ∧
        ∀ tape', (∃ rest', (thresholdPresign build key).run tape' = (.error .exhausted, rest')) ∨
          ∃ p rest', (thresholdPresign build key).run tape' = (.ok p, rest') ∧
            PresignAgreed key p) ∧
    ∀ skA skB kA kB sk1 k1 : Int, NonzeroBelow Secp256k1.n skA → NonzeroBelow Secp256k1.n skB →
      NonzeroBelow Secp256k1.n kA → NonzeroBelow Secp256k1.n kB → Canon Secp256k1.n sk1 →
      Canon Secp256k1.n k1 → ∀ rest, ∃ Q p,
        (thresholdKeygen build).run (skA :: skB :: rest) = (.ok ⟨skA, skB, Q⟩, rest) ∧
        (thresholdPresign build ⟨skA, skB, Q⟩).run (kA :: kB :: sk1 :: k1 :: rest) = (.ok p, rest) ∧
        p.kA = kA ∧ p.kB = kB ∧ p.sk1 = sk1 ∧ p.k1 = k1 := by
  refine ⟨?_, ?_⟩
  · intro tape
    rcases thresholdKeygen_yields build tape with ⟨key, rest, hrun, hkey⟩ | hstop
    · refine Or.inr ⟨key, rest, hrun, hkey.agreed, ?_⟩
      intro tape'
      have hpresign := (thresholdPresign_yields build key).mono fun p hp =>
        hp.agreed hkey.skA hkey.skB
      exact (hpresign tape').symm
    · exact Or.inl hstop
  · intro skA skB kA kB sk1 k1 hskA hskB hkA hkB hsk1 hk1 rest
    obtain ⟨Q, hQ⟩ := run_thresholdKeygen build hskA hskB rest
    obtain ⟨R, hR, -⟩ := run_thresholdPresign build ⟨skA, skB, Q⟩ hkA hkB hsk1 hk1 rest
    exact ⟨Q, _, hQ, hR, rfl, rfl, rfl, rfl⟩

end Tecdsa
