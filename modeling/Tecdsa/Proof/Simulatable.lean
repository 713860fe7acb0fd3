import Tecdsa.Proof.ThresholdSign

/-!
# The online phase shows a party nothing but `s`

For a party and two choices of the other party's shares that lead to the same
`s`, the tapes of the two runs are in bijection, and under it the party's view
is the same.  The bijection is that of the protocol on residues, read back on
the code's integers (`SignRep.view_eq`).
-/

namespace Tecdsa

open Residue SharedDivision

/-! ## Views of the code -/

def BeaverTriple.own (T : BeaverTriple) : Party → Int × Int × Int
  | .one => (T.a1, T.b1, T.c1)
  | .two => (T.a2, T.b2, T.c2)

/-- What a party sees of a run: its mask share, its shares of both triples, the
opened values, both shares of `s`, and `s`. -/
def SignRun.view (run : SignRun) (i : Party) : View Int where
  mask := match i with
    | .one => run.inv.r1
    | .two => run.inv.r2
  tripleInv := run.tripleInv.own i
  tripleMul := run.tripleS.own i
  dInv := run.inv.mul.d
  eInv := run.inv.mul.e
  m := run.inv.m
  dMul := run.mul.d
  eMul := run.mul.e
  s1 := run.mul.z1
  s2 := run.mul.z2
  s := run.s

/-- A party's shares of `k` and `sk`. -/
def ThresholdPresign.own (p : ThresholdPresign) : Party → Int × Int
  | .one => (p.k1, p.sk1)
  | .two => (p.k2, p.sk2)

theorem TripleRep.own_eq {T : BeaverTriple} {T' : Triple Fn} (h : TripleRep Secp256k1.n T T')
    (i : Party) : T.own i = (lift (T'.own i).1, lift (T'.own i).2.1, lift (T'.own i).2.2) := by
  cases i with
  | one => simp only [BeaverTriple.own, Triple.own, h.a1.lift_eq, h.b1.lift_eq, h.c1.lift_eq]
  | two => simp only [BeaverTriple.own, Triple.own, h.a2.lift_eq, h.b2.lift_eq, h.c2.lift_eq]

/-- The code's view is the protocol's, in canonical representatives. -/
theorem SignRep.view_eq {run : SignRun} {x : Inputs Fn} {t : Tape Int}
    (ht : t.All (Canon Secp256k1.n)) (h : SignRep run x t) (i : Party) :
    run.view i = (view i x (castTape t)).map lift := by
  have hmask : (run.view i).mask = lift ((castTape t).own i) := by
    cases i with
    | one => exact h.mask1.trans (lift_cast ht.2.1).symm
    | two => exact h.mask2.trans (lift_cast ht.2.2.1).symm
  apply View.ext
  · exact hmask
  · exact h.tripleInv.own_eq i
  · exact h.tripleS.own_eq i
  · exact h.inv.d.lift_eq.symm
  · exact h.inv.e.lift_eq.symm
  · exact h.m.lift_eq.symm
  · exact h.mul.d.lift_eq.symm
  · exact h.mul.e.lift_eq.symm
  · exact h.mul.z1.lift_eq.symm
  · exact h.mul.z2.lift_eq.symm
  · exact h.s.lift_eq.symm

/-! ## Tapes -/

/-- The draws of a run, in range, with a mask. -/
def MaskedTape : Type :=
  {t : Tape Int // t.All (Canon Secp256k1.n) ∧ (t.r1 + t.r2) % Secp256k1.n ≠ 0}

def liftTape (t : Tape Fn) : Tape Int := t.map lift

theorem liftTape_castTape {t : Tape Int} (ht : t.All (Canon Secp256k1.n)) :
    liftTape (castTape t) = t := by
  obtain ⟨⟨a, b, a1, b1, c1⟩, r1, r2, ⟨a', b', a1', b1', c1'⟩⟩ := t
  obtain ⟨⟨ha, hb, ha1, hb1, hc1⟩, hr1, hr2, ⟨ha', hb', ha1', hb1', hc1'⟩⟩ := ht
  simp only [liftTape, castTape, Tape.map, Deal.map, lift_cast ha, lift_cast hb, lift_cast ha1,
    lift_cast hb1, lift_cast hc1, lift_cast hr1, lift_cast hr2, lift_cast ha', lift_cast hb',
    lift_cast ha1', lift_cast hb1', lift_cast hc1']

theorem castTape_liftTape (t : Tape Fn) : castTape (liftTape t) = t := by
  have hcast (a : Fn) : ((lift a : Int) : Fn) = a := (rep_lift n_pos a).2
  simp only [liftTape, castTape, Tape.map, Deal.map, hcast]

theorem liftTape_canon (t : Tape Fn) : (liftTape t).All (Canon Secp256k1.n) := by
  have hcanon (a : Fn) : Canon Secp256k1.n (lift a) := (rep_lift n_pos a).1
  exact ⟨⟨hcanon _, hcanon _, hcanon _, hcanon _, hcanon _⟩, hcanon _, hcanon _,
    ⟨hcanon _, hcanon _, hcanon _, hcanon _, hcanon _⟩⟩

/-- The code's tapes are the protocol's. -/
def tapeEquiv : MaskedTape ≃ {t : Tape Fn // t.r1 + t.r2 ≠ 0} where
  toFun t := ⟨castTape t.1, castTape_mask_ne_zero t.2.2⟩
  invFun t := ⟨liftTape t.1, liftTape_canon t.1, by
    rw [Ne, emod_n_eq_zero_iff, ← castTape_mask, castTape_liftTape]
    exact t.2⟩
  left_inv t := Subtype.ext (liftTape_castTape t.2.1)
  right_inv t := Subtype.ext (castTape_liftTape t.1)

/-! ## The statement -/

/-- A run with a mask returns, in both builds, and shows what the protocol does. -/
theorem run_view {p : ThresholdPresign} (hp : CanonPresign p)
    (hk : (p.k1 + p.k2) % Secp256k1.n ≠ 0) (h : Sha256Hash) (t : MaskedTape) (build : Build)
    (rest : List Int) :
    ∃ run, (thresholdSignRun build p h).run (t.1.toList ++ rest) = (.ok run, rest) ∧
      ∀ i, run.view i = (view i (signInputs p h) (tapeEquiv t).1).map lift := by
  obtain ⟨run, hrun, hrep⟩ := run_thresholdSignRun hp h t.2.1
    (show build = .release ∨ _ from Or.inr (divide_m_ne_zero h hk t.2.2)) rest
  exact ⟨run, hrun, fun i => hrep.view_eq t.2.1 i⟩

/-- **The online phase is simulatable.**  `p` and `p'` have the same `r` and
the same shares of party `i`, and sign `h` with the same `s`; there is a
bijection of tapes under which party `i` sees the same in both runs. -/
theorem thresholdSign_simulatable (i : Party) {p p' : ThresholdPresign} (hp : CanonPresign p)
    (hp' : CanonPresign p') (hr : p.r = p'.r) (hown : p.own i = p'.own i)
    (hk : (p.k1 + p.k2) % Secp256k1.n ≠ 0) (hk' : (p'.k1 + p'.k2) % Secp256k1.n ≠ 0)
    (h : Sha256Hash)
    (hs : signScalar (p.k1 + p.k2) (hashToScalar h Secp256k1.n) p.r (p.sk1 + p.sk2) =
      signScalar (p'.k1 + p'.k2) (hashToScalar h Secp256k1.n) p'.r (p'.sk1 + p'.sk2)) :
    ∃ e : MaskedTape ≃ MaskedTape, ∀ (t : MaskedTape) (build : Build) (rest : List Int),
      ∃ run run', (thresholdSignRun build p h).run (t.1.toList ++ rest) = (.ok run, rest) ∧
        (thresholdSignRun build p' h).run ((e t).1.toList ++ rest) = (.ok run', rest) ∧
        run.view i = run'.view i := by
  have hx := signInputs_k_ne_zero h hk
  have hx' := signInputs_k_ne_zero h hk'
  have hquot : ((signInputs p h).k1 + (signInputs p h).k2)⁻¹ *
        ((signInputs p h).y1 + (signInputs p h).y2) =
      ((signInputs p' h).k1 + (signInputs p' h).k2)⁻¹ *
        ((signInputs p' h).y1 + (signInputs p' h).y2) := by
    have := ((signScalar_rep _ _ _ _).eq_iff (signScalar_rep _ _ _ _)).mp hs
    rwa [signInputs_k, signInputs_k, signInputs_y, signInputs_y, cast_emod n_pos.le,
      cast_emod n_pos.le, cast_emod n_pos.le, cast_emod n_pos.le]
  have hinputs : (signInputs p h).own i = (signInputs p' h).own i := by
    cases i with
    | one =>
      obtain ⟨hk1, hsk1⟩ := Prod.mk.inj hown
      simp only [Inputs.own, signInputs, hk1, hsk1, hr]
    | two =>
      obtain ⟨hk2, hsk2⟩ := Prod.mk.inj hown
      simp only [Inputs.own, signInputs, hk2, hsk2, hr]
  refine ⟨tapeEquiv.trans ((translateEquiv hx hx' i).trans tapeEquiv.symm), ?_⟩
  intro t build rest
  obtain ⟨run, hrun, hview⟩ := run_view hp hk h t build rest
  obtain ⟨run', hrun', hview'⟩ := run_view hp' hk' h
    (tapeEquiv.symm (translateEquiv hx hx' i (tapeEquiv t))) build rest
  refine ⟨run, run', hrun, hrun', ?_⟩
  rw [hview i, hview' i, Equiv.apply_symm_apply]
  exact congrArg (View.map lift) (view_translate hinputs hx hx' (tapeEquiv t).2 hquot).symm

/-! ## Two splits with one `s` -/

/-- `samplePresign` with the second party's shares doubled. -/
def doubledPresign : ThresholdPresign := { samplePresign with sk2 := 2, k2 := 2 }

theorem doubledPresign_canon : CanonPresign doubledPresign :=
  ⟨by decide, by decide, by decide, by decide, by decide⟩

theorem signScalar_doubled : signScalar 2 0 Secp256k1.gx 2 = Secp256k1.gx := by
  have h2 : ((2 : Int) : Fn) ≠ 0 := by
    rw [Ne, ← emod_n_eq_zero_iff]
    decide
  refine (signScalar_rep 2 0 Secp256k1.gx 2).congr ⟨by decide, ?_⟩
  rw [Int.cast_zero, zero_add, mul_left_comm, inv_mul_cancel₀ h2, mul_one]

theorem thresholdSign_simulatable_sample :
    ∃ e : MaskedTape ≃ MaskedTape, ∀ (t : MaskedTape) (build : Build) (rest : List Int),
      ∃ run run',
        (thresholdSignRun build samplePresign zeroHash).run (t.1.toList ++ rest) =
          (.ok run, rest) ∧
        (thresholdSignRun build doubledPresign zeroHash).run ((e t).1.toList ++ rest) =
          (.ok run', rest) ∧
        run.view .one = run'.view .one := by
  refine thresholdSign_simulatable .one samplePresign_canon doubledPresign_canon rfl rfl
    (by decide) (by decide) zeroHash ?_
  rw [show hashToScalar zeroHash Secp256k1.n = 0 by decide]
  exact signScalar_sample.trans signScalar_doubled.symm

end Tecdsa
