import Tecdsa.Proof.Bench
import Tecdsa.Proof.MaskedInverse
import Tecdsa.Proof.Session

/-!
# Debug and Release builds

The asserts of `mod_inv` hold wherever the points are on the curve, so the two
builds make the same keys and presigns.  Signing differs in one case: when the
mask shares of `masked_inverse` cancel, Debug aborts at its assert and Release
goes on with zero to the exception at the end of `threshold_sign`.

    thresholdSign_builds, thresholdSign_debug_aborts      one call
    session_builds_agree                                  every session
-/

namespace Tecdsa

open Residue SharedDivision

/-! ## Keys and presigns -/

theorem scalarMul_builds (k : Int) (build : Build) :
    scalarMul build k generator = scalarMul .release k generator := by
  obtain ⟨R, hR, -⟩ := scalarMul_denotes k generator_denotes
  rw [hR build, hR .release]

theorem thresholdKeygen_builds (build : Build) : thresholdKeygen build = thresholdKeygen .release := by
  unfold thresholdKeygen
  simp only [scalarMul_builds _ build]

theorem thresholdPresign_builds (build : Build) (key : ThresholdKey) :
    thresholdPresign build key = thresholdPresign .release key := by
  unfold thresholdPresign thresholdPresignWith
  simp only [scalarMulWith_drawnInv, scalarMul_builds _ build]

/-- Running out of draws is no failed `assert`. -/
theorem isAssertion_of_yields {α : Type} {m : Rand α} {P : α → Prop} (h : m.Yields P .exhausted)
    (tape : List Int) : Session.isAssertion (m.run tape).1 = false := by
  rcases h tape with ⟨a, rest, hrun, -⟩ | ⟨rest, hrun⟩
  · rw [hrun]
    rfl
  · rw [hrun]
    rfl

theorem isAssertion_of_ends {α : Type} {m : Rand α} {P : α → Prop} (h : m.Ends P Bench.SignStop)
    (tape : List Int) : Session.isAssertion (m.run tape).1 = false := by
  rcases h tape with ⟨a, rest, hrun, -⟩ | ⟨e, rest, hrun, hstop⟩
  · rw [hrun]
    rfl
  · rw [hrun]
    cases hstop <;> rfl

/-! ## Signing -/

/-- The draws of a signing call that open zero: a triple, then shares that cancel. -/
def CancellingMask (tape : List Int) : Prop :=
  ∃ (t : Deal Int) (r1 r2 : Int) (rest : List Int), tape = t.toList ++ r1 :: r2 :: rest ∧
    t.All (Canon Secp256k1.n) ∧ Canon Secp256k1.n r1 ∧ Canon Secp256k1.n r2 ∧ (r1 + r2) % Secp256k1.n = 0

section
variable {p : ThresholdPresign} (hp : CanonPresign p) {T : BeaverTriple} {T' : Triple Fn}
include hp

/-- With a mask both builds invert the value opened. -/
theorem maskedInverseRun_builds (hk : (p.k1 + p.k2) % Secp256k1.n ≠ 0) (hT : TripleRep Secp256k1.n T T')
    {tape : List Int} (hmask : ∀ r1 r2 rest, tape = r1 :: r2 :: rest → Canon Secp256k1.n r1 →
      Canon Secp256k1.n r2 → (r1 + r2) % Secp256k1.n ≠ 0) (build : Build) :
    (maskedInverseRun build p.k1 p.k2 T Secp256k1.n).run tape =
      (maskedInverseRun .release p.k1 p.k2 T Secp256k1.n).run tape := by
  unfold maskedInverseRun maskedInverseRunWith drawnInv
  simp only [Draws.liftM_self]
  rcases uniformBelow_yields Secp256k1.n tape with ⟨r1, mid, hr1, hc1⟩ | ⟨rest, hstop⟩
  · obtain ⟨rfl, -⟩ := uniformBelow_eq_ok hr1
    simp only [Draws.run_bind_of_ok hr1]
    rcases uniformBelow_yields Secp256k1.n mid with ⟨r2, rest, hr2, hc2⟩ | ⟨rest, hstop⟩
    · obtain ⟨rfl, -⟩ := uniformBelow_eq_ok hr2
      have hmul := beaverMulRun_rep hp.k1.rep hp.k2.rep hc1.rep hc2.rep hT
      have hm := (modAdd_rep hmul.z1 hmul.z2).of_cast (mul_sum _ _ _ _ _)
      have hk0 : (p.k1 : Fn) + p.k2 ≠ 0 := fun h => hk ((emod_sum_eq_zero_iff p.k1 p.k2).mpr h)
      have hr0 : (r1 : Fn) + r2 ≠ 0 := fun h =>
        hmask r1 r2 rest rfl hc1 hc2 ((emod_sum_eq_zero_iff r1 r2).mpr h)
      obtain ⟨mInv, hinv, -⟩ := modInv_rep hm (mul_ne_zero hk0 hr0)
      simp only [Draws.run_bind_of_ok hr2, hinv build, hinv .release]
    · rw [Draws.run_bind_of_error hstop, Draws.run_bind_of_error hstop]
  · rw [Draws.run_bind_of_error hstop, Draws.run_bind_of_error hstop]

theorem thresholdSign_builds (hk : (p.k1 + p.k2) % Secp256k1.n ≠ 0) {tape : List Int}
    (hmask : ¬ CancellingMask tape) (key : ThresholdKey) (h : Sha256Hash) (build : Build) :
    (thresholdSign build key p h).run tape = (thresholdSign .release key p h).run tape := by
  refine Draws.run_bind_congr ?_ _
  unfold thresholdSignRunWith
  simp only [Draws.liftM_self, maskedInverseRunWith_drawnInv]
  rcases generateTriple_yields Secp256k1.n tape with ⟨T, mid, hT, -⟩ | ⟨rest, hstop⟩
  · obtain ⟨t, ht, rfl⟩ := generateTriple_eq_ok hT
    obtain ⟨T', hT', hrep⟩ := run_generateTriple ht mid
    obtain rfl : T = T' := by
      rw [hT] at hT'
      exact Except.ok.inj (Prod.mk.inj hT').1
    rw [Draws.run_bind_of_ok hT, Draws.run_bind_of_ok hT]
    refine Draws.run_bind_congr (maskedInverseRun_builds hp hk hrep ?_ build) _
    rintro r1 r2 rest rfl hr1 hr2 hzero
    exact hmask ⟨t, r1, r2, rest, rfl, ht, hr1, hr2, hzero⟩
  · rw [Draws.run_bind_of_error hstop, Draws.run_bind_of_error hstop]

/-- Debug stops at the assert. -/
theorem thresholdSign_debug_aborts {tape : List Int} (hmask : CancellingMask tape) (key : ThresholdKey)
    (h : Sha256Hash) : ∃ rest, (thresholdSign .debug key p h).run tape =
      (.error (.assertion "mod_inv: a is not invertible modulo m"), rest) := by
  obtain ⟨t, r1, r2, rest, rfl, ht, hr1, hr2, hzero⟩ := hmask
  obtain ⟨T, hT, hrep⟩ := run_generateTriple ht (r1 :: r2 :: rest)
  have hstop := run_maskedInverseRun_unmasked_debug hp.k1 hp.k2 hrep hr1 hr2 hzero rest
  refine ⟨rest, Draws.run_bind_of_error ?_⟩
  unfold thresholdSignRunWith
  simp only [Draws.liftM_self, maskedInverseRunWith_drawnInv]
  rw [Draws.run_bind_of_ok hT, Draws.run_bind_of_error hstop]

/-- Release signs nothing. -/
theorem thresholdSign_release_unsigned (hk : (p.k1 + p.k2) % Secp256k1.n ≠ 0) {tape : List Int}
    (hmask : CancellingMask tape) (key : ThresholdKey) (h : Sha256Hash) :
    ∃ e rest, (thresholdSign .release key p h).run tape = (.error e, rest) := by
  rcases Bench.thresholdSign_ends key p h tape with ⟨sig, rest, hrun, -⟩ | ⟨e, rest, hrun, -⟩
  · exfalso
    obtain ⟨t', -, htape, hmask', -⟩ := thresholdSign_eq_ok hp hk hrun
    obtain ⟨t, r1, r2, rest', htape', -, -, -, hzero⟩ := hmask
    -- the two mask draws stand at places 5 and 6
    have h5 : t'.r1 = r1 := by
      have := (getD_toList t' rest).1
      rw [← htape, htape'] at this
      exact this.symm
    have h6 : t'.r2 = r2 := by
      have := (getD_toList t' rest).2
      rw [← htape, htape'] at this
      exact this.symm
    rw [h5, h6] at hmask'
    exact hmask' hzero
  · exact ⟨e, rest, hrun⟩

end

/-! ## Sessions -/

/-- The call signs and its mask cancels. -/
def ZeroMask (st : Session) : Call → Prop
  | .sign i _ => (st.presigns[i]?).isSome ∧ CancellingMask st.tape
  | _ => False

/-- Release ends every call. -/
theorem not_aborts_release (st : Session) (call : Call) : st.aborts .release call = false := by
  cases call with
  | keygen => exact isAssertion_of_yields (thresholdKeygen_yields .release) st.tape
  | presign i =>
    unfold Session.aborts
    simp only
    split
    · rfl
    · next key hkey => exact isAssertion_of_yields (thresholdPresign_yields .release key) st.tape
  | sign i msg =>
    unfold Session.aborts
    simp only
    split
    · rfl
    · next key p hp => exact isAssertion_of_ends (Bench.thresholdSign_ends key p _) st.tape
  | elsewhere count => rfl

theorem PresignOk.k_ne_zero {key : ThresholdKey} {p : ThresholdPresign} (h : PresignOk key p) :
    (p.k1 + p.k2) % Secp256k1.n ≠ 0 := by
  obtain ⟨-, κ, -, hκ, hk, -⟩ := h
  intro h0
  rw [emod_n_eq_zero_iff, hk] at h0
  exact hκ h0

/-- A call that does not open zero does the same in Debug. -/
theorem step_builds {st : Session} (hst : Sound st) {call : Call} (hmask : ¬ ZeroMask st call) :
    st.aborts .debug call = false ∧ st.step .debug call = st.step .release call := by
  have hrelease := not_aborts_release st call
  cases call with
  | keygen =>
    unfold Session.aborts Session.step at *
    simp only [thresholdKeygen_builds .debug]
    exact ⟨hrelease, trivial⟩
  | presign i =>
    unfold Session.aborts Session.step at *
    simp only [thresholdPresign_builds .debug]
    exact ⟨hrelease, trivial⟩
  | sign i msg =>
    cases hp : st.presigns[i]? with
    | none =>
      unfold Session.aborts Session.step
      simp only [hp, and_self]
    | some kp =>
      obtain ⟨key, p⟩ := kp
      have hok := hst.presigns (key, p) (List.mem_of_getElem? hp)
      have hno : ¬ CancellingMask st.tape := fun h => hmask ⟨by rw [hp]; rfl, h⟩
      have hsame := thresholdSign_builds hok.1 hok.k_ne_zero hno key (doubleSha256 msg) .debug
      unfold Session.aborts Session.step at *
      simp only [hp, hsame] at hrelease ⊢
      exact ⟨hrelease, trivial⟩
  | elsewhere count => exact ⟨rfl, rfl⟩

/-- One that does ends the Debug program, and Release emits nothing. -/
theorem step_zeroMask {st : Session} (hst : Sound st) {call : Call} (hmask : ZeroMask st call) :
    st.aborts .debug call = true ∧ (st.step .release call).emitted = st.emitted := by
  cases call with
  | sign i msg =>
    obtain ⟨hsome, hcancel⟩ := hmask
    obtain ⟨⟨key, p⟩, hp⟩ := Option.isSome_iff_exists.mp hsome
    have hok := hst.presigns (key, p) (List.mem_of_getElem? hp)
    obtain ⟨rest, hdebug⟩ := thresholdSign_debug_aborts hok.1 hcancel key (doubleSha256 msg)
    obtain ⟨e, rest', hrelease⟩ := thresholdSign_release_unsigned hok.1 hok.k_ne_zero hcancel key
      (doubleSha256 msg)
    unfold Session.aborts Session.step
    simp only [hp, hdebug, hrelease, Session.isAssertion, and_self]
  | keygen => exact absurd hmask id
  | presign i => exact absurd hmask id
  | elsewhere count => exact absurd hmask id

/-- **The two builds run the same sessions**, until a mask cancels: Release ends no call by an
assert, and Debug is Release unless some call opens zero; at the first that does Debug aborts in
the state Release had reached, and Release goes on without a signature. -/
theorem session_builds_agree (tape : List Int) (calls : List Call) :
    Session.runUntilAbort .release tape calls = (Session.run .release tape calls, false) ∧
    ((Lockstep.Avoids ZeroMask (Session.step .release) (Session.start tape) calls ∧
        Session.runUntilAbort .debug tape calls = (Session.run .release tape calls, false)) ∨
      ∃ pre call post, calls = pre ++ call :: post ∧
        Lockstep.Avoids ZeroMask (Session.step .release) (Session.start tape) pre ∧
        ZeroMask (Session.run .release tape pre) call ∧
        Session.runUntilAbort .debug tape calls = (Session.run .release tape pre, true) ∧
        (Session.run .release tape (pre ++ [call])).emitted = (Session.run .release tape pre).emitted) := by
  have hinv : ∀ (st : Session) (call : Call), Sound st → Sound (st.step .release call) :=
    fun st call hst => step_sound hst call
  have hstart := start_sound tape
  refine ⟨?_, ?_⟩
  · -- no call of the Release build is bad
    have hnever := Lockstep.avoids_or_bad (fun _ _ => False) (Session.step .release) (Session.start tape) calls
    rcases hnever with hnever | ⟨pre, call, post, -, -, hbad⟩
    · exact Lockstep.runUntil_of_avoids hinv (fun st call _ _ => ⟨not_aborts_release st call, rfl⟩) hstart hnever
    · exact absurd hbad id
  · rcases Lockstep.avoids_or_bad ZeroMask (Session.step .release) (Session.start tape) calls with
      havoids | ⟨pre, call, post, rfl, hpre, hbad⟩
    · exact Or.inl ⟨havoids, Lockstep.runUntil_of_avoids hinv (fun _ _ hst => step_builds hst) hstart havoids⟩
    · refine Or.inr ⟨pre, call, post, rfl, hpre, hbad, ?_, ?_⟩
      · exact Lockstep.runUntil_of_bad hinv (fun _ _ hst => step_builds hst)
          (fun _ _ hst hmask => (step_zeroMask hst hmask).1) hstart post hpre hbad
      · have hemitted := (step_zeroMask (run_sound tape pre) hbad).2
        unfold Session.run at hemitted ⊢
        rw [List.foldl_append, List.foldl_cons, List.foldl_nil]
        exact hemitted

end Tecdsa
