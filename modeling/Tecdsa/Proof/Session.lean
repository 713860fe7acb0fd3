import Tecdsa.Code.Session
import Tecdsa.Proof.KeyFlow
import Tecdsa.Proof.ThresholdSign

/-!
# Every signature of a session verifies

The invariant of a session (`Sound`): keys are multiples of `G` by the product
of their shares, presigns share `k` and `sk` and carry the coordinate of `k G`,
signatures emitted are valid.  Each call keeps it (`step_sound`), so every run
does (`run_sound`).
-/

namespace Tecdsa

open Residue SharedDivision

/-! ## What the calls return -/

/-- The key's point is the multiple of `G` by the product of the shares. -/
def KeyOk (key : ThresholdKey) : Prop :=
  ∃ σ : Fn, Rep Secp256k1.n (modMul key.skA key.skB Secp256k1.n) σ ∧ Denotes key.Q (secp.base σ)

/-- The presign shares a nonce `κ ≠ 0` and the private key, and its `r` is the
coordinate of `κ G`. -/
def PresignOk (key : ThresholdKey) (p : ThresholdPresign) : Prop :=
  CanonPresign p ∧ ∃ κ σ : Fn, κ ≠ 0 ∧ ((p.k1 + p.k2 : Int) : Fn) = κ ∧
    ((p.sk1 + p.sk2 : Int) : Fn) = σ ∧ Denotes key.Q (secp.base σ) ∧
    secp.coord (secp.base κ) = some (p.r : Fn)

/-- The signature was made with a mask; unless `r` is zero it is in range, low
and valid. -/
def EmittedOk (e : Emitted) : Prop :=
  (e.tape.getD 5 0 + e.tape.getD 6 0) % Secp256k1.n ≠ 0 ∧
    (e.presign.r ≠ 0 → e.sig.r = e.presign.r ∧ (1 ≤ e.sig.r ∧ e.sig.r < Secp256k1.n) ∧
      (1 ≤ e.sig.s ∧ e.sig.s ≤ Secp256k1.n / 2) ∧
      ∀ build, verify build e.key.Q e.msg e.sig.r e.sig.s = .ok true)

theorem thresholdKeygen_keyOk {build : Build} {key : ThresholdKey} {tape rest : List Int}
    (h : (thresholdKeygen build).run tape = (.ok key, rest)) : KeyOk key := by
  have hkey := (thresholdKeygen_yields build).returns tape rest key h
  exact ⟨_, modMul_rep (canon_of_range hkey.skA).rep (canon_of_range hkey.skB).rep, hkey.Q⟩

theorem thresholdPresign_presignOk {build : Build} {key : ThresholdKey} {p : ThresholdPresign}
    {tape rest : List Int} (hkey : KeyOk key)
    (h : (thresholdPresign build key).run tape = (.ok p, rest)) : PresignOk key p := by
  obtain ⟨σ, hσ, hQ⟩ := hkey
  have hp := (thresholdPresign_yields build key).returns tape rest p h
  have hκ := modMul_rep (canon_of_range hp.kA).rep (canon_of_range hp.kB).rep
  obtain ⟨hr, hcoord⟩ := hp.coord
  -- the second shares complete the first
  have hsk2 := modSub_rep hσ hp.sk1.rep
  have hk2 := modSub_rep hκ hp.k1.rep
  rw [← hp.sk2] at hsk2
  rw [← hp.k2] at hk2
  refine ⟨⟨hr, hp.sk1, hsk2.1, hp.k1, hk2.1⟩, _, σ,
    mul_ne_zero (cast_ne_zero_of_range hp.kA) (cast_ne_zero_of_range hp.kB), ?_, ?_, hQ, hcoord⟩
  · rw [Int.cast_add, hk2.2, add_sub_cancel]
  · rw [Int.cast_add, hsk2.2, add_sub_cancel]

/-- The two mask draws stand at places 5 and 6 of a call's tape. -/
theorem getD_toList (t : Tape Int) (rest : List Int) :
    (t.toList ++ rest).getD 5 0 = t.r1 ∧ (t.toList ++ rest).getD 6 0 = t.r2 := ⟨rfl, rfl⟩

theorem thresholdSign_emittedOk {key : ThresholdKey} {p : ThresholdPresign} {msg : Octets}
    {sig : Signature} {tape rest : List Int} (hp : PresignOk key p)
    (h : (thresholdSign .release key p (doubleSha256 msg)).run tape = (.ok sig, rest)) :
    EmittedOk ⟨key, p, msg, sig, tape⟩ := by
  obtain ⟨hcanon, κ, σ, hκ, hk, hsk, hQ, hcoord⟩ := hp
  have hk0 : (p.k1 + p.k2) % Secp256k1.n ≠ 0 := by
    intro h0
    rw [emod_n_eq_zero_iff, hk] at h0
    exact hκ h0
  obtain ⟨t, -, rfl, hmask, s, hs, hs0, rfl⟩ := thresholdSign_eq_ok hcanon hk0 h
  refine ⟨by rw [(getD_toList t rest).1, (getD_toList t rest).2]; exact hmask, ?_⟩
  intro hr0
  -- `s` is explained by the shared nonce
  have hsrep : Rep Secp256k1.n s (κ⁻¹ * (msgScalar msg + (p.r : Fn) * σ)) := by
    rw [hs]
    refine (signScalar_rep _ _ _ _).of_cast ?_
    rw [cast_emod n_pos.le, cast_emod n_pos.le, hk, hsk]
    rfl
  have hr := hcanon.r.range hr0
  have hlow := normalizeLowS_range hsrep.1 hs0
  exact ⟨rfl, hr, hlow, verify_of_signs hQ hr ⟨hlow.1, low_lt_n hlow.2⟩
    (signs_normalizeLowS hsrep ⟨κ, hκ, hcoord, rfl⟩)⟩

/-! ## Runs of a session -/

/-- The invariant. -/
structure Sound (st : Session) : Prop where
  keys : ∀ key ∈ st.keys, KeyOk key
  presigns : ∀ kp ∈ st.presigns, PresignOk kp.1 kp.2
  emitted : ∀ e ∈ st.emitted, EmittedOk e

theorem start_sound (tape : List Int) : Sound (Session.start tape) :=
  ⟨by simp [Session.start], by simp [Session.start], by simp [Session.start]⟩

theorem forall_mem_concat {α : Type} {P : α → Prop} {l : List α} {a : α} (hl : ∀ x ∈ l, P x)
    (ha : P a) : ∀ x ∈ l ++ [a], P x := by
  intro x hx
  rcases List.mem_append.mp hx with hx | hx
  · exact hl x hx
  · rw [List.mem_singleton.mp hx]
    exact ha

/-- Each call keeps the invariant. -/
theorem step_sound {st : Session} (hst : Sound st) (call : Call) :
    Sound (st.step .release call) := by
  cases call with
  | keygen =>
    simp only [Session.step]
    split
    · next key rest hrun =>
      exact { hst with keys := forall_mem_concat hst.keys (thresholdKeygen_keyOk hrun) }
    · exact { hst with }
  | presign i =>
    simp only [Session.step]
    split
    · exact hst
    · next key hkey =>
      have hok := hst.keys key (List.mem_of_getElem? hkey)
      split
      · next p rest hrun =>
        exact { hst with
          presigns := forall_mem_concat hst.presigns (thresholdPresign_presignOk hok hrun) }
      · exact { hst with }
  | sign i msg =>
    simp only [Session.step]
    split
    · exact hst
    · next key p hp =>
      have hok := hst.presigns (key, p) (List.mem_of_getElem? hp)
      split
      · next sig rest hrun =>
        exact { hst with emitted := forall_mem_concat hst.emitted (thresholdSign_emittedOk hok hrun) }
      · exact { hst with }
  | elsewhere count => exact { hst with }

theorem run_sound (tape : List Int) (calls : List Call) : Sound (Session.run .release tape calls) := by
  have go : ∀ (calls : List Call) (st : Session), Sound st →
      Sound (calls.foldl (Session.step .release) st) := by
    intro calls
    induction calls with
    | nil => exact fun st hst => hst
    | cons call calls ih => exact fun st hst => ih _ (step_sound hst call)
  exact go calls _ (start_sound tape)

/-- **Every signature emitted is valid**, on every tape and for every sequence
of calls; none is emitted without a mask. -/
theorem session_signatures_valid (tape : List Int) (calls : List Call) (e : Emitted)
    (he : e ∈ (Session.run .release tape calls).emitted) :
    (e.tape.getD 5 0 + e.tape.getD 6 0) % Secp256k1.n ≠ 0 ∧
      (e.presign.r ≠ 0 → e.sig.r = e.presign.r ∧ (1 ≤ e.sig.r ∧ e.sig.r < Secp256k1.n) ∧
        (1 ≤ e.sig.s ∧ e.sig.s ≤ Secp256k1.n / 2) ∧
        ∀ build, verify build e.key.Q e.msg e.sig.r e.sig.s = .ok true) :=
  (run_sound tape calls).emitted e he

/-! ## One session: a key, a presign, a signature of the empty message -/

def sampleDraws : List Int := [1, 1, 1, 1, 0, 0] ++ sampleTape.toList

def sampleCalls : List Call := [.keygen, .presign 0, .sign 0 []]

def sampleEmitted : Emitted where
  key := sampleKey
  presign := samplePresign
  msg := []
  sig := ⟨Secp256k1.gx, 18224534822295156322113525478987692026010668919951989284966507268043892168019⟩
  tape := sampleTape.toList

set_option maxRecDepth 20000 in
theorem run_sample : (Session.run .release sampleDraws sampleCalls).emitted = [sampleEmitted] := by
  decide +kernel

theorem session_signatures_valid_sample :
    sampleEmitted ∈ (Session.run .release sampleDraws sampleCalls).emitted ∧
      ∀ build, verify build generator [] sampleEmitted.sig.r sampleEmitted.sig.s = .ok true := by
  have hmem : sampleEmitted ∈ (Session.run .release sampleDraws sampleCalls).emitted := by
    rw [run_sample]
    exact List.mem_singleton_self _
  exact ⟨hmem, ((session_signatures_valid sampleDraws sampleCalls sampleEmitted hmem).2
    (by decide)).2.2.2⟩

end Tecdsa
