import Tecdsa.Proof.Sha256

/-!
# The padding of `sha256`: whole chunks, and no padded message ends another

Below `2 ^ 61` octets the length in bits fits its counter, so the last eight
octets of the buffer tell the length of the message:

    pad m = m ++ [0x80] ++ zeros ++ Octets.ofNat 8 (8 * m.length)    (pad_eq)
    pad m <:+ pad m' → m = m'                                        (eq_of_pad_suffix)

`chunkLoopAt` is the chunk loop with each read of the buffer checked.
-/

namespace Tecdsa

namespace Sha256

/-! ## The buffer -/

/-- The zeros between the marker and the length. -/
def zeroRun (len : Nat) : Nat := (120 - (len + 1) % 64) % 64

theorem zeroRun_lt (len : Nat) : zeroRun len < 64 := by
  unfold zeroRun
  omega

/-- The length in bits does not wrap. -/
theorem bitlen_toNat {len : Nat} (h : len < 2 ^ 61) : (UInt64.ofNat len * 8).toNat = 8 * len := by
  rw [UInt64.toNat_mul, UInt64.toNat_ofNat']
  show len % 2 ^ 64 * 8 % 2 ^ 64 = _
  omega

theorem pad_eq {m : Octets} (hm : m.length < 2 ^ 61) :
    pad m = m ++ (0x80 :: List.replicate (zeroRun m.length) 0 ++ Octets.ofNat 8 (8 * m.length)) := by
  rw [pad, padLoop_eq, lengthBytes_eq, bitlen_toNat hm, List.length_append, List.length_singleton]
  simp only [List.append_assoc, List.cons_append, List.nil_append, zeroRun]

theorem length_pad_eq {m : Octets} (hm : m.length < 2 ^ 61) :
    (pad m).length = m.length + zeroRun m.length + 9 := by
  rw [pad_eq hm]
  simp only [List.length_append, List.length_cons, List.length_replicate, Octets.length_ofNat]
  omega

/-- From 9 octets, when the message ends at 55 modulo 64, to 72, at 56. -/
theorem length_pad_bounds {m : Octets} (hm : m.length < 2 ^ 61) :
    m.length + 9 ≤ (pad m).length ∧ (pad m).length ≤ m.length + 72 := by
  have hlen := length_pad_eq hm
  have hzeros := zeroRun_lt m.length
  omega

/-! ## No padded message ends another -/

/-- The length field determines the length. -/
theorem length_of_field {len len' : Nat} (h : len < 2 ^ 61) (h' : len' < 2 ^ 61)
    (heq : Octets.ofNat 8 (8 * len) = Octets.ofNat 8 (8 * len')) : len = len' := by
  have hnum := congrArg Octets.toNat heq
  rw [Octets.toNat_ofNat, Octets.toNat_ofNat] at hnum
  omega

theorem eq_of_pad_eq {m m' : Octets} (hm : m.length < 2 ^ 61) (hm' : m'.length < 2 ^ 61)
    (hlen : m.length = m'.length) (h : pad m = pad m') : m = m' := by
  rw [pad_eq hm, pad_eq hm'] at h
  exact (List.append_inj h hlen).1

theorem eq_of_pad_suffix {m m' : Octets} (hm : m.length < 2 ^ 61) (hm' : m'.length < 2 ^ 61)
    (h : pad m <:+ pad m') : m = m' := by
  obtain ⟨t, ht⟩ := h
  have hends := ht
  rw [pad_eq hm, pad_eq hm', ← List.append_assoc, ← List.append_assoc, ← List.append_assoc m'] at hends
  -- both buffers end in eight octets of length
  have hfield := (List.append_inj' hends (by rw [Octets.length_ofNat, Octets.length_ofNat])).2
  have hlen := length_of_field hm hm' hfield
  -- equal lengths leave no room before the suffix
  have htotal := congrArg List.length ht
  rw [List.length_append, length_pad_eq hm, length_pad_eq hm', hlen] at htotal
  have hnil : t = [] := List.eq_nil_of_length_eq_zero (by omega)
  rw [hnil, List.nil_append] at ht
  exact eq_of_pad_eq hm hm' hlen ht

/-! ## The reads of the chunk loop -/

/-- `loadWord`, stopping at an index outside `buf`. -/
def loadWordAt (buf : Octets) (i : Nat) : Option UInt32 := do
  let b0 ← buf[i]?
  let b1 ← buf[i + 1]?
  let b2 ← buf[i + 2]?
  let b3 ← buf[i + 3]?
  return (b0.toUInt32 <<< 24) ||| (b1.toUInt32 <<< 16) ||| (b2.toUInt32 <<< 8) ||| b3.toUInt32

def scheduleAt (buf : Octets) (chunk : Nat) : Option (List UInt32) := do
  let w ← (List.range 16).mapM fun i => loadWordAt buf (chunk + 4 * i)
  return (List.range' 16 48).foldl scheduleStep w

def chunkLoopAt (buf : Octets) (chunk : Nat) (h : Regs) : Option Regs :=
  if chunk < buf.length then do
    let w ← scheduleAt buf chunk
    chunkLoopAt buf (chunk + 64) (compress h w)
  else some h
termination_by buf.length - chunk

theorem loadWordAt_eq {buf : Octets} {i : Nat} (h : i + 4 ≤ buf.length) :
    loadWordAt buf i = some (loadWord buf i) := by
  have hget (j : Nat) (hj : j < buf.length) : buf[j]? = some (buf.getD j 0) := by
    rw [List.getElem?_eq_getElem hj, List.getD_eq_getElem _ _ hj]
  unfold loadWordAt
  rw [hget i (by omega), hget (i + 1) (by omega), hget (i + 2) (by omega), hget (i + 3) (by omega)]
  rfl

theorem scheduleAt_eq {buf : Octets} {chunk : Nat} (h : chunk + 64 ≤ buf.length) :
    scheduleAt buf chunk = some (schedule buf chunk) := by
  have hwords (l : List Nat) (hl : ∀ i ∈ l, i < 16) :
      (l.mapM fun i => loadWordAt buf (chunk + 4 * i)) =
        some (l.map fun i => loadWord buf (chunk + 4 * i)) := by
    induction l with
    | nil => rfl
    | cons i l ih =>
      have hi : i < 16 := hl i List.mem_cons_self
      rw [List.mapM_cons, loadWordAt_eq (by omega), ih fun j hj => hl j (List.mem_cons_of_mem _ hj)]
      rfl
  unfold scheduleAt
  rw [hwords _ fun i hi => List.mem_range.mp hi]
  rfl

/-- In whole chunks every read is inside the buffer. -/
theorem chunkLoopAt_eq {buf : Octets} {chunk : Nat} (h : 64 ∣ buf.length) (hc : 64 ∣ chunk) (r : Regs) :
    chunkLoopAt buf chunk r = some (chunkLoop buf chunk r) := by
  fun_induction chunkLoop buf chunk r with
  | case1 chunk r hlt ih =>
    unfold chunkLoopAt
    rw [if_pos hlt, scheduleAt_eq (by omega)]
    exact ih (by omega)
  | case2 chunk r hge =>
    unfold chunkLoopAt
    rw [if_neg hge]

theorem loadWordAt_eq_none {buf : Octets} {i : Nat} (h : buf.length < i + 4) :
    loadWordAt buf i = none := by
  have hlast : buf[i + 3]? = none := List.getElem?_eq_none (by omega)
  unfold loadWordAt
  rw [hlast]
  simp

theorem scheduleAt_eq_none {buf : Octets} {chunk : Nat} (h : chunk ≤ buf.length)
    (hend : buf.length < chunk + 64) : scheduleAt buf chunk = none := by
  have hwords (l : List Nat) {i : Nat} (hi : i ∈ l) (hout : buf.length < chunk + 4 * i + 4) :
      (l.mapM fun i => loadWordAt buf (chunk + 4 * i)) = none := by
    induction l with
    | nil => cases hi
    | cons j l ih =>
      rw [List.mapM_cons]
      rcases List.mem_cons.mp hi with rfl | hi
      · rw [loadWordAt_eq_none hout]
        rfl
      · rw [ih hi]
        simp
  have hmem : (buf.length - chunk) / 4 ∈ List.range 16 := List.mem_range.mpr (by omega)
  unfold scheduleAt
  rw [hwords _ hmem (by omega)]
  rfl

/-- A buffer that ends inside a chunk is read past its end. -/
theorem chunkLoopAt_eq_none {buf : Octets} {chunk : Nat} (h : ¬ 64 ∣ buf.length) (hc : 64 ∣ chunk)
    (hle : chunk ≤ buf.length) (r : Regs) : chunkLoopAt buf chunk r = none := by
  fun_induction chunkLoop buf chunk r with
  | case1 chunk r hlt ih =>
    unfold chunkLoopAt
    rw [if_pos hlt]
    by_cases hwhole : chunk + 64 ≤ buf.length
    · rw [scheduleAt_eq hwhole]
      exact ih (by omega) hwhole
    · rw [scheduleAt_eq_none hle (by omega)]
      rfl
  | case2 chunk r hge =>
    have : chunk = buf.length := by omega
    exact absurd (this ▸ hc) h

end Sha256

open Sha256

/-- **The padding is well formed and suffix-free.** -/
theorem pad_suffixFree {m : Octets} (hm : m.length < 2 ^ 61) :
    64 ∣ (pad m).length ∧ (m.length + 9 ≤ (pad m).length ∧ (pad m).length ≤ m.length + 72) ∧
    m <+: pad m ∧
    ((∀ chunk, chunk < (pad m).length → 64 ∣ chunk → ∀ i < 16, ∀ j < 4,
        chunk + 4 * i + j < (pad m).length) ∧
      ∀ h, chunkLoopAt (pad m) 0 h = some (chunkLoop (pad m) 0 h)) ∧
    ∀ m' : Octets, m'.length < 2 ^ 61 → m ≠ m' →
      pad m ≠ pad m' ∧ ¬ pad m <:+ pad m' ∧ ¬ pad m' <:+ pad m := by
  have hchunks := length_pad m
  refine ⟨hchunks, length_pad_bounds hm, ?_, ⟨?_, ?_⟩, ?_⟩
  · rw [pad_eq hm]
    exact List.prefix_append m _
  · intro chunk hlt hc i hi j hj
    omega
  · intro h
    exact chunkLoopAt_eq hchunks (by omega) h
  · intro m' hm' hne
    have hout : ¬ pad m <:+ pad m' := fun h => hne (eq_of_pad_suffix hm hm' h)
    refine ⟨?_, hout, ?_⟩
    · intro heq
      rw [heq] at hout
      exact hout List.suffix_rfl
    · intro h
      exact hne (eq_of_pad_suffix hm' hm h).symm

/-- The empty message and the message that is its padding. -/
theorem pad_suffixFree_nil : ([] : Octets).length < 2 ^ 61 ∧ ¬ pad [] <:+ pad (pad []) := by
  have hnil : ([] : Octets).length < 2 ^ 61 := by decide
  obtain ⟨-, hbounds, -, -, hfree⟩ := pad_suffixFree hnil
  have hlen : ([] : Octets).length = 0 := rfl
  have hne : [] ≠ pad [] := by
    intro h
    rw [← h] at hbounds
    omega
  exact ⟨hnil, (hfree (pad []) (by omega) hne).2.1⟩

end Tecdsa
