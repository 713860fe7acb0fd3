import Mathlib.Data.Nat.Digits.Defs
import Tecdsa.Proof.HashCollision

/-!
# SHA-256 on natural numbers, which the kernel can run

The kernel multiplies and shifts natural numbers by itself, and unfolds every
operation on `UInt32`.  `evalSha256` is `sha256` on the numbers of its words;
the schedule is one number, the newest word its lowest digit, and the rotations
of a `Σ` share one product that holds the word twice.

    sha256 = evalSha256                                                (sha256_eq_eval)
    hmacSha256 = evalHmac                                              (hmacSha256_eq_eval)

Rewriting with them turns a closed statement about hashes into one that
`decide +kernel` settles quickly.
-/

namespace Tecdsa

namespace Sha256

/-! ## Words -/

/-- `x` twice, shifted: its low 32 bits are `x` rotated. -/
theorem rotr_toNat (x n : UInt32) (hn : n.toNat < 32) :
    (rotr x n).toNat = ((x.toNat * 4294967297) >>> n.toNat) % 4294967296 := by
  have hx := x.toNat_lt
  have htwice : x.toNat * 4294967297 = x.toNat <<< 32 ||| x.toNat := by
    rw [← Nat.shiftLeft_add_eq_or_of_lt hx, Nat.shiftLeft_eq]
    omega
  have hrot : (rotr x n).toNat = (x.toBitVec.rotateRight n.toNat).toNat :=
    congrArg BitVec.toNat (rotr_toBitVec x n hn)
  rw [hrot, htwice, BitVec.toNat_rotateRight, Nat.mod_eq_of_lt hn]
  apply Nat.eq_of_testBit_eq
  intro i
  have hhigh (j : Nat) (hj : 32 ≤ j) : x.toNat.testBit j = false :=
    Nat.testBit_lt_two_pow (lt_of_lt_of_le hx (Nat.pow_le_pow_right (by omega) hj))
  rw [show 4294967296 = 2 ^ 32 by rfl]
  simp only [UInt32.toNat_toBitVec, Nat.testBit_or, Nat.testBit_shiftRight, Nat.testBit_mod_two_pow,
    Nat.testBit_shiftLeft]
  by_cases hi : i < 32
  · by_cases hlow : n.toNat + i < 32
    · simp [hi, show ¬ 32 - n.toNat ≤ i by omega, show ¬ 32 ≤ n.toNat + i by omega]
    · simp [hi, show 32 - n.toNat ≤ i by omega, show 32 ≤ n.toNat + i by omega,
        hhigh (n.toNat + i) (by omega), show i - (32 - n.toNat) = n.toNat + i - 32 by omega]
  · simp [hi, hhigh (n.toNat + i) (by omega)]

/-- `rotr x a ^ rotr x b ^ rotr x c` -/
def sigma (x a b c : Nat) : Nat :=
  (((x * 4294967297) >>> a) ^^^ ((x * 4294967297) >>> b) ^^^ ((x * 4294967297) >>> c)) % 4294967296

/-- `rotr x a ^ rotr x b ^ (x >> c)` -/
def sigmaShift (x a b c : Nat) : Nat :=
  (((x * 4294967297) >>> a) ^^^ ((x * 4294967297) >>> b)) % 4294967296 ^^^ (x >>> c)

theorem xor_mod (a b : Nat) : (a ^^^ b) % 4294967296 = a % 4294967296 ^^^ b % 4294967296 :=
  Nat.xor_mod_two_pow (n := 32)

theorem sigma_toNat (x a b c : UInt32) (ha : a.toNat < 32) (hb : b.toNat < 32) (hc : c.toNat < 32) :
    (rotr x a ^^^ rotr x b ^^^ rotr x c).toNat = sigma x.toNat a.toNat b.toNat c.toNat := by
  rw [UInt32.toNat_xor, UInt32.toNat_xor, rotr_toNat x a ha, rotr_toNat x b hb, rotr_toNat x c hc, sigma,
    xor_mod, xor_mod]

theorem sigmaShift_toNat (x a b c : UInt32) (ha : a.toNat < 32) (hb : b.toNat < 32) (hc : c.toNat < 32) :
    (rotr x a ^^^ rotr x b ^^^ (x >>> c)).toNat = sigmaShift x.toNat a.toNat b.toNat c.toNat := by
  rw [UInt32.toNat_xor, UInt32.toNat_xor, rotr_toNat x a ha, rotr_toNat x b hb, sigmaShift, xor_mod,
    UInt32.toNat_shiftRight, Nat.mod_eq_of_lt hc]

/-! ## The schedule -/

/-- A list of words as one number, the newest word its lowest digit. -/
def packed (w : List UInt32) : Nat := Nat.ofDigits 4294967296 (w.map UInt32.toNat).reverse

/-- The word that `j` words follow. -/
def wordBefore (W j : Nat) : Nat := (W >>> (32 * j)) % 4294967296

/-- One word more. -/
def evalScheduleStep (W : Nat) : Nat :=
  W * 4294967296 + (wordBefore W 15 + sigmaShift (wordBefore W 14) 7 18 3 + wordBefore W 6 +
    sigmaShift (wordBefore W 1) 17 19 10) % 4294967296

/-- The 64 words, from the number of the first 16. -/
def evalSchedule (W : Nat) : List Nat :=
  (List.range 64).map fun i => wordBefore (evalScheduleStep^[48] W) (63 - i)

theorem wordBefore_ofDigits {ds : List Nat} (hds : ∀ d ∈ ds, d < 4294967296) {j : Nat} (hj : j < ds.length) :
    wordBefore (Nat.ofDigits 4294967296 ds) j = ds[j] := by
  have hshift : Nat.ofDigits 4294967296 ds >>> (32 * j) = Nat.ofDigits 4294967296 (ds.drop j) := by
    rw [Nat.shiftRight_eq_div_pow, pow_mul]
    exact Nat.ofDigits_div_pow_eq_ofDigits_drop j (by decide) ds hds
  rw [wordBefore, hshift, List.drop_eq_getElem_cons hj, Nat.ofDigits_cons, Nat.add_mul_mod_self_left,
    Nat.mod_eq_of_lt (hds _ (List.getElem_mem hj))]

theorem wordBefore_packed {w : List UInt32} {j : Nat} (hj : j < w.length) :
    wordBefore (packed w) j = (w.getD (w.length - 1 - j) 0).toNat := by
  have hlen : j < (w.map UInt32.toNat).reverse.length := by
    rw [List.length_reverse, List.length_map]
    exact hj
  have hword : ∀ d ∈ (w.map UInt32.toNat).reverse, d < 4294967296 := by
    intro d hd
    obtain ⟨x, -, rfl⟩ := List.mem_map.mp (List.mem_reverse.mp hd)
    exact x.toNat_lt
  rw [packed, wordBefore_ofDigits hword hlen, List.getD_eq_getElem _ _ (show w.length - 1 - j < w.length by omega)]
  simp only [List.getElem_reverse, List.getElem_map, List.length_map]

theorem packed_concat (w : List UInt32) (x : UInt32) : packed (w ++ [x]) = packed w * 4294967296 + x.toNat := by
  rw [packed, packed, List.map_append, List.map_singleton, List.reverse_append, List.reverse_singleton,
    List.singleton_append, Nat.ofDigits_cons]
  omega

theorem packed_scheduleStep {w : List UInt32} {i : Nat} (hi : w.length = i) (h16 : 16 ≤ i) :
    packed (scheduleStep w i) = evalScheduleStep (packed w) := by
  subst hi
  have h0 := sigmaShift_toNat (w.getD (w.length - 15) 0) 7 18 3 (by decide) (by decide) (by decide)
  have h1 := sigmaShift_toNat (w.getD (w.length - 2) 0) 17 19 10 (by decide) (by decide) (by decide)
  have hback (j : Nat) : w.length - 1 - j = w.length - (j + 1) := by omega
  unfold evalScheduleStep
  rw [wordBefore_packed (show 15 < w.length by omega), wordBefore_packed (show 14 < w.length by omega),
    wordBefore_packed (show 6 < w.length by omega), wordBefore_packed (show 1 < w.length by omega)]
  simp only [hback, scheduleStep, packed_concat, UInt32.toNat_add, h0, h1]
  congr 1
  simp only [Nat.mod_add_mod]
  rfl

theorem packed_scheduleLoop (todo : Nat) (w : List UInt32) (h16 : 16 ≤ w.length) :
    packed ((List.range' w.length todo).foldl scheduleStep w) = evalScheduleStep^[todo] (packed w) ∧
      ((List.range' w.length todo).foldl scheduleStep w).length = w.length + todo := by
  induction todo generalizing w with
  | zero => exact ⟨rfl, rfl⟩
  | succ todo ih =>
    have hlen := length_scheduleStep w w.length
    obtain ⟨hrun, hcount⟩ := ih (scheduleStep w w.length) (by omega)
    rw [hlen] at hrun hcount
    rw [List.range'_succ, List.foldl_cons, Function.iterate_succ_apply, ← packed_scheduleStep rfl h16]
    exact ⟨hrun, by omega⟩

/-- The first words of a chunk spell its octets. -/
theorem packed_words {chunk : Octets} (words : Nat) (h : 4 * words ≤ chunk.length) :
    packed ((List.range words).map fun i => loadWord chunk (4 * i)) = Octets.toNat (chunk.take (4 * words)) := by
  induction words with
  | zero => rfl
  | succ words ih =>
    have hload : (loadWord chunk (4 * words)).toNat = Octets.toNat ((chunk.drop (4 * words)).take 4) := by
      rw [take_four_drop (by omega), ← orShift_toNat]
      rfl
    have hfour : ((chunk.drop (4 * words)).take 4).length = 4 := by
      rw [List.length_take, List.length_drop]
      omega
    rw [List.range_succ, List.map_append, List.map_singleton, packed_concat, ih (by omega), hload,
      show 4 * (words + 1) = 4 * words + 4 by rfl, List.take_add, Octets.toNat_append, hfour,
      show 2 ^ (8 * 4) = 4294967296 by rfl]

theorem packed_schedule {chunk : Octets} (hchunk : chunk.length = 64) :
    packed (schedule chunk 0) = evalScheduleStep^[48] chunk.toNat ∧ (schedule chunk 0).length = 64 := by
  have hfirst := @packed_words chunk 16 (by omega)
  rw [List.take_of_length_le (by omega)] at hfirst
  obtain ⟨hrun, hlen⟩ := packed_scheduleLoop 48 ((List.range 16).map fun i => loadWord chunk (4 * i)) (by simp)
  rw [hfirst, List.length_map, List.length_range] at hrun
  rw [List.length_map, List.length_range] at hlen
  unfold schedule
  simp only [Nat.zero_add]
  exact ⟨hrun, hlen⟩

theorem map_toNat_packed {w : List UInt32} (hw : w.length = 64) :
    w.map UInt32.toNat = (List.range 64).map fun i => wordBefore (packed w) (63 - i) := by
  apply List.ext_getElem
  · rw [List.length_map, List.length_map, List.length_range, hw]
  · intro i hi _
    rw [List.length_map] at hi
    have hback : w.length - 1 - (63 - i) = i := by omega
    simp only [List.getElem_map, List.getElem_range]
    rw [wordBefore_packed (show 63 - i < w.length by omega), hback, List.getD_eq_getElem _ _ hi]

theorem schedule_eval {chunk : Octets} (hchunk : chunk.length = 64) :
    (schedule chunk 0).map UInt32.toNat = evalSchedule chunk.toNat := by
  obtain ⟨hrun, hlen⟩ := packed_schedule hchunk
  rw [map_toNat_packed hlen, hrun, evalSchedule]

/-! ## Rounds -/

/-- The numbers of `Regs`. -/
structure NatRegs where
  a : Nat
  b : Nat
  c : Nat
  d : Nat
  e : Nat
  f : Nat
  g : Nat
  hh : Nat

def Regs.toNats (v : Regs) : NatRegs :=
  ⟨v.a.toNat, v.b.toNat, v.c.toNat, v.d.toNat, v.e.toNat, v.f.toNat, v.g.toNat, v.hh.toNat⟩

def evalRound (v : NatRegs) (k w : Nat) : NatRegs :=
  let temp1 := v.hh + sigma v.e 6 11 25 + ((v.e &&& v.f) ^^^ ((4294967295 - v.e) &&& v.g)) + k + w
  let temp2 := sigma v.a 2 13 22 + ((v.a &&& v.b) ^^^ (v.a &&& v.c) ^^^ (v.b &&& v.c))
  ⟨(temp1 + temp2) % 4294967296, v.a, v.b, v.c, (v.d + temp1) % 4294967296, v.e, v.f, v.g⟩

theorem round_toNats (v : Regs) (k w : UInt32) :
    (round v k w).toNats = evalRound v.toNats k.toNat w.toNat := by
  have h1 := sigma_toNat v.e 6 11 25 (by decide) (by decide) (by decide)
  have h0 := sigma_toNat v.a 2 13 22 (by decide) (by decide) (by decide)
  have hnot : (~~~v.e).toNat = 4294967295 - v.e.toNat := UInt32.toNat_not v.e
  unfold round evalRound Regs.toNats
  simp only [UInt32.toNat_add, h1, h0, UInt32.toNat_xor, UInt32.toNat_and, hnot, NatRegs.mk.injEq,
    Nat.add_mod_mod, Nat.mod_add_mod, and_true, true_and]
  exact ⟨rfl, rfl⟩

def NatRegs.add (h v : NatRegs) : NatRegs where
  a := (h.a + v.a) % 4294967296
  b := (h.b + v.b) % 4294967296
  c := (h.c + v.c) % 4294967296
  d := (h.d + v.d) % 4294967296
  e := (h.e + v.e) % 4294967296
  f := (h.f + v.f) % 4294967296
  g := (h.g + v.g) % 4294967296
  hh := (h.hh + v.hh) % 4294967296

theorem add_toNats (h v : Regs) : (h.add v).toNats = h.toNats.add v.toNats := by
  simp only [Regs.add, Regs.toNats, NatRegs.add, UInt32.toNat_add]

def evalCompress (v : NatRegs) (chunk : Octets) : NatRegs :=
  v.add (((K.map UInt32.toNat).zip (evalSchedule chunk.toNat)).foldl (fun v kw => evalRound v kw.1 kw.2) v)

/-- The loop over indices is one over pairs of constants and words. -/
theorem roundLoop_zip {w : List UInt32} (hw : w.length = 64) (v : Regs) :
    ((List.range 64).foldl (fun v i => round v (K.getD i 0) (w.getD i 0)) v).toNats =
      ((K.map UInt32.toNat).zip (w.map UInt32.toNat)).foldl (fun v kw => evalRound v kw.1 kw.2) v.toNats := by
  have hzip : (K.map UInt32.toNat).zip (w.map UInt32.toNat) =
      (List.range 64).map fun i => ((K.getD i 0).toNat, (w.getD i 0).toNat) := by
    have hK : K.length = 64 := rfl
    apply List.ext_getElem
    · simp [hK, hw]
    · intro i hi _
      have hi64 : i < 64 := by simpa [hK, hw] using hi
      simp only [List.getElem_zip, List.getElem_map, List.getElem_range]
      rw [List.getD_eq_getElem _ _ (show i < K.length by omega), List.getD_eq_getElem _ _ (show i < w.length by omega)]
  rw [hzip, List.foldl_map]
  generalize List.range 64 = is
  induction is generalizing v with
  | nil => rfl
  | cons i is ih => rw [List.foldl_cons, List.foldl_cons, ih, round_toNats]

theorem compressChunk_toNats (v : Regs) {chunk : Octets} (hchunk : chunk.length = 64) :
    (compressChunk (v, chunk)).toNats = evalCompress v.toNats chunk := by
  unfold compressChunk compress evalCompress
  rw [add_toNats, roundLoop_zip (packed_schedule hchunk).2, schedule_eval hchunk]

/-! ## Messages -/

def evalPad (data : Octets) : Octets :=
  data ++ [0x80] ++ List.replicate ((120 - (data.length + 1) % 64) % 64) 0 ++
    lengthBytes (UInt64.ofNat data.length * 8)

theorem pad_eq_evalPad (data : Octets) : pad data = evalPad data := by
  unfold pad evalPad
  rw [padLoop_eq, List.length_append, List.length_singleton]

def NatRegs.octets (v : NatRegs) : Octets :=
  [v.a, v.b, v.c, v.d, v.e, v.f, v.g, v.hh].flatMap (Octets.ofNat 4)

theorem NatRegs.length_octets (v : NatRegs) : v.octets.length = 32 := by
  simp only [octets, List.flatMap_cons, List.flatMap_nil, List.length_append, Octets.length_ofNat, List.length_nil]

theorem digest_octets (v : Regs) : v.digest.val = v.toNats.octets := by
  simp only [Regs.digest, Regs.words, NatRegs.octets, Regs.toNats, List.flatMap_cons, List.flatMap_nil, storeWord_eq]

end Sha256

open Sha256 IteratedHash

/-- `sha256`, for the kernel. -/
def evalSha256 (data : Octets) : Sha256Hash :=
  let buf := evalPad data
  let v := (blocks 64 (buf.length / 64) buf).foldl evalCompress init.toNats
  ⟨v.octets, v.length_octets⟩

theorem foldl_toNats (bs : List Octets) (hbs : ∀ b ∈ bs, b.length = 64) (v : Regs) :
    (bs.foldl (fun r b => compressChunk (r, b)) v).toNats = bs.foldl evalCompress v.toNats := by
  induction bs generalizing v with
  | nil => rfl
  | cons b bs ih =>
    rw [List.foldl_cons, List.foldl_cons, ih (fun c hc => hbs c (List.mem_cons_of_mem _ hc)),
      compressChunk_toNats v (hbs b List.mem_cons_self)]

/-- **The two compute one function.** -/
theorem sha256_eq_eval : sha256 = evalSha256 := by
  funext data
  have hlen := length_pad data
  have hchunks : ∀ b ∈ chunks data, b.length = 64 := fun b hb => length_of_mem_blocks (by omega) hb
  apply Subtype.ext
  rw [(sha256_fold data).1, digest_octets, foldl_toNats _ hchunks]
  unfold chunks
  rw [pad_eq_evalPad]
  rfl

/-- `hmac_sha256`, for the kernel. -/
def evalHmac (key msg : Octets) : Sha256Hash :=
  evalSha256 (keyPad key 0x5c ++ (evalSha256 (keyPad key 0x36 ++ msg)).val)

theorem hmacSha256_eq_eval : hmacSha256 = evalHmac := by
  funext key msg
  rw [hmacSha256_eq_keyPad, sha256_eq_eval, evalHmac]

end Tecdsa
