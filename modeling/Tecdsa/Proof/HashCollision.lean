import Tecdsa.Lib.MerkleDamgard
import Tecdsa.Proof.Sha256Padding

/-!
# Collisions of the hash stack

`compressCalls` are the arguments of the passes of the chunk loop, `hmacCalls`
those of every pass an HMAC makes.  The buffers are suffix-free, so two runs
that end alike have two passes that collide:

    m ≠ m' → sha256 m = sha256 m' → Collide … (compressCalls m) (compressCalls m')   (sha256_collide)
    hmacSha256 key msg = hmacSha256 key' msg' →
      Collide … ∨ keyBlock key = keyBlock key' ∧ msg = msg'                      (hmacSha256_collide)
-/

namespace Tecdsa

open IteratedHash

namespace Sha256

/-! ## The chunk loop as a fold -/

/-- One pass of the chunk loop, from the octets of its chunk. -/
def compressChunk (c : Regs × Octets) : Regs := compress c.1 (schedule c.2 0)

/-- The registers and the chunk of each pass of `chunkLoop`. -/
def chunkCalls (buf : Octets) (chunk : Nat) (h : Regs) : List (Regs × Octets) :=
  if chunk < buf.length then
    (h, (buf.drop chunk).take 64) :: chunkCalls buf (chunk + 64) (compress h (schedule buf chunk))
  else []
termination_by buf.length - chunk

theorem loadWord_chunk (buf : Octets) (chunk : Nat) {i : Nat} (hi : i + 4 ≤ 64) :
    loadWord ((buf.drop chunk).take 64) i = loadWord buf (chunk + i) := by
  have hget (j : Nat) (hj : j < 64) : ((buf.drop chunk).take 64).getD j 0 = buf.getD (chunk + j) 0 := by
    rw [List.getD_eq_getElem?_getD, List.getD_eq_getElem?_getD, List.getElem?_take_of_lt hj,
      List.getElem?_drop]
  unfold loadWord
  rw [hget i (by omega), hget (i + 1) (by omega), hget (i + 2) (by omega), hget (i + 3) (by omega)]
  simp only [Nat.add_assoc]

/-- A pass reads its own chunk and nothing else. -/
theorem schedule_chunk (buf : Octets) (chunk : Nat) :
    schedule ((buf.drop chunk).take 64) 0 = schedule buf chunk := by
  have hwords : (List.range 16).map (fun i => loadWord ((buf.drop chunk).take 64) (0 + 4 * i)) =
      (List.range 16).map fun i => loadWord buf (chunk + 4 * i) := by
    apply List.map_congr_left
    intro i hi
    rw [List.mem_range] at hi
    rw [loadWord_chunk buf chunk (by omega), Nat.zero_add]
  rw [schedule, schedule, hwords]

theorem chunkLoop_fold {buf : Octets} (chunk todo : Nat) (h : buf.length = chunk + 64 * todo) (r : Regs) :
    chunkLoop buf chunk r =
        (blocks 64 todo (buf.drop chunk)).foldl (fun r b => compressChunk (r, b)) r ∧
      chunkCalls buf chunk r =
        inputs (fun r b => compressChunk (r, b)) r (blocks 64 todo (buf.drop chunk)) := by
  induction todo generalizing chunk r with
  | zero =>
    unfold chunkLoop chunkCalls
    rw [if_neg (by omega), if_neg (by omega)]
    exact ⟨rfl, rfl⟩
  | succ todo ih =>
    have hpass : compressChunk (r, (buf.drop chunk).take 64) = compress r (schedule buf chunk) := by
      unfold compressChunk
      rw [schedule_chunk]
    obtain ⟨hloop, hcalls⟩ := ih (chunk + 64) (by omega) (compress r (schedule buf chunk))
    unfold chunkLoop chunkCalls blocks
    rw [if_pos (by omega), if_pos (by omega), hloop, hcalls, List.foldl_cons, inputs, hpass, List.drop_drop]
    exact ⟨rfl, rfl⟩

/-! ## Digests -/

theorem storeWord_injective {x y : UInt32} (h : storeWord x = storeWord y) : x = y := by
  have hnum := congrArg Octets.toNat h
  rw [storeWord_eq, storeWord_eq, Octets.toNat_ofNat, Octets.toNat_ofNat, Nat.mod_eq_of_lt x.toNat_lt,
    Nat.mod_eq_of_lt y.toNat_lt] at hnum
  exact UInt32.toNat_inj.mp hnum

theorem flatMap_storeWord_injective {xs ys : List UInt32} (hlen : xs.length = ys.length)
    (h : xs.flatMap storeWord = ys.flatMap storeWord) : xs = ys := by
  induction xs generalizing ys with
  | nil => exact (List.eq_nil_of_length_eq_zero hlen.symm).symm
  | cons x xs ih =>
    cases ys with
    | nil => cases hlen
    | cons y ys =>
      rw [List.flatMap_cons, List.flatMap_cons] at h
      -- every word is four octets
      obtain ⟨hword, hrest⟩ := List.append_inj h rfl
      rw [storeWord_injective hword, ih (Nat.succ.inj hlen) hrest]

theorem digest_injective {h h' : Regs} (heq : h.digest = h'.digest) : h = h' := by
  have hoctets : h.words.flatMap storeWord = h'.words.flatMap storeWord := congrArg Subtype.val heq
  have hlen : h.words.length = h'.words.length := rfl
  have hwords := flatMap_storeWord_injective hlen hoctets
  simp only [Regs.words, List.cons.injEq, and_true] at hwords
  obtain ⟨ha, hb, hc, hd, he, hf, hg, hhh⟩ := hwords
  cases h
  cases h'
  simp_all only

end Sha256

open Sha256

/-! ## `sha256` -/

/-- The passes `sha256` makes. -/
def compressCalls (data : Octets) : List (Regs × Octets) := chunkCalls (pad data) 0 init

/-- The chunks of the padded buffer. -/
def chunks (data : Octets) : List Octets := blocks 64 ((pad data).length / 64) (pad data)

theorem sha256_fold (data : Octets) :
    sha256 data = ((chunks data).foldl (fun r b => compressChunk (r, b)) init).digest ∧
      compressCalls data = inputs (fun r b => compressChunk (r, b)) init (chunks data) := by
  have hlen := length_pad data
  obtain ⟨hloop, hcalls⟩ := chunkLoop_fold 0 ((pad data).length / 64)
    (show (pad data).length = 0 + 64 * ((pad data).length / 64) by omega) init
  rw [List.drop_zero] at hloop hcalls
  unfold sha256 compressCalls chunks
  rw [hloop]
  exact ⟨rfl, hcalls⟩

theorem flatten_chunks (data : Octets) : (chunks data).flatten = pad data := by
  have hlen := length_pad data
  exact flatten_blocks (by omega)

/-- Every pass reads 64 octets. -/
theorem length_of_mem_compressCalls {data : Octets} {c : Regs × Octets} (hc : c ∈ compressCalls data) :
    c.2.length = 64 := by
  have hlen := length_pad data
  rw [(sha256_fold data).2] at hc
  exact length_of_mem_blocks (by omega) (snd_mem_of_mem_inputs hc)

/-- **A collision of `sha256` is a collision of two of its passes.** -/
theorem sha256_collide {m m' : Octets} (hm : m.length < 2 ^ 61) (hm' : m'.length < 2 ^ 61) (hne : m ≠ m')
    (h : sha256 m = sha256 m') : Collide compressChunk (compressCalls m) (compressCalls m') := by
  have hstate := h
  rw [(sha256_fold m).1, (sha256_fold m').1] at hstate
  rw [(sha256_fold m).2, (sha256_fold m').2]
  rcases collide_or_end (digest_injective hstate) with hcol | ⟨t, ht, -⟩ | ⟨t, ht, -⟩
  · exact hcol
  -- no padded message ends another
  · refine absurd (eq_of_pad_suffix hm hm' ⟨t.flatten, ?_⟩) hne
    rw [← flatten_chunks m, ← flatten_chunks m', ht, List.flatten_append]
  · refine absurd (eq_of_pad_suffix hm' hm ⟨t.flatten, ?_⟩).symm hne
    rw [← flatten_chunks m, ← flatten_chunks m', ht, List.flatten_append]

/-- **Collisions of `sha256` and `double_sha256`** are among the passes made,
each on 64 octets. -/
theorem sha256_collision {m m' : Octets} (hm : m.length < 2 ^ 61) (hm' : m'.length < 2 ^ 61) (hne : m ≠ m') :
    (∀ c ∈ compressCalls m ++ compressCalls (sha256 m).val ++
        (compressCalls m' ++ compressCalls (sha256 m').val), c.2.length = 64) ∧
      (sha256 m = sha256 m' → Collide compressChunk (compressCalls m) (compressCalls m')) ∧
      (doubleSha256 m = doubleSha256 m' →
        Collide compressChunk (compressCalls m ++ compressCalls (sha256 m).val)
          (compressCalls m' ++ compressCalls (sha256 m').val)) := by
  refine ⟨?_, sha256_collide hm hm' hne, ?_⟩
  · intro c hc
    rw [List.mem_append, List.mem_append, List.mem_append] at hc
    rcases hc with (hc | hc) | hc | hc <;> exact length_of_mem_compressCalls hc
  · intro h
    have hshort (x : Octets) : (sha256 x).val.length < 2 ^ 61 := by
      rw [(sha256 x).property]
      decide
    by_cases hinner : sha256 m = sha256 m'
    · exact (sha256_collide hm hm' hne hinner).inl
    · have hval : (sha256 m).val ≠ (sha256 m').val := fun hval => hinner (Subtype.ext hval)
      exact (sha256_collide (hshort m) (hshort m') hval h).inr

/-- Two messages of one length: their digests differ, or their first passes collide. -/
theorem sha256_collision_octets : ([0] : Octets).length < 2 ^ 61 ∧ ([1] : Octets).length < 2 ^ 61 ∧
    (sha256 [0] = sha256 [1] → Collide compressChunk (compressCalls [0]) (compressCalls [1])) :=
  ⟨by decide, by decide, (sha256_collision (by decide) (by decide) (by decide)).2.1⟩

/-! ## `hmac_sha256` -/

/-- `key_block` of `hmac_sha256`. -/
def keyBlock (key : Octets) : Octets :=
  let keyBlock := List.replicate kSha256BlockSize 0
  if key.length > kSha256BlockSize then memcpy keyBlock (sha256 key).val else memcpy keyBlock key

/-- `key_block`, masked. -/
def keyPad (key : Octets) (mask : UInt8) : Octets := (keyBlock key).map (· ^^^ mask)

/-- The passes of one HMAC: over a long key, the inner text, the outer text. -/
def hmacCalls (c : Octets × Octets) : List (Regs × Octets) :=
  (if c.1.length > kSha256BlockSize then compressCalls c.1 else []) ++
    (compressCalls (keyPad c.1 0x36 ++ c.2) ++
      compressCalls (keyPad c.1 0x5c ++ (sha256 (keyPad c.1 0x36 ++ c.2)).val))

/-- An HMAC, from its key and text. -/
def hmacPair (c : Octets × Octets) : Sha256Hash := hmacSha256 c.1 c.2

theorem keyBlock_eq (key : Octets) : keyBlock key =
    if key.length > 64 then (sha256 key).val ++ List.replicate 32 0
    else key ++ List.replicate (64 - key.length) 0 := by
  unfold keyBlock kSha256BlockSize
  simp only [memcpy_replicate, (sha256 key).property]

@[simp] theorem length_keyBlock (key : Octets) : (keyBlock key).length = 64 := by
  rw [keyBlock_eq]
  by_cases hlong : key.length > 64
  · rw [if_pos hlong, List.length_append, (sha256 key).property, List.length_replicate]
  · rw [if_neg hlong, List.length_append, List.length_replicate]
    omega

@[simp] theorem length_keyPad (key : Octets) (mask : UInt8) : (keyPad key mask).length = 64 := by
  rw [keyPad, List.length_map, length_keyBlock]

theorem hmacSha256_eq_keyPad (key msg : Octets) :
    hmacSha256 key msg = sha256 (keyPad key 0x5c ++ (sha256 (keyPad key 0x36 ++ msg)).val) := by
  have hpad (mask : UInt8) :
      (List.range kSha256BlockSize).map (fun i => (keyBlock key).getD i 0 ^^^ mask) = keyPad key mask := by
    have hmap := map_range_getD (keyBlock key) (· ^^^ mask)
    rwa [length_keyBlock] at hmap
  rw [← hpad, ← hpad]
  rfl

theorem keyPad_injective {key key' : Octets} {mask : UInt8} (h : keyPad key mask = keyPad key' mask) :
    keyBlock key = keyBlock key' := by
  apply List.map_injective_iff.mpr ?_ h
  intro a b hab
  have hmask := congrArg (· ^^^ mask) hab
  simpa only [UInt8.xor_assoc, UInt8.xor_self, UInt8.xor_zero] using hmask

/-- Keys of one length with one block. -/
theorem keyBlock_collide {key key' : Octets} (hlt : key.length < 2 ^ 61) (hlen : key.length = key'.length)
    (h : keyBlock key = keyBlock key') :
    (key.length > 64 ∧ Collide compressChunk (compressCalls key) (compressCalls key')) ∨ key = key' := by
  rw [keyBlock_eq, keyBlock_eq, ← hlen] at h
  by_cases hlong : key.length > 64
  · rw [if_pos hlong, if_pos hlong] at h
    by_cases hkey : key = key'
    · exact Or.inr hkey
    · have hdigest := (List.append_inj' h rfl).1
      exact Or.inl ⟨hlong, sha256_collide hlt (hlen ▸ hlt) hkey (Subtype.ext hdigest)⟩
  · rw [if_neg hlong, if_neg hlong] at h
    exact Or.inr (List.append_inj' h rfl).1

/-- **Equal HMACs**: two passes collide, or the key blocks and the texts are one. -/
theorem hmacSha256_collide {key key' msg msg' : Octets} (hmsg : msg.length < 2 ^ 61 - 64)
    (hmsg' : msg'.length < 2 ^ 61 - 64) (h : hmacSha256 key msg = hmacSha256 key' msg') :
    Collide compressChunk (hmacCalls (key, msg)) (hmacCalls (key', msg')) ∨
      (keyBlock key = keyBlock key' ∧ msg = msg') := by
  have hlen (key t : Octets) (mask : UInt8) : (keyPad key mask ++ t).length = 64 + t.length := by
    rw [List.length_append, length_keyPad]
  rw [hmacSha256_eq_keyPad, hmacSha256_eq_keyPad] at h
  by_cases houter : keyPad key 0x5c ++ (sha256 (keyPad key 0x36 ++ msg)).val =
      keyPad key' 0x5c ++ (sha256 (keyPad key' 0x36 ++ msg')).val
  · obtain ⟨hpad, hdigest⟩ := List.append_inj houter (by rw [length_keyPad, length_keyPad])
    have hblock := keyPad_injective hpad
    by_cases hinner : keyPad key 0x36 ++ msg = keyPad key' 0x36 ++ msg'
    · exact Or.inr ⟨hblock, (List.append_inj hinner (by rw [length_keyPad, length_keyPad])).2⟩
    · refine Or.inl (sha256_collide ?_ ?_ hinner (Subtype.ext hdigest)).inl.inr
      · rw [hlen]
        omega
      · rw [hlen]
        omega
  · refine Or.inl (sha256_collide ?_ ?_ houter h).inr.inr
    · rw [hlen, (sha256 _).property]
      omega
    · rw [hlen, (sha256 _).property]
      omega

/-- Keys of one length: a collision, or one key and one text. -/
theorem hmacSha256_collide_of_length {key key' msg msg' : Octets} (hkey : key.length < 2 ^ 61)
    (hlen : key.length = key'.length) (hmsg : msg.length < 2 ^ 61 - 64) (hmsg' : msg'.length < 2 ^ 61 - 64)
    (h : hmacSha256 key msg = hmacSha256 key' msg') :
    Collide compressChunk (hmacCalls (key, msg)) (hmacCalls (key', msg')) ∨ (key = key' ∧ msg = msg') := by
  rcases hmacSha256_collide hmsg hmsg' h with hcol | ⟨hblock, rfl⟩
  · exact Or.inl hcol
  rcases keyBlock_collide hkey hlen hblock with ⟨hlong, hcol⟩ | rfl
  · unfold hmacCalls kSha256BlockSize
    rw [if_pos hlong, if_pos (hlen ▸ hlong)]
    exact Or.inl hcol.inl
  · exact Or.inr ⟨rfl, rfl⟩

/-- **Equal HMACs are a collision, or mean one text and one key block**; the
block tells keys of one length apart, and a short key from a shorter one
unless it only adds zeros. -/
theorem hmac_collision {key key' msg msg' : Octets} (hkey : key.length < 2 ^ 61)
    (hmsg : msg.length < 2 ^ 61 - 64) (hmsg' : msg'.length < 2 ^ 61 - 64) :
    (hmacSha256 key msg = hmacSha256 key' msg' →
      Collide compressChunk (hmacCalls (key, msg)) (hmacCalls (key', msg')) ∨
        (keyBlock key = keyBlock key' ∧ msg = msg' ∧ (key.length = key'.length → key = key'))) ∧
      (keyBlock key = keyBlock key' → ∀ t, hmacSha256 key t = hmacSha256 key' t) ∧
      (key.length ≤ key'.length → key'.length ≤ 64 →
        (keyBlock key = keyBlock key' ↔ key' = key ++ List.replicate (key'.length - key.length) 0)) := by
  refine ⟨?_, ?_, ?_⟩
  · intro h
    rcases hmacSha256_collide hmsg hmsg' h with hcol | ⟨hblock, hmsgs⟩
    · exact Or.inl hcol
    by_cases hlen : key.length = key'.length
    · rcases hmacSha256_collide_of_length hkey hlen hmsg hmsg' h with hcol | ⟨hkeys, -⟩
      · exact Or.inl hcol
      · exact Or.inr ⟨hblock, hmsgs, fun _ => hkeys⟩
    · exact Or.inr ⟨hblock, hmsgs, fun heq => absurd heq hlen⟩
  · intro hblock t
    rw [hmacSha256_eq_keyPad, hmacSha256_eq_keyPad]
    unfold keyPad
    rw [hblock]
  · intro hle h64
    have hzeros : List.replicate (64 - key.length) (0 : UInt8) =
        List.replicate (key'.length - key.length) 0 ++ List.replicate (64 - key'.length) 0 := by
      rw [← List.replicate_add]
      congr 1
      omega
    rw [keyBlock_eq, keyBlock_eq, if_neg (by omega), if_neg (by omega), hzeros, ← List.append_assoc]
    constructor
    · intro h
      exact (List.append_inj' h rfl).1.symm
    · intro h
      rw [← h]

/-- A key and the key with a zero more have one block, so one HMAC. -/
theorem hmac_collision_zero : ([1] : Octets).length < 2 ^ 61 ∧ ([] : Octets).length < 2 ^ 61 - 64 ∧
    ∀ t, hmacSha256 [1] t = hmacSha256 [1, 0] t := by
  have hkey : ([1] : Octets).length < 2 ^ 61 := by decide
  have hmsg : ([] : Octets).length < 2 ^ 61 - 64 := by decide
  obtain ⟨-, hsame, hblock⟩ := @hmac_collision [1] [1, 0] [] [] hkey hmsg hmsg
  exact ⟨hkey, hmsg, hsame ((hblock (by decide) (by decide)).mpr rfl)⟩

end Tecdsa
