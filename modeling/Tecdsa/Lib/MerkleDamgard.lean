import Mathlib.Data.List.Induction

/-!
# Iterated hashing: a collision of the hash is one of its compression function

A hash that folds `f` over blocks calls it on a list of inputs (`inputs`).  When
two runs end in the same state, two of these inputs collide, or one run is the
end of the other:

    bs.foldl f s = bs'.foldl f s' → Collide … ∨ bs' = t ++ bs ∨ bs = t ++ bs'    (collide_or_end)

Collisions exist, since `f` compresses; what the lemmas say is where to find one.
-/

namespace IteratedHash

/-! ## Collisions -/

section
variable {X Y : Type*} {g : X → Y} {l₁ l₂ m₁ m₂ : List X}

/-- An element of each list, different, with one image. -/
def Collide (g : X → Y) (l₁ l₂ : List X) : Prop := ∃ x ∈ l₁, ∃ y ∈ l₂, x ≠ y ∧ g x = g y

theorem Collide.mono (h : Collide g l₁ l₂) (h₁ : l₁ ⊆ m₁) (h₂ : l₂ ⊆ m₂) : Collide g m₁ m₂ := by
  obtain ⟨x, hx, y, hy, hne, heq⟩ := h
  exact ⟨x, h₁ hx, y, h₂ hy, hne, heq⟩

theorem Collide.symm (h : Collide g l₁ l₂) : Collide g l₂ l₁ := by
  obtain ⟨x, hx, y, hy, hne, heq⟩ := h
  exact ⟨y, hy, x, hx, hne.symm, heq.symm⟩

theorem Collide.inl (h : Collide g l₁ l₂) : Collide g (l₁ ++ m₁) (l₂ ++ m₂) :=
  h.mono (List.subset_append_left _ _) (List.subset_append_left _ _)

theorem Collide.inr (h : Collide g l₁ l₂) : Collide g (m₁ ++ l₁) (m₂ ++ l₂) :=
  h.mono (List.subset_append_right _ _) (List.subset_append_right _ _)

/-- A collision of `g` is one of `f`, which `g` calls on the inputs `calls x`. -/
theorem Collide.flatMap {X' Y' : Type*} {f : X' → Y'} {calls : X → List X'} (h : Collide g l₁ l₂)
    (hf : ∀ x ∈ l₁, ∀ y ∈ l₂, x ≠ y → g x = g y → Collide f (calls x) (calls y)) :
    Collide f (l₁.flatMap calls) (l₂.flatMap calls) := by
  obtain ⟨x, hx, y, hy, hne, heq⟩ := h
  refine (hf x hx y hy hne heq).mono ?_ ?_
  · intro c hc
    exact List.mem_flatMap.mpr ⟨x, hx, hc⟩
  · intro c hc
    exact List.mem_flatMap.mpr ⟨y, hy, hc⟩

/-- One image: a collision, or no difference. -/
theorem collide_or_eq {x y : X} (hx : x ∈ l₁) (hy : y ∈ l₂) (h : g x = g y) :
    Collide g l₁ l₂ ∨ x = y := by
  by_cases hxy : x = y
  · exact Or.inr hxy
  · exact Or.inl ⟨x, hx, y, hy, hxy, h⟩

end

/-! ## Runs -/

section
variable {S B : Type*} (f : S → B → S)

/-- The inputs of `f` on the way to `bs.foldl f s`. -/
def inputs : S → List B → List (S × B)
  | _, [] => []
  | s, b :: bs => (s, b) :: inputs (f s b) bs

theorem inputs_append (s : S) (as bs : List B) :
    inputs f s (as ++ bs) = inputs f s as ++ inputs f (as.foldl f s) bs := by
  induction as generalizing s with
  | nil => rfl
  | cons a as ih => simp only [List.cons_append, inputs, ih, List.foldl_cons]

theorem mem_inputs (s : S) (as : List B) (b : B) (bs : List B) :
    (as.foldl f s, b) ∈ inputs f s (as ++ b :: bs) := by
  rw [inputs_append]
  exact List.mem_append_right _ List.mem_cons_self

theorem map_snd_inputs (s : S) (bs : List B) : (inputs f s bs).map Prod.snd = bs := by
  induction bs generalizing s with
  | nil => rfl
  | cons b bs ih => simp only [inputs, List.map_cons, ih]

variable {f}

/-- The block of a call is one of the blocks hashed. -/
theorem snd_mem_of_mem_inputs {s : S} {bs : List B} {c : S × B} (hc : c ∈ inputs f s bs) :
    c.2 ∈ bs := by
  rw [← map_snd_inputs f s bs]
  exact List.mem_map_of_mem hc

/-- **Runs that meet collided, or one is the end of the other.** -/
theorem collide_or_end {s s' : S} {bs bs' : List B} (h : bs.foldl f s = bs'.foldl f s') :
    Collide (fun c : S × B => f c.1 c.2) (inputs f s bs) (inputs f s' bs') ∨
      (∃ t, bs' = t ++ bs ∧ s = t.foldl f s') ∨ ∃ t, bs = t ++ bs' ∧ s' = t.foldl f s := by
  induction bs using List.reverseRecOn generalizing bs' with
  | nil => exact Or.inr (Or.inl ⟨bs', (List.append_nil bs').symm, h⟩)
  | append_singleton bs b ih =>
    rcases List.eq_nil_or_concat bs' with rfl | ⟨bs', b', rfl⟩
    · exact Or.inr (Or.inr ⟨bs ++ [b], (List.append_nil _).symm, h.symm⟩)
    · rw [List.concat_eq_append] at h ⊢
      simp only [List.foldl_append, List.foldl_cons, List.foldl_nil] at h
      -- the last calls collide, or the runs met one block earlier
      rcases collide_or_eq (g := fun c : S × B => f c.1 c.2) (mem_inputs f s bs b [])
        (mem_inputs f s' bs' b' []) h with hcol | heq
      · exact Or.inl hcol
      · rw [Prod.mk.injEq] at heq
        obtain ⟨hstate, rfl⟩ := heq
        rcases ih hstate with hcol | ⟨t, rfl, hs⟩ | ⟨t, rfl, hs⟩
        · rw [inputs_append, inputs_append]
          exact Or.inl hcol.inl
        · exact Or.inr (Or.inl ⟨t, List.append_assoc _ _ _, hs⟩)
        · exact Or.inr (Or.inr ⟨t, List.append_assoc _ _ _, hs⟩)

end

/-! ## Blocks -/

section
variable {α : Type*}

/-- The first `count` blocks of `n`. -/
def blocks (n : Nat) : (count : Nat) → List α → List (List α)
  | 0, _ => []
  | count + 1, l => l.take n :: blocks n count (l.drop n)

theorem flatten_blocks {n count : Nat} {l : List α} (h : l.length = n * count) :
    (blocks n count l).flatten = l := by
  induction count generalizing l with
  | zero =>
    rw [Nat.mul_zero] at h
    rw [List.eq_nil_of_length_eq_zero h]
    rfl
  | succ count ih =>
    have hdrop : (l.drop n).length = n * count := by
      rw [List.length_drop, h, Nat.mul_succ]
      omega
    unfold blocks
    rw [List.flatten_cons, ih hdrop, List.take_append_drop]

theorem blocks_append {n as bs : Nat} {l l' : List α} (h : l.length = n * as) :
    blocks n (as + bs) (l ++ l') = blocks n as l ++ blocks n bs l' := by
  induction as generalizing l with
  | zero =>
    rw [Nat.mul_zero] at h
    rw [List.eq_nil_of_length_eq_zero h, Nat.zero_add]
    rfl
  | succ as ih =>
    rw [Nat.mul_succ] at h
    have hdrop : (l.drop n).length = n * as := by
      rw [List.length_drop, h]
      omega
    rw [Nat.succ_add, blocks, blocks, List.take_append_of_le_length (by omega),
      List.drop_append_of_le_length (by omega), ih hdrop, List.cons_append]

theorem length_of_mem_blocks {n count : Nat} {l b : List α} (h : l.length = n * count)
    (hb : b ∈ blocks n count l) : b.length = n := by
  induction count generalizing l with
  | zero => cases hb
  | succ count ih =>
    have hdrop : (l.drop n).length = n * count := by
      rw [List.length_drop, h, Nat.mul_succ]
      omega
    unfold blocks at hb
    rcases List.mem_cons.mp hb with rfl | hb
    · rw [List.length_take, h, Nat.mul_succ]
      omega
    · exact ih hdrop hb

end

end IteratedHash
