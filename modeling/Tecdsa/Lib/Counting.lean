import Mathlib.Init
import Tecdsa.Lib.Draws

/-!
# Counting the calls of an operation

A program whose text takes an operation as a parameter can be run with the
operation itself and with `counted` of it, which adds one to a counter.
`Counts x y cost`: on every tape the counted `x` does what `y` does, and a value
`a` it returns was reached with `cost a` calls.
-/

namespace Draws

variable {ε α β : Type}

/-- A program that carries a counter. -/
abbrev Counted (ε : Type) : Type → Type := StateT Nat (Draws ε)

/-- The operation and one more on the counter. -/
def counted (y : Draws ε α) : Counted ε α := do
  let a ← y
  modify (· + 1)
  return a

/-- An outcome with the counter beside its value. -/
def withCount (count : α → Nat) : Except ε α × List Int → Except ε (α × Nat) × List Int
  | (.ok a, rest) => (.ok (a, count a), rest)
  | (.error e, rest) => (.error e, rest)

@[simp] theorem withCount_ok (count : α → Nat) (a : α) (rest : List Int) :
    withCount count ((.ok a, rest) : Except ε α × List Int) = (.ok (a, count a), rest) := rfl

def Counts (x : Counted ε α) (y : Draws ε α) (cost : α → Nat) : Prop :=
  ∀ c tape, (x.run c).run tape = withCount (fun a => c + cost a) (y.run tape)

/-! ## Rules -/

section
variable {x : Counted ε α} {y : Draws ε α} {f : α → Counted ε β} {g : α → Draws ε β}

theorem run_stateT_bind (c : Nat) : (x >>= f).run c = x.run c >>= fun p => (f p.1).run p.2 := rfl

theorem Counts.pure (a : α) : Counts (Pure.pure a : Counted ε α) (Pure.pure a) fun _ => 0 :=
  fun _ _ => rfl

theorem Counts.lift (y : Draws ε α) : Counts (liftM y : Counted ε α) y fun _ => 0 := by
  intro c tape
  show (y >>= fun a => Pure.pure (a, c)).run tape = _
  rcases h : y.run tape with ⟨r, rest⟩
  cases r with
  | ok a => rw [run_bind_of_ok h]; rfl
  | error e => rw [run_bind_of_error h]; rfl

theorem Counts.counted (y : Draws ε α) : Counts (Draws.counted y) y fun _ => 1 := by
  intro c tape
  show ((y >>= fun a => Pure.pure (a, c)) >>= fun p => Pure.pure (p.1, p.2 + 1)).run tape = _
  rcases h : y.run tape with ⟨r, rest⟩
  cases r with
  | ok a => rw [run_bind_of_ok (a := (a, c)) (by rw [run_bind_of_ok h]; rfl)]; rfl
  | error e => rw [run_bind_of_error (by rw [run_bind_of_error h])]; rfl

/-- The cost may be read off the value returned. -/
theorem Counts.of_returns {cost cost' : α → Nat} (hx : Counts x y cost)
    (hy : Returns y fun a => cost a = cost' a) : Counts x y cost' := by
  intro c tape
  rw [hx c tape]
  rcases h : y.run tape with ⟨r, rest⟩
  cases r with
  | ok a => rw [withCount_ok, withCount_ok, hy _ _ _ h]
  | error e => rfl

/-- One part after the other, the cost of each read off its value. -/
theorem Counts.bind_of_returns {P : α → Prop} {cx : α → Nat} {cf cost : β → Nat} (hx : Counts x y cx)
    (hy : Returns y P) (hf : ∀ a, P a → Counts (f a) (g a) cf)
    (hcost : ∀ a, P a → Returns (g a) fun b => cx a + cf b = cost b) :
    Counts (x >>= f) (y >>= g) cost := by
  intro c tape
  rw [run_stateT_bind]
  have hrun := hx c tape
  rcases h : y.run tape with ⟨r, rest⟩
  rw [h] at hrun
  cases r with
  | error e => rw [run_bind_of_error hrun, run_bind_of_error h]; rfl
  | ok a =>
    have hP := hy _ _ _ h
    rw [run_bind_of_ok hrun, run_bind_of_ok h]
    simp only [hf a hP (c + cx a) rest]
    rcases hg : (g a).run rest with ⟨r, rest'⟩
    cases r with
    | error e => rfl
    | ok b => rw [withCount_ok, withCount_ok, ← hcost a hP _ _ _ hg, Nat.add_assoc]

/-- A first part of constant cost. -/
theorem Counts.bind {P : α → Prop} {k : Nat} {cost : β → Nat} (hx : Counts x y fun _ => k)
    (hy : Returns y P) (hf : ∀ a, P a → Counts (f a) (g a) cost) :
    Counts (x >>= f) (y >>= g) fun b => k + cost b :=
  hx.bind_of_returns hy hf fun _ _ _ _ _ _ => rfl

/-- A first part that is free, and what holds of its value. -/
theorem Counts.bind_drawn {P : α → Prop} {cost : β → Nat} (hx : Counts x y fun _ => 0)
    (hy : Returns y P) (hf : ∀ a, P a → Counts (f a) (g a) cost) : Counts (x >>= f) (y >>= g) cost := by
  refine Counts.of_returns (hx.bind hy hf) ?_
  intro _ _ b _
  exact Nat.zero_add (cost b)

theorem Counts.bind_free {cost : β → Nat} (hx : Counts x y fun _ => 0)
    (hf : ∀ a, Counts (f a) (g a) cost) : Counts (x >>= f) (y >>= g) cost :=
  hx.bind_drawn (P := fun _ => True) (fun _ _ _ _ => trivial) fun a _ => hf a

/-- A rest that is free. -/
theorem Counts.free_rest {k : Nat} (hx : Counts x y fun _ => k)
    (hf : ∀ a, Counts (f a) (g a) fun _ => 0) : Counts (x >>= f) (y >>= g) fun _ => k :=
  hx.bind (P := fun _ => True) (fun _ _ _ _ => trivial) fun a _ => hf a

end

/-! ## Programs without draws -/

theorem Counts.run_of_ok {x : Counted ε α} {r : Except ε α} {a : α} {cost : α → Nat}
    (h : Counts x (liftM r) cost) (hr : r = .ok a) (c : Nat) (tape : List Int) :
    (x.run c).run tape = (.ok (a, c + cost a), tape) := by
  rw [h c tape, hr]
  rfl

theorem counted_ok_bind (a : α) (f : α → Counted ε β) :
    (liftM (Except.ok a : Except ε α) >>= f : Counted ε β) = f a := rfl

/-- What stops costs anything. -/
theorem Counts.error (e : ε) (cost : α → Nat) :
    Counts (liftM (Except.error e : Except ε α) : Counted ε α) (liftM (Except.error e : Except ε α)) cost :=
  fun _ _ => rfl

/-- A first part without draws. -/
theorem Counts.bind_lift {x : Counted ε α} {r : Except ε α} {f : α → Counted ε β} {g : α → Except ε β}
    {k : Nat} {cost : β → Nat} (hx : Counts x (liftM r) fun _ => k)
    (hf : ∀ a, r = .ok a → Counts (f a) (liftM (g a)) cost) :
    Counts (x >>= f) (liftM (r >>= g)) fun b => k + cost b := by
  rw [lift_bind]
  exact hx.bind (Returns.lift fun a ha => ha) hf

end Draws
