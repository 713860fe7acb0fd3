import Mathlib.Init

/-!
# Programs that draw from a random tape

`Draws ε α` reads integers off a tape and returns a value or stops with an
`ε`; what is left of the tape survives a stop, as a generator's state survives
an exception.  A draw outside the range asked for is not one the generator
could make: the run stops there, so a statement about every run of a program
is a statement about every sequence of draws in range.

`Returns m P` is partial correctness: every value `m` returns, on any tape,
satisfies `P`.  `Yields m P e` adds that `m` stops with nothing but `e`.
-/

/-- A program on a tape of draws. -/
def Draws (ε α : Type) : Type := List Int → Except ε α × List Int

namespace Draws

variable {ε α β : Type}

def run (m : Draws ε α) (tape : List Int) : Except ε α × List Int := m tape

instance : Monad (Draws ε) where
  pure a := fun tape => (.ok a, tape)
  bind m f := fun tape =>
    match m tape with
    | (.ok a, rest) => f a rest
    | (.error e, rest) => (.error e, rest)

instance : MonadLift (Except ε) (Draws ε) where
  monadLift r := fun tape => (r, tape)

def throw (e : ε) : Draws ε α := fun tape => (.error e, tape)

/-- The next draw, if it is `ok`; otherwise `stop`. -/
def draw (stop : ε) (ok : Int → Bool) : Draws ε Int
  | [] => (.error stop, [])
  | x :: rest => if ok x then (.ok x, rest) else (.error stop, rest)

def doWhileGo (stop : ε) (body : Draws ε α) (again : α → Bool) : Nat → Draws ε α
  | 0 => throw stop
  | fuel + 1 => do
    let a ← body
    if again a then doWhileGo stop body again fuel else pure a

/-- `do a = body(); while (again(a));` for a body that draws at least once:
then there are at most as many rounds as draws. -/
def doWhile (stop : ε) (body : Draws ε α) (again : α → Bool) : Draws ε α :=
  fun tape => doWhileGo stop body again (tape.length + 1) tape

/-! ## Runs -/

@[simp] theorem run_pure (a : α) (tape : List Int) :
    (pure a : Draws ε α).run tape = (.ok a, tape) := rfl

@[simp] theorem run_throw (e : ε) (tape : List Int) :
    (throw e : Draws ε α).run tape = (.error e, tape) := rfl

@[simp] theorem run_lift (r : Except ε α) (tape : List Int) :
    (monadLift r : Draws ε α).run tape = (r, tape) := rfl

theorem run_bind_of_ok {m : Draws ε α} {f : α → Draws ε β} {tape rest : List Int} {a : α}
    (h : m.run tape = (.ok a, rest)) : (m >>= f).run tape = (f a).run rest := by
  show (match m tape with | (.ok a, rest) => f a rest | (.error e, rest) => (.error e, rest)) = _
  rw [show m tape = _ from h]
  rfl

theorem run_bind_of_error {m : Draws ε α} {f : α → Draws ε β} {tape rest : List Int} {e : ε}
    (h : m.run tape = (.error e, rest)) : (m >>= f).run tape = (.error e, rest) := by
  show (match m tape with | (.ok a, rest) => f a rest | (.error e, rest) => (.error e, rest)) = _
  rw [show m tape = _ from h]

theorem run_bind_congr {m m' : Draws ε α} {tape : List Int} (h : m.run tape = m'.run tape)
    (f : α → Draws ε β) : (m >>= f).run tape = (m' >>= f).run tape := by
  rcases hm : m'.run tape with ⟨r, rest⟩
  rw [hm] at h
  cases r with
  | ok a => rw [run_bind_of_ok h, run_bind_of_ok hm]
  | error e => rw [run_bind_of_error h, run_bind_of_error hm]

theorem run_lift_bind {r : Except ε α} {a : α} (h : r = .ok a) (f : α → Draws ε β)
    (tape : List Int) : ((liftM r : Draws ε α) >>= f).run tape = (f a).run tape :=
  run_bind_of_ok (show (liftM r : Draws ε α).run tape = (.ok a, tape) by rw [h]; rfl)

theorem lift_bind (r : Except ε α) (f : α → Except ε β) :
    (liftM (r >>= f) : Draws ε β) = (liftM r >>= fun a => liftM (f a)) := by
  funext tape
  cases r <;> rfl

@[simp] theorem liftM_self (m : Draws ε α) : (liftM m : Draws ε α) = m := rfl

/-- A run that returns went through each step. -/
theorem run_bind_eq_ok {m : Draws ε α} {f : α → Draws ε β} {tape rest : List Int} {b : β}
    (h : (m >>= f).run tape = (.ok b, rest)) :
    ∃ a mid, m.run tape = (.ok a, mid) ∧ (f a).run mid = (.ok b, rest) := by
  rcases hm : m.run tape with ⟨r, mid⟩
  cases r with
  | ok a =>
    rw [run_bind_of_ok hm] at h
    exact ⟨a, mid, rfl, h⟩
  | error e =>
    rw [run_bind_of_error hm] at h
    cases h

theorem run_draw_cons {stop : ε} {ok : Int → Bool} {x : Int} (hx : ok x = true) (rest : List Int) :
    (draw stop ok).run (x :: rest) = (.ok x, rest) := if_pos hx

theorem run_draw_eq_ok {stop : ε} {ok : Int → Bool} {tape rest : List Int} {x : Int}
    (h : (draw stop ok).run tape = (.ok x, rest)) : tape = x :: rest ∧ ok x = true := by
  cases tape with
  | nil => cases h
  | cons y tape =>
    simp only [run, draw] at h
    split at h
    · next hy =>
      cases h
      exact ⟨rfl, hy⟩
    · cases h

/-- A loop whose first round is its last. -/
theorem run_doWhile_of_done {stop : ε} {body : Draws ε α} {again : α → Bool} {a : α}
    {tape rest : List Int} (h : body.run tape = (.ok a, rest)) (ha : again a = false) :
    (doWhile stop body again).run tape = (.ok a, rest) := by
  show (doWhileGo stop body again (tape.length + 1)).run tape = _
  unfold doWhileGo
  rw [run_bind_of_ok h, ha]
  rfl

/-! ## Partial correctness -/

/-- Every value returned satisfies `P`. -/
def Returns (m : Draws ε α) (P : α → Prop) : Prop :=
  ∀ tape rest a, m.run tape = (.ok a, rest) → P a

theorem Returns.pure {a : α} {P : α → Prop} (h : P a) : Returns (Pure.pure a : Draws ε α) P := by
  intro tape rest b hb
  cases hb
  exact h

theorem Returns.throw (e : ε) (P : α → Prop) : Returns (Draws.throw e) P := by
  intro tape rest b hb
  cases hb

theorem Returns.lift {r : Except ε α} {P : α → Prop} (h : ∀ a, r = .ok a → P a) :
    Returns (monadLift r : Draws ε α) P := by
  intro tape rest b hb
  cases hb
  exact h b rfl

theorem Returns.bind {m : Draws ε α} {f : α → Draws ε β} {P : α → Prop} {Q : β → Prop}
    (hm : Returns m P) (hf : ∀ a, P a → Returns (f a) Q) : Returns (m >>= f) Q := by
  intro tape rest b hb
  obtain ⟨a, mid, ha, hfb⟩ := run_bind_eq_ok hb
  exact hf a (hm _ _ _ ha) _ _ _ hfb

theorem Returns.mono {m : Draws ε α} {P Q : α → Prop} (hm : Returns m P) (h : ∀ a, P a → Q a) :
    Returns m Q := fun tape rest a ha => h a (hm tape rest a ha)

theorem Returns.draw (stop : ε) (ok : Int → Bool) :
    Returns (Draws.draw stop ok) (fun x => ok x = true) :=
  fun _ _ _ h => (run_draw_eq_ok h).2

/-- A loop returns what its body returns, once `again` fails. -/
theorem Returns.doWhile {stop : ε} {body : Draws ε α} {again : α → Bool} {P : α → Prop}
    (hbody : Returns body P) :
    Returns (Draws.doWhile stop body again) (fun a => P a ∧ again a = false) := by
  have go : ∀ fuel, Returns (doWhileGo stop body again fuel) (fun a => P a ∧ again a = false) := by
    intro fuel
    induction fuel with
    | zero => exact Returns.throw stop _
    | succ fuel ih =>
      refine Returns.bind hbody ?_
      intro a ha
      cases hag : again a with
      | true => simpa [hag] using ih
      | false => simpa [hag] using Returns.pure (ε := ε) (P := fun a => P a ∧ again a = false) ⟨ha, hag⟩
  intro tape rest a h
  exact go _ tape rest a h

/-! ## Stopping -/

/-- Every run returns a value with `P` or stops with `e`. -/
def Yields (m : Draws ε α) (P : α → Prop) (e : ε) : Prop :=
  ∀ tape, (∃ a rest, m.run tape = (.ok a, rest) ∧ P a) ∨ ∃ rest, m.run tape = (.error e, rest)

theorem Yields.pure {a : α} {P : α → Prop} (h : P a) (e : ε) :
    Yields (Pure.pure a : Draws ε α) P e := fun tape => Or.inl ⟨a, tape, rfl, h⟩

theorem Yields.bind {m : Draws ε α} {f : α → Draws ε β} {P : α → Prop} {Q : β → Prop} {e : ε}
    (hm : Yields m P e) (hf : ∀ a, P a → Yields (f a) Q e) : Yields (m >>= f) Q e := by
  intro tape
  rcases hm tape with ⟨a, mid, ha, hP⟩ | ⟨rest, he⟩
  · rw [run_bind_of_ok ha]
    exact hf a hP mid
  · exact Or.inr ⟨rest, run_bind_of_error he⟩

theorem Yields.lift {r : Except ε α} {a : α} {P : α → Prop} (hr : r = .ok a) (h : P a) (e : ε) :
    Yields (monadLift r : Draws ε α) P e := fun tape => Or.inl ⟨a, tape, by rw [hr]; rfl, h⟩

theorem Yields.mono {m : Draws ε α} {P Q : α → Prop} {e : ε} (hm : Yields m P e)
    (h : ∀ a, P a → Q a) : Yields m Q e := by
  intro tape
  rcases hm tape with ⟨a, rest, ha, hP⟩ | hstop
  · exact Or.inl ⟨a, rest, ha, h a hP⟩
  · exact Or.inr hstop

theorem Yields.draw (stop : ε) (ok : Int → Bool) :
    Yields (Draws.draw stop ok) (fun x => ok x = true) stop := by
  intro tape
  cases tape with
  | nil => exact Or.inr ⟨[], rfl⟩
  | cons x rest =>
    cases hx : ok x with
    | true => exact Or.inl ⟨x, rest, run_draw_cons hx rest, hx⟩
    | false => exact Or.inr ⟨rest, by simp [run, Draws.draw, hx]⟩

/-- A loop whose body stops as the loop itself does. -/
theorem Yields.doWhile {stop : ε} {body : Draws ε α} {again : α → Bool} {P : α → Prop}
    (hbody : Yields body P stop) :
    Yields (Draws.doWhile stop body again) (fun a => P a ∧ again a = false) stop := by
  have go : ∀ fuel, Yields (doWhileGo stop body again fuel) (fun a => P a ∧ again a = false) stop := by
    intro fuel
    induction fuel with
    | zero => exact fun tape => Or.inr ⟨tape, rfl⟩
    | succ fuel ih =>
      refine Yields.bind hbody ?_
      intro a ha
      cases hag : again a with
      | true => exact ih
      | false => exact Yields.pure ⟨ha, hag⟩ stop
  exact fun tape => go (tape.length + 1) tape

theorem Yields.returns {m : Draws ε α} {P : α → Prop} {e : ε} (hm : Yields m P e) : Returns m P := by
  intro tape rest a ha
  rcases hm tape with ⟨b, rest', hb, hP⟩ | ⟨rest', he⟩
  · rw [ha] at hb
    cases hb
    exact hP
  · rw [ha] at he
    cases he

end Draws
