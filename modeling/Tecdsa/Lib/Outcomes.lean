import Mathlib.Init
import Tecdsa.Lib.Draws

/-!
# How a run may end

`Ends m P E`: on every tape `m` returns a value with `P` or stops with an error
in `E`.  `CanReturn m P`: on some tape, whatever follows it, `m` returns a value
with `P`.  The rules of a counted loop are `Ends.forLoop` and
`CanReturn.forLoop`; a loop over `count` and one over `todo` further indices are
one loop (`forLoop_append`).
-/

namespace Draws

variable {ε α β : Type}

/-- `for (i = first; i < first + todo; ++i) out.push_back(f(i));` -/
def forLoop (f : Nat → Draws ε α) : (todo first : Nat) → Draws ε (List α)
  | 0, _ => pure []
  | todo + 1, i => do
    let a ← f i
    let as ← forLoop f todo (i + 1)
    return a :: as

/-- Every run returns a value with `P` or stops with an error in `E`. -/
def Ends (m : Draws ε α) (P : α → Prop) (E : ε → Prop) : Prop :=
  ∀ tape, (∃ a rest, m.run tape = (.ok a, rest) ∧ P a) ∨ ∃ e rest, m.run tape = (.error e, rest) ∧ E e

/-- Some tape makes the program return a value with `P`; what follows the tape is left. -/
def CanReturn (m : Draws ε α) (P : α → Prop) : Prop :=
  ∃ tape a, P a ∧ ∀ rest, m.run (tape ++ rest) = (.ok a, rest)

/-! ## Rules -/

section
variable {m : Draws ε α} {f : α → Draws ε β} {P P' : α → Prop} {Q : β → Prop} {E E' : ε → Prop}

theorem Ends.pure {a : α} (h : P a) : Ends (Pure.pure a : Draws ε α) P E := by
  intro tape
  exact Or.inl ⟨a, tape, rfl, h⟩

theorem Ends.throw {e : ε} (h : E e) : Ends (Draws.throw e) P E := by
  intro tape
  exact Or.inr ⟨e, tape, rfl, h⟩

theorem Ends.bind (hm : Ends m P E) (hf : ∀ a, P a → Ends (f a) Q E) : Ends (m >>= f) Q E := by
  intro tape
  rcases hm tape with ⟨a, mid, ha, hP⟩ | ⟨e, rest, he, hE⟩
  · rw [run_bind_of_ok ha]
    exact hf a hP mid
  · exact Or.inr ⟨e, rest, run_bind_of_error he, hE⟩

theorem Ends.lift {r : Except ε α} (h : (∃ a, r = .ok a ∧ P a) ∨ ∃ e, r = .error e ∧ E e) :
    Ends (monadLift r : Draws ε α) P E := by
  intro tape
  rcases h with ⟨a, rfl, hP⟩ | ⟨e, rfl, hE⟩
  · exact Or.inl ⟨a, tape, rfl, hP⟩
  · exact Or.inr ⟨e, tape, rfl, hE⟩

theorem Ends.mono (hm : Ends m P E) (hP : ∀ a, P a → P' a) (hE : ∀ e, E e → E' e) : Ends m P' E' := by
  intro tape
  rcases hm tape with ⟨a, rest, ha, h⟩ | ⟨e, rest, he, h⟩
  · exact Or.inl ⟨a, rest, ha, hP a h⟩
  · exact Or.inr ⟨e, rest, he, hE e h⟩

theorem Yields.ends {e : ε} (hm : Yields m P e) (he : E e) : Ends m P E := by
  intro tape
  rcases hm tape with hret | ⟨rest, hstop⟩
  · exact Or.inl hret
  · exact Or.inr ⟨e, rest, hstop, he⟩

/-- The errors and the values may be found apart. -/
theorem Ends.of_returns (hm : Ends m (fun _ => True) E) (hP : Returns m P) : Ends m P E := by
  intro tape
  rcases hm tape with ⟨a, rest, ha, -⟩ | hstop
  · exact Or.inl ⟨a, rest, ha, hP _ _ _ ha⟩
  · exact Or.inr hstop

theorem Ends.returns (hm : Ends m P E) : Returns m P := by
  intro tape rest a ha
  rcases hm tape with ⟨b, rest', hb, hP⟩ | ⟨e, rest', he, -⟩
  · rw [ha] at hb
    cases hb
    exact hP
  · rw [ha] at he
    cases he

theorem CanReturn.pure {a : α} (h : P a) : CanReturn (Pure.pure a : Draws ε α) P :=
  ⟨[], a, h, fun _ => rfl⟩

theorem CanReturn.lift {r : Except ε α} {a : α} (hr : r = .ok a) (h : P a) :
    CanReturn (monadLift r : Draws ε α) P := by
  refine ⟨[], a, h, ?_⟩
  intro rest
  rw [hr]
  rfl

/-- The tapes of the steps, one after the other. -/
theorem CanReturn.bind (hm : CanReturn m P) (hf : ∀ a, P a → CanReturn (f a) Q) : CanReturn (m >>= f) Q := by
  obtain ⟨tape, a, hP, hrun⟩ := hm
  obtain ⟨tape', b, hQ, hrun'⟩ := hf a hP
  refine ⟨tape ++ tape', b, hQ, ?_⟩
  intro rest
  rw [List.append_assoc, run_bind_of_ok (hrun _), hrun']

theorem CanReturn.mono (hm : CanReturn m P) (h : ∀ a, P a → P' a) : CanReturn m P' := by
  obtain ⟨tape, a, hP, hrun⟩ := hm
  exact ⟨tape, a, h a hP, hrun⟩

/-- What holds of every value returned holds of this one. -/
theorem CanReturn.and_returns (hm : CanReturn m P) (h : Returns m P') : CanReturn m fun a => P a ∧ P' a := by
  obtain ⟨tape, a, hP, hrun⟩ := hm
  exact ⟨tape, a, ⟨hP, h _ _ _ (hrun [])⟩, hrun⟩

end

/-! ## Counted loops -/

section
variable {f : Nat → Draws ε α} {E : ε → Prop}

/-- A list filled from `first + 1` on, and the value before it. -/
theorem filled_cons {P : Nat → α → Prop} {todo first : Nat} {a : α} {as : List α} (ha : P first a)
    (hlen : as.length = todo) (has : ∀ j b, as[j]? = some b → P (first + 1 + j) b) :
    (a :: as).length = todo + 1 ∧ ∀ j b, (a :: as)[j]? = some b → P (first + j) b := by
  refine ⟨by simp [hlen], ?_⟩
  intro j b hb
  cases j with
  | zero =>
    rw [List.getElem?_cons_zero, Option.some.injEq] at hb
    exact hb ▸ ha
  | succ j =>
    rw [List.getElem?_cons_succ] at hb
    have := has j b hb
    rwa [show first + 1 + j = first + (j + 1) by omega] at this

/-- **A loop whose rounds end well ends well**: what holds of each round's value
holds of the values returned. -/
theorem Ends.forLoop {P : Nat → α → Prop} {todo first : Nat}
    (h : ∀ j, first ≤ j → j < first + todo → Ends (f j) (P j) E) :
    Ends (Draws.forLoop f todo first)
      (fun as => as.length = todo ∧ ∀ j a, as[j]? = some a → P (first + j) a) E := by
  induction todo generalizing first with
  | zero => exact Ends.pure ⟨rfl, by simp⟩
  | succ todo ih =>
    refine (h first (Nat.le_refl _) (by omega)).bind ?_
    intro a ha
    refine (@ih (first + 1) fun j hj hlt => h j (by omega) (by omega)).bind ?_
    rintro as ⟨hlen, has⟩
    exact Ends.pure (filled_cons ha hlen has)

/-- **A loop whose rounds can return can return.** -/
theorem CanReturn.forLoop {P : Nat → α → Prop} {todo first : Nat}
    (h : ∀ j, first ≤ j → j < first + todo → CanReturn (f j) (P j)) :
    CanReturn (Draws.forLoop f todo first)
      (fun as => as.length = todo ∧ ∀ j a, as[j]? = some a → P (first + j) a) := by
  induction todo generalizing first with
  | zero => exact CanReturn.pure ⟨rfl, by simp⟩
  | succ todo ih =>
    refine (h first (Nat.le_refl _) (by omega)).bind ?_
    intro a ha
    refine (@ih (first + 1) fun j hj hlt => h j (by omega) (by omega)).bind ?_
    rintro as ⟨hlen, has⟩
    exact CanReturn.pure (filled_cons ha hlen has)

theorem run_forLoop_succ (todo i : Nat) (tape : List Int) :
    (forLoop f (todo + 1) i).run tape =
      (f i >>= fun a => forLoop f todo (i + 1) >>= fun as => Pure.pure (a :: as)).run tape := rfl

/-- Loops one after the other. -/
theorem forLoop_append (count todo i : Nat) (tape : List Int) :
    (forLoop f count i >>= fun as => forLoop f todo (i + count) >>= fun bs => Pure.pure (as ++ bs)).run tape =
      (forLoop f (count + todo) i).run tape := by
  induction count generalizing i tape with
  | zero =>
    rw [Nat.zero_add, Nat.add_zero]
    show (forLoop f todo i >>= fun bs => Pure.pure ([] ++ bs)).run tape = _
    rcases h : (forLoop f todo i).run tape with ⟨r, rest⟩
    cases r with
    | ok bs => rw [run_bind_of_ok h]; rfl
    | error e => rw [run_bind_of_error h]
  | succ count ih =>
    rw [show count + 1 + todo = count + todo + 1 by omega, run_forLoop_succ]
    rcases ha : (f i).run tape with ⟨r, mid⟩
    cases r with
    | error e =>
      have hloop : (forLoop f (count + 1) i).run tape = (.error e, mid) := by
        rw [run_forLoop_succ, run_bind_of_error ha]
      rw [run_bind_of_error hloop, run_bind_of_error ha]
    | ok a =>
      rw [run_bind_of_ok ha]
      have hrest := ih (i + 1) mid
      rcases has : (forLoop f count (i + 1)).run mid with ⟨r, mid'⟩
      cases r with
      | error e =>
        have hloop : (forLoop f (count + 1) i).run tape = (.error e, mid') := by
          rw [run_forLoop_succ, run_bind_of_ok ha, run_bind_of_error has]
        rw [run_bind_of_error has] at hrest
        rw [run_bind_of_error hloop, run_bind_of_error hrest.symm]
      | ok as =>
        have hloop : (forLoop f (count + 1) i).run tape = (.ok (a :: as), mid') := by
          rw [run_forLoop_succ, run_bind_of_ok ha, run_bind_of_ok has]
          rfl
        rw [run_bind_of_ok has] at hrest
        rw [run_bind_of_ok hloop, show i + (count + 1) = i + 1 + count by omega]
        rcases hbs : (forLoop f todo (i + 1 + count)).run mid' with ⟨r, rest⟩
        cases r with
        | error e =>
          rw [run_bind_of_error hbs] at hrest ⊢
          rw [run_bind_of_error hrest.symm]
        | ok bs =>
          rw [run_bind_of_ok hbs] at hrest ⊢
          rw [run_bind_of_ok hrest.symm]
          rfl

end

end Draws
