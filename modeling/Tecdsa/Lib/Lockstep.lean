import Mathlib.Init

/-!
# Two machines in lockstep

Two machines that do the same on every call but the `bad` ones, where the
second stops: a run of the second is the run of the first, or it is the first's
up to the first bad call.

    runUntil_of_avoids, runUntil_of_bad, avoids_or_bad
-/

namespace Lockstep

variable {S A : Type}

/-- Runs `step` and stops before a call that `stops`; the flag tells whether it did. -/
def runUntil (stops : S → A → Bool) (step : S → A → S) : S → List A → S × Bool
  | s, [] => (s, false)
  | s, a :: as => if stops s a then (s, true) else runUntil stops step (step s a) as

section
variable (bad : S → A → Prop) (step : S → A → S)

/-- No call of the run is bad. -/
def Avoids : S → List A → Prop
  | _, [] => True
  | s, a :: as => ¬ bad s a ∧ Avoids (step s a) as

/-- A run has a first bad call, or none. -/
theorem avoids_or_bad (s : S) (as : List A) : Avoids bad step s as ∨
    ∃ pre a post, as = pre ++ a :: post ∧ Avoids bad step s pre ∧ bad (pre.foldl step s) a := by
  induction as generalizing s with
  | nil => exact Or.inl trivial
  | cons a as ih =>
    by_cases hbad : bad s a
    · exact Or.inr ⟨[], a, as, rfl, trivial, hbad⟩
    rcases ih (step s a) with h | ⟨pre, b, post, rfl, hpre, hb⟩
    · exact Or.inl ⟨hbad, h⟩
    · exact Or.inr ⟨a :: pre, b, post, rfl, ⟨hbad, hpre⟩, hb⟩

end

section
variable {Inv : S → Prop} {bad : S → A → Prop} {step step' : S → A → S} {stops : S → A → Bool}
  (hinv : ∀ s a, Inv s → Inv (step s a))
  (hagree : ∀ s a, Inv s → ¬ bad s a → stops s a = false ∧ step' s a = step s a)
include hinv hagree

theorem runUntil_of_avoids {s : S} (hs : Inv s) {as : List A} (h : Avoids bad step s as) :
    runUntil stops step' s as = (as.foldl step s, false) := by
  induction as generalizing s with
  | nil => rfl
  | cons a as ih =>
    obtain ⟨hok, h⟩ := h
    obtain ⟨hgo, hstep⟩ := hagree s a hs hok
    rw [runUntil, hgo, if_neg Bool.false_ne_true, hstep, List.foldl_cons]
    exact ih (hinv s a hs) h

theorem runUntil_of_bad (hstops : ∀ s a, Inv s → bad s a → stops s a = true) {s : S} (hs : Inv s)
    {pre : List A} {a : A} (post : List A) (hpre : Avoids bad step s pre) (ha : bad (pre.foldl step s) a) :
    runUntil stops step' s (pre ++ a :: post) = (pre.foldl step s, true) := by
  induction pre generalizing s with
  | nil => rw [List.nil_append, runUntil, hstops s a hs ha, if_pos rfl, List.foldl_nil]
  | cons b pre ih =>
    obtain ⟨hok, hpre⟩ := hpre
    obtain ⟨hgo, hstep⟩ := hagree s b hs hok
    rw [List.cons_append, runUntil, hgo, if_neg Bool.false_ne_true, hstep, List.foldl_cons]
    exact ih (hinv s b hs) hpre ha

end

end Lockstep
