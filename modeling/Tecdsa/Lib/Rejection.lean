import Mathlib.Logic.Relation
import Tecdsa.Lib.Draws

/-!
# The runs of a rejection loop

A loop whose rounds draw returns on a tape exactly when some rounds are
rejected and the next one is not:

    (doWhile stop body again).run tape = (.ok a, rest) ↔
      ∃ mid, rejections tape mid, body.run mid = (.ok a, rest), again a = false   (run_doWhile_eq_ok_iff)

With one draw for each round the tape is the draws rejected, then the one
kept (`run_doWhile_drawWith_iff`); a loop around such a loop is again one
(`run_doWhile_doWhile_iff`).
-/

namespace Draws

variable {ε α : Type} {stop : ε} {body : Draws ε α} {again : α → Bool}

/-- Every value returned has cost a draw. -/
def Consumes (m : Draws ε α) : Prop :=
  ∀ tape rest a, m.run tape = (.ok a, rest) → rest.length < tape.length

/-- A round that is not the last. -/
def Rejects (body : Draws ε α) (again : α → Bool) (tape mid : List Int) : Prop :=
  ∃ a, body.run tape = (.ok a, mid) ∧ again a = true

/-- Rounds that are not the last. -/
def Rejections (body : Draws ε α) (again : α → Bool) : List Int → List Int → Prop :=
  Relation.ReflTransGen (Rejects body again)

theorem Rejections.length_le (hbody : Consumes body) {tape mid : List Int}
    (h : Rejections body again tape mid) : mid.length ≤ tape.length := by
  induction h with
  | refl => exact Nat.le_refl _
  | tail _ hstep ih =>
    obtain ⟨a, ha, -⟩ := hstep
    have := hbody _ _ _ ha
    omega

/-- Any fuel: a loop that returns has gone through its rounds. -/
theorem rejections_of_run {fuel : Nat} {tape rest : List Int} {a : α}
    (h : (doWhileGo stop body again fuel).run tape = (.ok a, rest)) :
    ∃ mid, Rejections body again tape mid ∧ body.run mid = (.ok a, rest) ∧ again a = false := by
  induction fuel generalizing tape with
  | zero => cases h
  | succ fuel ih =>
    obtain ⟨b, mid, hb, hrest⟩ := run_bind_eq_ok h
    cases hag : again b with
    | true =>
      rw [if_pos hag] at hrest
      obtain ⟨mid', hrej, hlast⟩ := ih hrest
      exact ⟨mid', Relation.ReflTransGen.head ⟨b, hb, hag⟩ hrej, hlast⟩
    | false =>
      rw [if_neg (by simp [hag])] at hrest
      cases hrest
      exact ⟨tape, Relation.ReflTransGen.refl, hb, hag⟩

/-- Enough fuel: more than there are draws. -/
theorem run_of_rejections (hbody : Consumes body) {tape mid rest : List Int} {a : α}
    (h : Rejections body again tape mid) (ha : body.run mid = (.ok a, rest)) (hag : again a = false)
    (fuel : Nat) (hfuel : tape.length < fuel) :
    (doWhileGo stop body again fuel).run tape = (.ok a, rest) := by
  induction h using Relation.ReflTransGen.head_induction_on generalizing fuel with
  | refl =>
    obtain ⟨fuel, rfl⟩ := Nat.exists_eq_succ_of_ne_zero (show fuel ≠ 0 by omega)
    unfold doWhileGo
    rw [run_bind_of_ok ha, hag]
    rfl
  | head hstep _ ih =>
    obtain ⟨b, hb, hagb⟩ := hstep
    have hshrink := hbody _ _ _ hb
    obtain ⟨fuel, rfl⟩ := Nat.exists_eq_succ_of_ne_zero (show fuel ≠ 0 by omega)
    unfold doWhileGo
    rw [run_bind_of_ok hb, hagb]
    exact ih fuel (by omega)

/-- **The runs of a loop.** -/
theorem run_doWhile_eq_ok_iff (hbody : Consumes body) {tape rest : List Int} {a : α} :
    (doWhile stop body again).run tape = (.ok a, rest) ↔
      ∃ mid, Rejections body again tape mid ∧ body.run mid = (.ok a, rest) ∧ again a = false := by
  constructor
  · exact rejections_of_run
  · rintro ⟨mid, hrej, ha, hag⟩
    exact run_of_rejections hbody hrej ha hag _ (Nat.lt_succ_self _)

theorem Consumes.doWhile (hbody : Consumes body) : Consumes (Draws.doWhile stop body again) := by
  intro tape rest a h
  obtain ⟨mid, hrej, ha, -⟩ := (run_doWhile_eq_ok_iff hbody).mp h
  have hle := hrej.length_le hbody
  have := hbody _ _ _ ha
  omega

/-! ## One draw for each round -/

section
variable {ok : Int → Bool} {f : Int → α}

/-- A round that computes its value from one draw. -/
def drawWith (stop : ε) (ok : Int → Bool) (f : Int → α) : Draws ε α := do
  let x ← draw stop ok
  return f x

theorem run_drawWith_eq_ok_iff {tape rest : List Int} {a : α} :
    (drawWith stop ok f).run tape = (.ok a, rest) ↔ ∃ x, tape = x :: rest ∧ ok x = true ∧ f x = a := by
  constructor
  · intro h
    obtain ⟨x, mid, hx, hend⟩ := run_bind_eq_ok h
    cases hend
    obtain ⟨rfl, hok⟩ := run_draw_eq_ok hx
    exact ⟨x, rfl, hok, rfl⟩
  · rintro ⟨x, rfl, hok, rfl⟩
    exact run_bind_of_ok (run_draw_cons hok rest)

theorem Consumes.drawWith (ok : Int → Bool) (f : Int → α) : Consumes (Draws.drawWith stop ok f) := by
  intro tape rest a h
  obtain ⟨x, rfl, -⟩ := run_drawWith_eq_ok_iff.mp h
  exact Nat.lt_succ_self _

theorem rejections_drawWith_iff {tape mid : List Int} :
    Rejections (drawWith stop ok f) again tape mid ↔
      ∃ pre, tape = pre ++ mid ∧ ∀ x ∈ pre, ok x = true ∧ again (f x) = true := by
  constructor
  · intro h
    induction h using Relation.ReflTransGen.head_induction_on with
    | refl => exact ⟨[], rfl, by simp⟩
    | head hstep _ ih =>
      obtain ⟨a, ha, hag⟩ := hstep
      obtain ⟨x, rfl, hok, rfl⟩ := run_drawWith_eq_ok_iff.mp ha
      obtain ⟨pre, rfl, hpre⟩ := ih
      exact ⟨x :: pre, rfl, List.forall_mem_cons.mpr ⟨⟨hok, hag⟩, hpre⟩⟩
  · rintro ⟨pre, rfl, hpre⟩
    induction pre with
    | nil => exact Relation.ReflTransGen.refl
    | cons x pre ih =>
      obtain ⟨⟨hok, hag⟩, hpre⟩ := List.forall_mem_cons.mp hpre
      exact Relation.ReflTransGen.head ⟨f x, run_drawWith_eq_ok_iff.mpr ⟨x, rfl, hok, rfl⟩, hag⟩ (ih hpre)

theorem run_doWhile_drawWith_iff {tape rest : List Int} {a : α} :
    (Draws.doWhile stop (drawWith stop ok f) again).run tape = (.ok a, rest) ↔
      ∃ pre x, tape = pre ++ x :: rest ∧ (∀ y ∈ pre, ok y = true ∧ again (f y) = true) ∧
        ok x = true ∧ f x = a ∧ again a = false := by
  rw [run_doWhile_eq_ok_iff (Consumes.drawWith ok f)]
  constructor
  · rintro ⟨mid, hrej, ha, hag⟩
    obtain ⟨pre, rfl, hpre⟩ := rejections_drawWith_iff.mp hrej
    obtain ⟨x, rfl, hok, hx⟩ := run_drawWith_eq_ok_iff.mp ha
    exact ⟨pre, x, rfl, hpre, hok, hx, hag⟩
  · rintro ⟨pre, x, rfl, hpre, hok, hx, hag⟩
    exact ⟨_, rejections_drawWith_iff.mpr ⟨pre, rfl, hpre⟩,
      run_drawWith_eq_ok_iff.mpr ⟨x, rfl, hok, hx⟩, hag⟩

end

/-! ## The draw itself -/

theorem drawWith_id (stop : ε) (ok : Int → Bool) : drawWith stop ok id = draw stop ok := by
  funext tape
  show (drawWith stop ok id).run tape = (draw stop ok).run tape
  rcases h : (draw stop ok).run tape with ⟨r, rest⟩
  cases r with
  | ok x => exact run_bind_of_ok h
  | error e => exact run_bind_of_error h

theorem Consumes.draw (ok : Int → Bool) : Consumes (Draws.draw stop ok) := by
  rw [← drawWith_id]
  exact Consumes.drawWith ok id

theorem run_doWhile_draw_iff {ok again : Int → Bool} {tape rest : List Int} {x : Int} :
    (Draws.doWhile stop (Draws.draw stop ok) again).run tape = (.ok x, rest) ↔
      ∃ pre, tape = pre ++ x :: rest ∧ (∀ y ∈ pre, ok y = true ∧ again y = true) ∧
        ok x = true ∧ again x = false := by
  rw [← drawWith_id, run_doWhile_drawWith_iff]
  constructor
  · rintro ⟨pre, y, htape, hpre, hok, rfl, hag⟩
    exact ⟨pre, htape, hpre, hok, hag⟩
  · rintro ⟨pre, htape, hpre, hok, hag⟩
    exact ⟨pre, x, htape, hpre, hok, rfl, hag⟩

/-! ## A loop in a loop -/

/-- The inner loop's rejected draws, each followed by one that the outer loop
rejects, are draws that one of the two rejects. -/
theorem rejected_of_rejections {ok again again' : Int → Bool} {tape mid : List Int}
    (h : Rejections (Draws.doWhile stop (Draws.draw stop ok) again) again' tape mid) :
    ∃ pre, tape = pre ++ mid ∧ ∀ x ∈ pre, ok x = true ∧ (again x = true ∨ again' x = true) := by
  induction h using Relation.ReflTransGen.head_induction_on with
  | refl => exact ⟨[], rfl, by simp⟩
  | head hstep _ ih =>
    obtain ⟨x, hx, hag⟩ := hstep
    obtain ⟨zs, rfl, hzs, hok, -⟩ := run_doWhile_draw_iff.mp hx
    obtain ⟨pre, rfl, hpre⟩ := ih
    refine ⟨zs ++ x :: pre, by simp, ?_⟩
    intro y hy
    rcases List.mem_append.mp hy with hy | hy
    · exact ⟨(hzs y hy).1, Or.inl (hzs y hy).2⟩
    rcases List.mem_cons.mp hy with rfl | hy
    · exact ⟨hok, Or.inr hag⟩
    · exact hpre y hy

/-- `zs` are the draws the inner loop has rejected so far. -/
theorem rejections_of_rejected {ok again again' : Int → Bool} {x : Int} {rest : List Int}
    (hx : ok x = true) (hxa : again x = false) (pre zs : List Int)
    (hzs : ∀ y ∈ zs, ok y = true ∧ again y = true)
    (hpre : ∀ y ∈ pre, ok y = true ∧ (again y = true ∨ again' y = true)) :
    ∃ mid, Rejections (Draws.doWhile stop (Draws.draw stop ok) again) again' (zs ++ (pre ++ x :: rest)) mid ∧
      (Draws.doWhile stop (Draws.draw stop ok) again).run mid = (.ok x, rest) := by
  induction pre generalizing zs with
  | nil => exact ⟨_, Relation.ReflTransGen.refl, run_doWhile_draw_iff.mpr ⟨zs, rfl, hzs, hx, hxa⟩⟩
  | cons y pre ih =>
    obtain ⟨⟨hok, hy⟩, hpre⟩ := List.forall_mem_cons.mp hpre
    cases hag : again y with
    | true =>
      obtain ⟨mid, hmid, hrun⟩ := ih (zs ++ [y]) (by
        intro z hz
        rcases List.mem_append.mp hz with hz | hz
        · exact hzs z hz
        · rw [List.mem_singleton.mp hz]
          exact ⟨hok, hag⟩) hpre
      rw [List.append_assoc] at hmid
      exact ⟨mid, hmid, hrun⟩
    | false =>
      -- the inner loop ends with `y`, and the outer one rejects it
      have hag' : again' y = true := hy.resolve_left (by simp [hag])
      obtain ⟨mid, hmid, hrun⟩ := ih [] (by simp) hpre
      exact ⟨mid, Relation.ReflTransGen.head
        ⟨y, run_doWhile_draw_iff.mpr ⟨zs, rfl, hzs, hok, hag⟩, hag'⟩ hmid, hrun⟩

/-- **Two nested rejection loops are one**, which rejects what either rejects. -/
theorem run_doWhile_doWhile_iff {ok again again' : Int → Bool} {tape rest : List Int} {x : Int} :
    (Draws.doWhile stop (Draws.doWhile stop (Draws.draw stop ok) again) again').run tape = (.ok x, rest) ↔
      ∃ pre, tape = pre ++ x :: rest ∧ (∀ y ∈ pre, ok y = true ∧ (again y = true ∨ again' y = true)) ∧
        ok x = true ∧ again x = false ∧ again' x = false := by
  rw [run_doWhile_eq_ok_iff (Consumes.draw ok).doWhile]
  constructor
  · rintro ⟨mid, hrej, hrun, hag'⟩
    obtain ⟨pre, rfl, hpre⟩ := rejected_of_rejections hrej
    obtain ⟨zs, rfl, hzs, hok, hag⟩ := run_doWhile_draw_iff.mp hrun
    refine ⟨pre ++ zs, by simp, ?_, hok, hag, hag'⟩
    intro y hy
    rcases List.mem_append.mp hy with hy | hy
    · exact hpre y hy
    · exact ⟨(hzs y hy).1, Or.inl (hzs y hy).2⟩
  · rintro ⟨pre, rfl, hpre, hok, hag, hag'⟩
    obtain ⟨mid, hrej, hrun⟩ := rejections_of_rejected hok hag pre [] (by simp) hpre
    exact ⟨mid, hrej, hrun, hag'⟩

end Draws
