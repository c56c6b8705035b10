import ArmEmulator.Device

/-!
# Sequencing accesses

An access that was put together from parts succeeded because every part did, and
failed because the first failing part did.

Main results:

- Theorems {lit}`Access.bind_eq_ok_iff` and {lit}`Access.bind_eq_error_iff`: what
  the outcome of a sequence tells about its parts.
- Theorem {lit}`Access.mapM_eq_error_iff`: the same for a list of accesses.
- Theorem {lit}`Access.Keeps.bind`: what both parts keep the sequence keeps.
-/

namespace ArmEmulator.Access

variable {σ α β : Type} {x : Access σ α} {f : α → Access σ β} {s s' : σ}

/-- The second part runs on what the first one left. -/
theorem bind_of_eq_ok {a : α} (h : x s = .ok a s') : (x >>= f) s = f a s' := by
  show EStateM.bind x f s = f a s'
  rw [EStateM.bind, h]

/-- A fault of the first part is the fault of the sequence. -/
theorem bind_of_eq_error {fault : Fault} (h : x s = .error fault s') :
    (x >>= f) s = .error fault s' := by
  show EStateM.bind x f s = .error fault s'
  rw [EStateM.bind, h]

/-- First parts that do the same can be exchanged. -/
theorem bind_congr_left {y : Access σ α} (h : x s = y s) (f : α → Access σ β) :
    (x >>= f) s = (y >>= f) s := by
  show EStateM.bind x f s = EStateM.bind y f s
  rw [EStateM.bind, EStateM.bind, h]

/-- A sequence succeeds exactly when both parts do. -/
theorem bind_eq_ok_iff {b : β} :
    (x >>= f) s = .ok b s' ↔ ∃ a between, x s = .ok a between ∧ f a between = .ok b s' := by
  constructor
  · intro h
    cases hx : x s with
    | ok a between =>
        rw [bind_of_eq_ok hx] at h
        exact ⟨a, between, rfl, h⟩
    | error fault between =>
        rw [bind_of_eq_error hx] at h
        cases h
  · rintro ⟨a, between, hx, hf⟩
    rw [bind_of_eq_ok hx, hf]

/-- A sequence faults exactly when its first part does, or the second part does
after it. -/
theorem bind_eq_error_iff {fault : Fault} :
    (x >>= f) s = .error fault s' ↔
      x s = .error fault s' ∨
        ∃ a between, x s = .ok a between ∧ f a between = .error fault s' := by
  constructor
  · intro h
    cases hx : x s with
    | ok a between =>
        rw [bind_of_eq_ok hx] at h
        exact .inr ⟨a, between, rfl, h⟩
    | error fault' between =>
        rw [bind_of_eq_error hx] at h
        cases h
        exact .inl rfl
  · rintro (hx | ⟨a, between, hx, hf⟩)
    · exact bind_of_eq_error hx
    · rw [bind_of_eq_ok hx, hf]

@[simp]
theorem pure_eq_ok_iff {a b : α} :
    (pure a : Access σ α) s = .ok b s' ↔ a = b ∧ s = s' := by
  show EStateM.Result.ok a s = .ok b s' ↔ _
  simp

/-- An access whose result is changed succeeds exactly when the access does. -/
theorem bind_pure_eq_ok_iff {g : α → β} {b : β} :
    (x >>= fun a => pure (g a)) s = .ok b s' ↔ ∃ a, x s = .ok a s' ∧ g a = b := by
  constructor
  · intro h
    obtain ⟨a, between, hx, h⟩ := bind_eq_ok_iff.1 h
    obtain ⟨hb, rfl⟩ := pure_eq_ok_iff.1 h
    exact ⟨a, hx, hb⟩
  · rintro ⟨a, hx, rfl⟩
    exact bind_of_eq_ok hx

/-- An access whose result is changed faults exactly when the access does. -/
theorem bind_pure_eq_error_iff {g : α → β} {fault : Fault} :
    (x >>= fun a => pure (g a)) s = .error fault s' ↔ x s = .error fault s' := by
  constructor
  · intro h
    rcases bind_eq_error_iff.1 h with hx | ⟨a, between, -, h⟩
    · exact hx
    · cases h
  · exact bind_of_eq_error

/-- Accesses made one after another succeed exactly when the first one does and the others
do after it. -/
theorem mapM_cons_eq_ok_iff {γ : Type} {access : γ → Access σ α} {c : γ} {list : List γ}
    {answers : List α} :
    (c :: list).mapM access s = .ok answers s' ↔
      ∃ a between tail, access c s = .ok a between ∧ list.mapM access between = .ok tail s' ∧
        a :: tail = answers := by
  rw [List.mapM_cons, bind_eq_ok_iff]
  simp only [bind_pure_eq_ok_iff, exists_and_left]

/-- Accesses made one after another fault exactly when all before one of them succeed
and that one faults. -/
theorem mapM_eq_error_iff {γ : Type} {access : γ → Access σ α} {list : List γ} {fault : Fault} :
    list.mapM access s = .error fault s' ↔
      ∃ (k : Nat) (c : γ) (answers : List α) (between : σ), list[k]? = some c ∧
        (list.take k).mapM access s = .ok answers between ∧ access c between = .error fault s' := by
  induction list generalizing s with
  | nil =>
      refine iff_of_false nofun ?_
      rintro ⟨k, c, -, -, hc, -⟩
      cases hc
  | cons c list ih =>
      rw [List.mapM_cons, bind_eq_error_iff]
      constructor
      · rintro (hc | ⟨a, between, hc, hrest⟩)
        · exact ⟨0, c, [], s, rfl, rfl, hc⟩
        · obtain ⟨k, d, answers, last, hd, hserved, hfault⟩ := ih.1 (bind_pure_eq_error_iff.1 hrest)
          refine ⟨k + 1, d, a :: answers, last, hd, ?_, hfault⟩
          rw [List.take_succ_cons, List.mapM_cons, bind_of_eq_ok hc]
          exact bind_pure_eq_ok_iff.2 ⟨answers, hserved, rfl⟩
      · rintro ⟨k, d, answers, last, hd, hserved, hfault⟩
        cases k with
        | zero =>
            cases hd
            obtain ⟨-, rfl⟩ := pure_eq_ok_iff.1 hserved
            exact .inl hfault
        | succ k =>
            rw [List.take_succ_cons, List.mapM_cons] at hserved
            obtain ⟨a, between, hc, hrest⟩ := bind_eq_ok_iff.1 hserved
            obtain ⟨tail, htail, -⟩ := bind_pure_eq_ok_iff.1 hrest
            exact .inr ⟨a, between, hc, bind_pure_eq_error_iff.2
              (ih.2 ⟨k, d, tail, last, hd, htail, hfault⟩)⟩

/-! ## What accesses keep -/

variable {τ : Type} {part : σ → τ}

/-- The state that an access leaves, whether it succeeds or faults. -/
def after (x : Access σ α) (s : σ) : σ :=
  match x s with
  | .ok _ s' => s'
  | .error _ s' => s'

/-- Whatever becomes of the access a part of the state is as before. -/
def Keeps (part : σ → τ) (x : Access σ α) : Prop :=
  ∀ s, part (x.after s) = part s

namespace Keeps

/-- What an access keeps is as before when it succeeds. -/
theorem of_ok (hx : Keeps part x) {a : α} (h : x s = .ok a s') : part s' = part s := by
  have hafter := hx s
  rw [after, h] at hafter
  exact hafter

theorem of_error (hx : Keeps part x) {fault : Fault} (h : x s = .error fault s') :
    part s' = part s := by
  have hafter := hx s
  rw [after, h] at hafter
  exact hafter

theorem pure (part : σ → τ) (a : α) : Keeps part (pure a : Access σ α) :=
  fun _ => rfl

/-- A sequence keeps what both parts keep. -/
theorem bind (hx : Keeps part x) (hf : ∀ a, Keeps part (f a)) : Keeps part (x >>= f) := by
  intro s
  unfold after
  cases hfirst : x s with
  | ok a between =>
      rw [bind_of_eq_ok hfirst, ← hx.of_ok hfirst]
      exact hf a between
  | error fault between =>
      rw [bind_of_eq_error hfirst]
      exact hx.of_error hfirst

theorem map (hx : Keeps part x) (g : α → β) : Keeps part (g <$> x) := by
  rw [← bind_pure_comp]
  exact hx.bind fun a => pure part (g a)

end Keeps

end ArmEmulator.Access
