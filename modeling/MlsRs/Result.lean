import Mathlib.Data.List.Forall2

/-!
# Rust results as `Except`

Fallible functions of the source return `Result<T, E>`, modelled as
`Except E T`; `?` is `bind`.  The lemmas here take a successful computation
apart into its successful steps, so that callers never unfold `bind`.
-/

namespace MlsRs

variable {ε α β : Type}

theorem bind_eq_ok {x : Except ε α} {f : α → Except ε β} {b : β} :
    x >>= f = .ok b ↔ ∃ a, x = .ok a ∧ f a = .ok b := by
  cases x <;> simp [bind, Except.bind]

@[simp] theorem pure_eq_ok_self (a : α) : (pure a : Except ε α) = .ok a := rfl

theorem pure_eq_ok {a b : α} : (pure a : Except ε α) = .ok b ↔ a = b := by
  simp [pure, Except.pure]

@[simp] theorem ok_bind {a : α} {f : α → Except ε β} : (Except.ok a >>= f) = f a := rfl

@[simp] theorem error_bind {e : ε} {f : α → Except ε β} :
    (Except.error e >>= f) = Except.error e := rfl

@[simp] theorem map_ok {a : α} {f : α → β} : Except.map f (.ok a : Except ε α) = .ok (f a) := rfl

@[simp] theorem map_error {e : ε} {f : α → β} :
    Except.map f (.error e : Except ε α) = .error e := rfl

/-- `mapM` succeeds exactly when every entry succeeds, with the results in order. -/
theorem mapM_eq_ok {f : α → Except ε β} {entries : List α} {results : List β} :
    entries.mapM f = .ok results ↔ List.Forall₂ (fun a b => f a = .ok b) entries results := by
  induction entries generalizing results with
  | nil =>
      rw [List.mapM_nil, List.forall₂_nil_left_iff]
      exact ⟨fun h => (Except.ok.inj h).symm, fun h => h ▸ rfl⟩
  | cons entry entries ih =>
      rw [List.mapM_cons, bind_eq_ok]
      cases results with
      | nil => simp [bind_eq_ok]
      | cons result results =>
          simp only [bind_eq_ok, pure_eq_ok, List.forall₂_cons, ih, List.cons.injEq]
          constructor
          · rintro ⟨a, ha, rest, hrest, rfl, rfl⟩
            exact ⟨ha, hrest⟩
          · rintro ⟨ha, hrest⟩
            exact ⟨_, ha, _, hrest, rfl, rfl⟩

theorem map_eq_ok {x : Except ε α} {f : α → β} {b : β} :
    x.map f = .ok b ↔ ∃ a, x = .ok a ∧ f a = b := by
  cases x <;> simp

theorem mapM_reverse_eq_ok {f : α → Except ε β} {entries : List α} {results : List β} :
    entries.reverse.mapM f = .ok results ↔ entries.mapM f = .ok results.reverse := by
  rw [mapM_eq_ok, mapM_eq_ok, ← List.forall₂_reverse_iff, List.reverse_reverse]

/-- `mapM` succeeds when every entry does. -/
theorem mapM_ok_of_forall {f : α → Except ε β} {entries : List α}
    (succeeds : ∀ a ∈ entries, ∃ b, f a = .ok b) : ∃ results, entries.mapM f = .ok results := by
  induction entries with
  | nil => exact ⟨[], rfl⟩
  | cons entry entries ih =>
      obtain ⟨result, first⟩ := succeeds entry (List.mem_cons_self _ _)
      obtain ⟨results, rest⟩ := ih fun a member => succeeds a (List.mem_cons_of_mem _ member)
      exact ⟨result :: results, by rw [List.mapM_cons, first, rest]; rfl⟩

theorem mapM_congr {f g : α → Except ε β} {entries : List α}
    (agree : ∀ a ∈ entries, f a = g a) : entries.mapM f = entries.mapM g := by
  induction entries with
  | nil => rfl
  | cons entry entries ih =>
      simp only [List.mapM_cons, agree entry (List.mem_cons_self _ _),
        ih fun a member => agree a (List.mem_cons_of_mem _ member)]

/-- `Result::and`: the first error, else the second result. -/
def resultAnd (first second : Except ε Unit) : Except ε Unit :=
  match first with
  | .ok () => second
  | .error e => .error e

/-- `condition.then_some(()).ok_or(error)`. -/
def require (condition : Bool) (error : ε) : Except ε Unit :=
  if condition then .ok () else .error error

@[simp] theorem resultAnd_eq_ok {first second : Except ε Unit} :
    resultAnd first second = .ok () ↔ first = .ok () ∧ second = .ok () := by
  cases first <;> simp [resultAnd]

@[simp] theorem require_eq_ok {condition : Bool} {error : ε} :
    require condition error = .ok () ↔ condition = true := by
  cases condition <;> simp [require]

@[simp] theorem require_isOk (condition : Bool) (error : ε) :
    (require condition error).isOk = condition := by
  cases condition <;> rfl

theorem isOk_eq_true_iff {result : Except ε Unit} : result.isOk = true ↔ result = .ok () := by
  cases result <;> simp [Except.isOk, Except.toBool]

end MlsRs
