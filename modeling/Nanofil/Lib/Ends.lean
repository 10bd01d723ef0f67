import Mathlib.Data.List.Forall2

/-! Fallible computations that fail only as allowed: a rule for each way that one is built. -/
namespace Results

universe u v

variable {ε : Type u} {α β : Type v}

/-- The computation ends with a result that satisfies `Q`, or fails as `E` allows. -/
def Ends (E : ε → Prop) (Q : α → Prop) : Except ε α → Prop
  | .ok x => Q x
  | .error e => E e

variable {E E' : ε → Prop} {P Q : α → Prop} {R : β → Prop}

theorem Ends.ok {x : α} (holds : Q x) : Ends E Q (.ok x) := holds

theorem Ends.pure {x : α} (holds : Q x) : Ends E Q (Pure.pure x : Except ε α) := holds

theorem Ends.error {e : ε} (allowed : E e) : Ends E Q (.error e : Except ε α) := allowed

/-- What follows a computation may rely on what its result satisfies. -/
theorem Ends.bind {x : Except ε α} {f : α → Except ε β} (first : Ends E Q x)
    (rest : ∀ a, Q a → Ends E R (f a)) : Ends E R (x >>= f) := by
  cases x with
  | error e => exact first
  | ok a => exact rest a first

theorem Ends.mono {x : Except ε α} (ends : Ends E P x) (weaker : ∀ a, P a → Q a) : Ends E Q x := by
  cases x with
  | error e => exact ends
  | ok a => exact weaker a ends

theorem Ends.result {x : Except ε α} (ends : Ends E Q x) {a : α} (done : x = .ok a) : Q a := by
  rw [done] at ends
  exact ends

theorem Ends.failure {x : Except ε α} (ends : Ends E Q x) {e : ε} (failed : x = .error e) : E e := by
  rw [failed] at ends
  exact ends

/-- Each element's result is related to it. -/
theorem Ends.mapM {f : α → Except ε β} {S : α → β → Prop} {as : List α} (each : ∀ a ∈ as, Ends E (S a) (f a)) :
    Ends E (List.Forall₂ S as) (as.mapM f) := by
  induction as with
  | nil => exact .nil
  | cons a as ih =>
    rw [List.mapM_cons]
    exact (each a List.mem_cons_self).bind fun b related =>
      (ih fun a' h => each a' (List.mem_cons_of_mem _ h)).bind fun bs all => Ends.pure (.cons related all)

/-- A fold keeps what its steps keep, given the elements behind it. -/
theorem Ends.foldlM {σ : Type v} {f : σ → α → Except ε σ} {P : List α → σ → Prop} {as : List α}
    (step : ∀ seen a s, a ∈ as → P seen s → Ends E (P (a :: seen)) (f s a)) {s : σ} (start : P [] s) :
    Ends E (P as.reverse) (as.foldlM f s) := by
  have folded : ∀ {seen : List α} {s : σ}, P seen s → Ends E (P (as.reverse ++ seen)) (as.foldlM f s) := by
    induction as with
    | nil => exact fun start => start
    | cons a as ih =>
      intro seen s start
      rw [List.foldlM_cons, List.reverse_cons, List.append_assoc]
      exact (step seen a s List.mem_cons_self start).bind fun s' next =>
        ih (fun seen a' s h => step seen a' s (List.mem_cons_of_mem _ h)) next
  have all := folded start
  rwa [List.append_nil] at all

/-- A fold that succeeds keeps what each of its steps keeps. -/
theorem foldlM_keeps {σ : Type v} {f : σ → α → Except ε σ} {I : σ → Prop} {as : List α}
    (step : ∀ a ∈ as, ∀ s s', I s → f s a = .ok s' → I s') {s s' : σ} (start : I s) (done : as.foldlM f s = .ok s') : I s' :=
  (Ends.foldlM (E := fun _ => True) (P := fun _ => I) (fun _ a s h holds => by
    cases next : f s a with
    | error e => exact trivial
    | ok s1 => exact step a h s s1 holds next) start).result done

/-- What holds of the result, beside that it is the result. -/
theorem Ends.done {x : Except ε α} (ends : Ends E Q x) : Ends E (fun a => Q a ∧ x = .ok a) x := by
  cases x with
  | error e => exact ends
  | ok a => exact ⟨ends, rfl⟩

theorem ends_ok {x : Except ε α} {a : α} (done : x = .ok a) (holds : Q a) : Ends E Q x := by
  rw [done]
  exact holds

end Results
