import Mathlib.Data.List.Forall2

/-! Runs of fallible computations, taken apart. -/
namespace Results

universe u v

variable {ε : Type u} {α : Type v} {β : Type v}

@[simp] theorem bind_ok {x : Except ε α} {f : α → Except ε β} {y : β} :
    (x >>= f) = .ok y ↔ ∃ a, x = .ok a ∧ f a = .ok y := by
  cases x <;> simp [bind, Except.bind]

@[simp] theorem pure_ok {x y : α} : (pure x : Except ε α) = .ok y ↔ x = y := by
  simp [pure, Except.pure]

theorem bind_found {x : Option α} {f : α → Option β} {y : β} : (x >>= f) = some y ↔ ∃ a, x = some a ∧ f a = some y :=
  Option.bind_eq_some_iff

theorem pure_found {x y : α} : (pure x : Option α) = some y ↔ x = y := Option.some_inj

theorem mapM_map {γ : Type v} {f : α → Except ε β} {g : α → γ} {g' : β → γ} : ∀ {as : List α} {bs : List β}, as.mapM f = .ok bs →
    (∀ a ∈ as, ∀ b, f a = .ok b → g' b = g a) → bs.map g' = as.map g := by
  intro as
  induction as with
  | nil =>
    intro bs done _
    cases done
    rfl
  | cons a as ih =>
    intro bs done same
    simp only [List.mapM_cons, bind_ok, pure_ok] at done
    obtain ⟨b, one, bs', rest, rfl⟩ := done
    rw [List.map_cons, List.map_cons, same a List.mem_cons_self b one, ih rest fun a h => same a (List.mem_cons_of_mem _ h)]

/-- Lists in one list are taken each on its own. -/
theorem mapM_flatten {f : α → Except ε β} : ∀ {ass : List (List α)} {bs : List β}, ass.flatten.mapM f = .ok bs →
    ∃ bss : List (List β), bs = bss.flatten ∧ List.Forall₂ (fun as bs => as.mapM f = .ok bs) ass bss := by
  intro ass
  induction ass with
  | nil =>
    intro bs done
    cases done
    exact ⟨[], rfl, .nil⟩
  | cons as ass ih =>
    intro bs done
    simp only [List.flatten_cons, List.mapM_append, bind_ok, pure_ok] at done
    obtain ⟨bs1, here, bs2, rest, rfl⟩ := done
    obtain ⟨bss, rfl, each⟩ := ih rest
    exact ⟨bs1 :: bss, rfl, .cons here each⟩

/-! ### Fuel -/

/-- What one computation gives, the other gives with more left, unless the first was spent. -/
def Longer (more : α → α) (spent : α → Prop) (x y : Except ε α) : Prop := ∀ r, x = .ok r → ¬spent r → y = .ok (more r)

section
variable {more : α → α} {spent : α → Prop} {more' : β → β} {spent' : β → Prop} {r : α}

theorem Longer.pure : Longer more spent (pure r : Except ε α) (pure (more r)) := fun _ done _ => by rw [pure_ok.1 done]; rfl

theorem Longer.error {e : ε} {y : Except ε α} : Longer more spent (.error e) y := fun _ done _ => by cases done

theorem Longer.bind {x : Except ε α} {f g : α → Except ε β} (each : ∀ a, Longer more' spent' (f a) (g a)) :
    Longer more' spent' (x >>= f) (x >>= g) := by
  cases x with
  | error e => exact .error
  | ok a => exact each a

/-- One computation after another, where one that is spent leaves nothing for the next. -/
theorem Longer.through {x y : Except ε α} {f g : α → Except ε β} (first : Longer more spent x y)
    (ends : ∀ r, spent r → ∀ b, f r = .ok b → spent' b) (each : ∀ r, ¬spent r → Longer more' spent' (f r) (g (more r))) :
    Longer more' spent' (x >>= f) (y >>= g) := by
  intro b done left
  obtain ⟨r, ran, done⟩ := bind_ok.1 done
  have goes : ¬spent r := fun out => left (ends r out b done)
  rw [first r ran goes]
  exact each r goes b done left

end

end Results
