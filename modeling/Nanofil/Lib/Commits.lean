import Mathlib.Data.List.Chain

/-! Computations over a store that return or throw, with the states they commit on the way,
and rules for what every commit and the end of one satisfy. -/
namespace Commits

/-- From a state, the states that are committed, in order, and what is returned or thrown. -/
def Tx (σ ε α : Type) := σ → List σ × Except ε α

variable {σ ε α β : Type}

/-- The state after some commits. -/
def final (s : σ) : List σ → σ
  | [] => s
  | t :: ts => final t ts

@[simp] theorem final_nil (s : σ) : final s [] = s := rfl

@[simp] theorem final_cons (s t : σ) (ts : List σ) : final s (t :: ts) = final t ts := rfl

theorem final_append (s : σ) (ts us : List σ) : final s (ts ++ us) = final (final s ts) us := by
  induction ts generalizing s with
  | nil => rfl
  | cons t ts ih => exact ih t

namespace Tx

def ret (a : α) : Tx σ ε α := fun _ => ([], .ok a)

def andThen (m : Tx σ ε α) (f : α → Tx σ ε β) : Tx σ ε β := fun s =>
  match m s with
  | (ts, .ok a) => let r := f a (final s ts); (ts ++ r.1, r.2)
  | (ts, .error e) => (ts, .error e)

instance : Monad (Tx σ ε) where
  pure := ret
  bind := andThen

def throw (e : ε) : Tx σ ε α := fun _ => ([], .error e)

def get : Tx σ ε σ := fun s => ([], .ok s)

def commit (f : σ → σ) : Tx σ ε Unit := fun s => ([f s], .ok ())

/-- One commit of all that the body does, none when it throws. -/
def transaction (body : σ → Except ε (σ × α)) : Tx σ ε α := fun s =>
  match body s with
  | .ok (t, a) => ([t], .ok a)
  | .error e => ([], .error e)

def liftExcept : Except ε α → Tx σ ε α
  | .ok a => ret a
  | .error e => throw e

/-- Runs a step for each element in turn. -/
def each (f : α → Tx σ ε Unit) : List α → Tx σ ε Unit
  | [] => ret ()
  | a :: as => andThen (f a) (fun _ => each f as)

/-- The state in which a computation ends. -/
def last (m : Tx σ ε α) (s : σ) : σ := final s (m s).1

end Tx

open Tx

/-- From a state of `P`, every commit is as `R` allows, and the end as `Q` or `E` does. -/
def Holds (R : σ → σ → Prop) (P : σ → Prop) (m : Tx σ ε α) (Q : α → σ → Prop) (E : ε → σ → Prop) : Prop :=
  ∀ s, P s → List.IsChain R (s :: (m s).1) ∧
    match (m s).2 with
    | .ok a => Q a (m.last s)
    | .error e => E e (m.last s)

theorem chain_append {R : σ → σ → Prop} {s : σ} {ts us : List σ} (first : List.IsChain R (s :: ts))
    (rest : List.IsChain R (final s ts :: us)) : List.IsChain R (s :: (ts ++ us)) := by
  induction ts generalizing s with
  | nil => exact rest
  | cons t ts ih =>
    rw [List.isChain_cons_cons] at first
    exact List.isChain_cons_cons.2 ⟨first.1, ih first.2 rest⟩

variable {R R' : σ → σ → Prop} {P P' : σ → Prop} {m : Tx σ ε α} {Q Q' : α → σ → Prop} {E E' : ε → σ → Prop}

theorem Holds.ret {a : α} (holds : ∀ s, P s → Q a s) : Holds R P (ret a) Q E :=
  fun s pre => ⟨.singleton s, holds s pre⟩

theorem Holds.throw {e : ε} (holds : ∀ s, P s → E e s) : Holds R P (throw e : Tx σ ε α) Q E :=
  fun s pre => ⟨.singleton s, holds s pre⟩

theorem Holds.commit {f : σ → σ} {Q : Unit → σ → Prop} (allowed : ∀ s, P s → R s (f s)) (holds : ∀ s, P s → Q () (f s)) :
    Holds R P (commit f : Tx σ ε Unit) Q E :=
  fun s pre => ⟨List.isChain_cons_cons.2 ⟨allowed s pre, .singleton _⟩, holds s pre⟩

theorem Holds.transaction {body : σ → Except ε (σ × α)}
    (done : ∀ s t a, P s → body s = .ok (t, a) → R s t ∧ Q a t)
    (failed : ∀ s e, P s → body s = .error e → E e s) : Holds R P (transaction body) Q E := by
  intro s pre
  cases ran : body s with
  | error e =>
    simp only [Tx.transaction, Tx.last, ran, final_nil]
    exact ⟨.singleton s, failed s e pre ran⟩
  | ok r =>
    obtain ⟨t, a⟩ := r
    obtain ⟨allowed, holds⟩ := done s t a pre ran
    simp only [Tx.transaction, Tx.last, ran, final_cons, final_nil]
    exact ⟨List.isChain_cons_cons.2 ⟨allowed, .singleton t⟩, holds⟩

theorem Holds.andThen {f : α → Tx σ ε β} {S : β → σ → Prop} (first : Holds R P m Q E)
    (next : ∀ a, Holds R (Q a) (f a) S E) : Holds R P (andThen m f) S E := by
  intro s pre
  obtain ⟨chain, ends⟩ := first s pre
  cases ran : m s with
  | mk ts r =>
    simp only [Tx.last, ran] at chain ends
    cases r with
    | error e =>
      simp only [Tx.andThen, Tx.last, ran]
      exact ⟨chain, ends⟩
    | ok a =>
      obtain ⟨chain', ends'⟩ := next a (final s ts) ends
      simp only [Tx.andThen, Tx.last, ran, final_append]
      exact ⟨chain_append chain chain', ends'⟩

theorem Holds.bind {f : α → Tx σ ε β} {S : β → σ → Prop} (first : Holds R P m Q E)
    (next : ∀ a, Holds R (Q a) (f a) S E) : Holds R P (m >>= f) S E := first.andThen next

theorem Holds.pure {a : α} (holds : ∀ s, P s → Q a s) : Holds R P (Pure.pure a : Tx σ ε α) Q E := .ret holds

/-- A read leaves the state, and what follows may know it. -/
theorem Holds.read {f : σ → Tx σ ε β} {S : β → σ → Prop}
    (next : ∀ s, P s → Holds R (fun t => t = s) (f s) S E) : Holds R P (Tx.get >>= f) S E := by
  intro s pre
  exact next s pre s rfl

theorem Holds.liftExcept {x : Except ε α} (done : ∀ a, x = .ok a → ∀ s, P s → Q a s)
    (failed : ∀ e, x = .error e → ∀ s, P s → E e s) : Holds R P (liftExcept x) Q E := by
  cases x with
  | ok a => exact .ret (done a rfl)
  | error e => exact .throw (failed e rfl)

theorem Holds.mono (holds : Holds R P m Q E) (allowed : ∀ s t, R s t → R' s t) (pre : ∀ s, P' s → P s)
    (post : ∀ a s, Q a s → Q' a s) (fails : ∀ e s, E e s → E' e s) : Holds R' P' m Q' E' := by
  intro s start
  obtain ⟨chain, ends⟩ := holds s (pre s start)
  refine ⟨chain.imp fun _ _ => allowed _ _, ?_⟩
  generalize (m s).2 = r at ends
  cases r with
  | ok a => exact post a _ ends
  | error e => exact fails e _ ends

/-- From one state, where what holds of such states is known. -/
theorem Holds.from_ {s : σ} (holds : Holds R P m Q E) (pre : P s) : Holds R (fun t => t = s) m Q E :=
  holds.mono (fun _ _ h => h) (fun _ same => same ▸ pre) (fun _ _ h => h) fun _ _ h => h

/-- From one state, the end is known. -/
theorem Holds.last_ {s : σ} (holds : Holds R P m Q E) (pre : P s) :
    Holds R (fun t => t = s) m (fun a t => Q a t ∧ t = m.last s) E := by
  rintro t rfl
  obtain ⟨chain, ends⟩ := holds t pre
  refine ⟨chain, ?_⟩
  generalize (m t).2 = r at ends
  cases r with
  | ok a => exact ⟨ends, rfl⟩
  | error e => exact ends

/-- A loop keeps what each round keeps. -/
theorem Holds.each {f : α → Tx σ ε Unit} {as : List α}
    (round : ∀ a ∈ as, Holds R P (f a) (fun _ => P) E) : Holds R P (each f as) (fun _ => P) E := by
  induction as with
  | nil => exact .ret fun _ pre => pre
  | cons a as ih =>
    exact (round a List.mem_cons_self).andThen fun _ => ih fun b h => round b (List.mem_cons_of_mem _ h)

/-- A loop whose rounds may rely on what remains of it. -/
theorem Holds.eachRest {f : α → Tx σ ε Unit} {P : List α → σ → Prop}
    (round : ∀ a as, Holds R (P (a :: as)) (f a) (fun _ => P as) E) : ∀ as, Holds R (P as) (Tx.each f as) (fun _ => P []) E := by
  intro as
  induction as with
  | nil => exact .ret fun _ pre => pre
  | cons a as ih => exact (round a as).andThen fun _ => ih

/-- What every commit keeps holds of every state committed. -/
theorem chain_keeps {I : σ → Prop} {s : σ} {ts : List σ} (chain : List.IsChain R (s :: ts))
    (kept : ∀ a b, R a b → I a → I b) (start : I s) : ∀ t ∈ ts, I t := by
  induction ts generalizing s with
  | nil => intro t mem; cases mem
  | cons u ts ih =>
    rw [List.isChain_cons_cons] at chain
    have here := kept s u chain.1 start
    intro t mem
    rcases List.mem_cons.1 mem with rfl | mem
    · exact here
    · exact ih chain.2 here t mem

theorem final_mem (s : σ) (ts : List σ) : final s ts = s ∨ final s ts ∈ ts := by
  induction ts generalizing s with
  | nil => exact .inl rfl
  | cons t ts ih =>
    right
    rcases ih t with same | mem
    · simp [same]
    · exact List.mem_cons_of_mem _ mem

/-- What every commit keeps holds at the end as it does at the start. -/
theorem Holds.keeps {I : σ → Prop} (kept : ∀ a b, R a b → I a → I b) (holds : Holds R P m Q E) :
    Holds R (fun s => P s ∧ I s) m (fun a s => Q a s ∧ I s) (fun e s => E e s ∧ I s) := by
  rintro s ⟨pre, start⟩
  obtain ⟨chain, ends⟩ := holds s pre
  have last : I (m.last s) := by
    rcases final_mem s (m s).1 with same | mem
    · rw [Tx.last, same]
      exact start
    · exact chain_keeps chain kept start _ mem
  refine ⟨chain, ?_⟩
  generalize (m s).2 = r at ends
  cases r with
  | ok a => exact ⟨ends, last⟩
  | error e => exact ⟨ends, last⟩

/-- Two facts of one computation. -/
theorem Holds.and (holds : Holds R P m Q E) (holds' : Holds R' P' m Q' E') :
    Holds R (fun s => P s ∧ P' s) m (fun a s => Q a s ∧ Q' a s) (fun e s => E e s ∧ E' e s) := by
  rintro s ⟨pre, pre'⟩
  obtain ⟨chain, ends⟩ := holds s pre
  obtain ⟨-, ends'⟩ := holds' s pre'
  refine ⟨chain, ?_⟩
  generalize (m s).2 = r at ends ends'
  cases r with
  | ok a => exact ⟨ends, ends'⟩
  | error e => exact ⟨ends, ends'⟩

/-- A computation whose errors satisfy nothing returns. -/
theorem Holds.returns {s : σ} (holds : Holds R P m Q (fun _ _ => False)) (pre : P s) : ∃ a, (m s).2 = .ok a ∧ Q a (m.last s) := by
  obtain ⟨-, ends⟩ := holds s pre
  cases done : (m s).2 with
  | ok a => exact ⟨a, rfl, by simpa only [done] using ends⟩
  | error e => simp only [done] at ends

end Commits
