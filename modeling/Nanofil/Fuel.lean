import Nanofil.Running
import Nanofil.Lib.Results

/-! Fuel only bounds a run: one that ends within some ends alike within more. -/
namespace Nanofil
open Results

variable {k : Nat} {call call' : Call} {prep : Prep} {env : Env} {s : St} {i : Inst} {d : Name}
  {res : CallRes} {args : List Arg} {xs : List Word} {out : Outcome} {r r' : Result}

def St.more (k : Nat) (s : St) : St := { s with fuel := s.fuel + k }

def Result.more (k : Nat) : Result → Result
  | .cont env s => .cont env (s.more k)
  | .stop out s => .stop out (s.more k)

def Result.Spent (r : Result) : Prop := ∃ s, r = .stop .outOfFuel s

/-- What an instruction does with some fuel, and with more. -/
abbrev Outlives (k : Nat) : Except RunError Result → Except RunError Result → Prop := Longer (Result.more k) Result.Spent

/-- What an invocation does with some fuel, and with more. -/
abbrev Outlasts (k : Nat) : Except RunError (Outcome × St) → Except RunError (Outcome × St) → Prop :=
  Longer (fun r => (r.1, r.2.more k)) (·.1 = .outOfFuel)

def Call.Outlasts (k : Nat) (call call' : Call) : Prop := ∀ f xs s, Nanofil.Outlasts k (call f xs s) (call' f xs (s.more k))

/-! ### Instructions -/

theorem res_outlives (res : Res Word) : Outlives k (pure (resResult res d env s)) (pure (resResult res d env (s.more k))) := by
  cases res <;> exact .pure

theorem storeRes_outlives (res : Res Unit) : Outlives k (pure (storeResResult res env s)) (pure (storeResResult res env (s.more k))) := by
  cases res <;> exact .pure

theorem callOutcome_outlives : Outlives k (callOutcomeResult out res env s) (callOutcomeResult out res env (s.more k)) := by
  cases out <;> cases res <;> first
  | exact .pure
  | exact .bind fun _ => .pure
  | exact .error

theorem callOutcome_spent (spent : out = .outOfFuel) (done : callOutcomeResult out res env s = .ok r) : r.Spent := by
  subst spent
  cases done
  exact ⟨s, rfl⟩

theorem outcome_outlives {x y : Except RunError (Outcome × St)} (first : Outlasts k x y) :
    Outlives k (x >>= fun r => callOutcomeResult r.1 res env r.2) (y >>= fun r => callOutcomeResult r.1 res env r.2) :=
  first.through (fun _ spent _ => callOutcome_spent spent) fun _ _ => callOutcome_outlives

theorem localAlloc_outlives (name : Name) (size : Int) :
    Outlives k (localAllocResult prep name size env s) (localAllocResult prep name size env (s.more k)) := by
  simp only [localAllocResult, St.more]
  split
  · split <;> exact .pure
  · exact .error

theorem doomed_more (done : doomedResult prep i env r = .ok r') : doomedResult prep i env (r.more k) = .ok (r'.more k) := by
  unfold doomedResult at done ⊢
  cases r <;> cases doomed : env.doomed <;> simp only [Result.more, doomed] at done ⊢ <;> grind [bind_ok, pure_ok, Result.more]

theorem doomed_spent (spent : r.Spent) (done : doomedResult prep i env r = .ok r') : r'.Spent := by
  obtain ⟨s, rfl⟩ := spent
  cases ahead : aheadInst i <;> simp only [doomedResult, ahead] at done <;> cases done <;> exact ⟨s, rfl⟩

section
variable (calls : call.Outlasts k call')
include calls

theorem convCall_outlives (conv : Conv) (f : Func) :
    Outlives k (convCallResult call conv f xs res env s) (convCallResult call' conv f xs res env (s.more k)) := by
  cases conv with
  | trap why => exact .pure
  | same => exact outcome_outlives (calls f xs s)
  | conv caller callee =>
    refine (calls f xs s).through (fun r spent r' done => ?_) fun r _ => .bind fun out => callOutcome_outlives
    obtain ⟨out, converted, done⟩ := bind_ok.1 done
    rw [spent] at converted
    cases converted
    exact callOutcome_spent rfl done

theorem checkedCall_outlives (check : Res Unit) (cap : Cap) :
    Outlives k (checkedCallResult call prep check cap res args xs env s) (checkedCallResult call' prep check cap res args xs env (s.more k)) := by
  unfold checkedCallResult
  split <;> repeat' first
  | exact .pure
  | exact .error
  | exact .bind fun fc => convCall_outlives calls fc.2 _
  | split

theorem directCall_outlasts (f : Name) :
    Outlasts k (directCallOutcome call prep f res args xs s) (directCallOutcome call' prep f res args xs (s.more k)) := by
  unfold directCallOutcome externalCallOutcome
  split <;> repeat' first
  | exact calls _ xs s
  | exact .pure
  | exact .error
  | exact .bind fun _ => .pure
  | split

/-- Only calls spend fuel within a block. -/
theorem inst_outlives : Outlives k (instResult call prep i env s) (instResult call' prep i env (s.more k)) := by
  unfold instResult
  split <;> repeat' first
  | exact .pure
  | exact .error
  | exact res_outlives _
  | exact storeRes_outlives _
  | exact localAlloc_outlives _ _
  | exact checkedCall_outlives calls _ _
  | exact outcome_outlives (directCall_outlasts calls _)
  | refine .bind fun _ => ?_
  | split

theorem insts_outlive (is : List Inst) :
    Outlives k (instsResult call prep is env s) (instsResult call' prep is env (s.more k)) := by
  induction is generalizing env s with
  | nil => exact .pure
  | cons i is ih =>
    unfold instsResult
    split
    · exact .pure
    · have one : Outlives k (instResult call prep i env s >>= doomedResult prep i env)
          (instResult call' prep i env (s.more k) >>= doomedResult prep i env) :=
        (inst_outlives calls).through (fun _ spent _ => doomed_spent spent) fun _ _ _ done _ => doomed_more done
      simp only [← bind_assoc]
      refine one.through (fun r spent r' done => ?_) fun r _ => ?_
      · obtain ⟨s, rfl⟩ := spent
        exact ⟨s, (pure_ok.1 done).symm⟩
      · cases r with
        | cont env' s' => exact ih
        | stop out s' => exact .pure

end

/-! ### Blocks and invocations -/

def Enter.Outlasts (k : Nat) (enter enter' : Enter) : Prop :=
  ∀ l pred env s, Nanofil.Outlasts k (enter l pred env s) (enter' l pred env (s.more k))

theorem result_outlasts {enter enter' : Enter} (enters : enter.Outlasts k enter') (ctx : Ctx) (r : Result) (j : Jump) (l : Name) :
    Outlasts k (resultOutcome enter ctx r j l) (resultOutcome enter' ctx (r.more k) j l) := by
  have edge (t : Target) (env : Env) (s : St) : Outlasts k (edgeOutcome enter t l env s) (edgeOutcome enter' t l env (s.more k)) := by
    unfold edgeOutcome
    split
    · exact .pure
    · exact enters _ _ _ _
  cases r with
  | stop out s => exact .pure
  | cont env s =>
    unfold resultOutcome
    simp only [Result.more]
    split
    · exact .pure
    · cases j <;> repeat' first
      | exact .pure
      | exact edge _ _ _
      | refine .bind fun _ => ?_

theorem call_outlasts {enter enter' : EnterIn} (enters : ∀ ctx, (enter ctx).Outlasts k (enter' ctx)) (prep : Prep) :
    Call.Outlasts k (callOutcome enter prep) (callOutcome enter' prep) := by
  intro f xs s
  refine .bind fun env => ?_
  cases f.blocks with
  | nil => exact .error
  | cons entry rest =>
    refine .bind fun snapshot => ?_
    cases snapshot with
    | none => exact .pure
    | some start =>
      refine (enters _ _ _ _ _).through (fun r spent r' done => ?_) fun r _ => .bind fun mem => .pure
      obtain ⟨mem, -, done⟩ := bind_ok.1 done
      exact pure_ok.1 done ▸ spent

theorem block_outlasts : ∀ {n m : Nat}, n ≤ m → ∀ ctx, Enter.Outlasts k (blockOutcome n ctx) (blockOutcome m ctx)
  | 0, _, _ => fun _ _ _ _ _ => .error
  | n + 1, m + 1, le => by
    intro ctx l pred env s
    have deeper := block_outlasts (Nat.le_of_succ_le_succ le)
    unfold blockOutcome
    by_cases out : s.fuel = 0
    · rw [if_pos out]
      intro r done left
      cases done
      exact absurd rfl left
    · have room : ¬s.fuel + k = 0 := by omega
      rw [if_neg out, St.more, if_neg room]
      split
      · exact .error
      · have paid : s.fuel + k - 1 = s.fuel - 1 + k := by omega
        rw [paid]
        refine .bind fun env' => (insts_outlive (call_outlasts deeper _) _).through (fun r spent r' done => ?_)
          fun r _ => result_outlasts (deeper ctx) ctx r _ l
        obtain ⟨s, rfl⟩ := spent
        cases done
        rfl

theorem runPrepared_more {fn : Name} {fuel : Nat} (ended : runPrepared prep fn xs fuel = .ok (out, s)) (enough : out ≠ .outOfFuel) :
    runPrepared prep fn xs (fuel + k) = .ok (out, s.more k) := by
  unfold runPrepared at ended ⊢
  split at ended
  · cases ended
  · split_ifs at ended with fit
    rw [if_pos fit]
    exact call_outlasts (block_outlasts (Nat.add_le_add_right (Nat.le_add_right fuel k) 1)) prep _ xs _ _ ended enough

theorem run_more {m : Module} {unknown : Int → Fin 256} {fn : Name} {fuel fuel' : Nat} (ended : run m unknown fn xs fuel = .ok (out, s))
    (enough : out ≠ .outOfFuel) (le : fuel ≤ fuel') : run m unknown fn xs fuel' = .ok (out, s.more (fuel' - fuel)) := by
  obtain ⟨prep, prepared, ended⟩ := bind_ok.1 ended
  have same := runPrepared_more (k := fuel' - fuel) ended enough
  rw [Nat.add_sub_cancel' le] at same
  exact bind_ok.2 ⟨prep, prepared, same⟩

/-- A run that ends within some fuel ends alike, and in the same memory, within any fuel that it does not use up. -/
theorem run_fuel (m : Module) (unknown : Int → Fin 256) (fn : Name) (args : List Word) (fuel fuel' : Nat) (out : Outcome) (s : St)
    (ended : run m unknown fn args fuel = .ok (out, s)) (enough : out ≠ .outOfFuel) :
    (fuel ≤ fuel' → run m unknown fn args fuel' = .ok (out, s.more (fuel' - fuel))) ∧
      ∀ out' s', run m unknown fn args fuel' = .ok (out', s') → out' ≠ .outOfFuel → out' = out ∧ s'.mem = s.mem := by
  refine ⟨run_more ended enough, fun out' s' ended' enough' => ?_⟩
  rcases Nat.le_total fuel fuel' with le | le
  · rw [run_more ended enough le] at ended'
    cases ended'
    exact ⟨rfl, rfl⟩
  · rw [run_more ended' enough' le] at ended
    cases ended
    exact ⟨rfl, rfl⟩

theorem run_fuel_count : ∃ s, run ⟨[.func count]⟩ (fun _ => 0) "count" [.int 3] 9 = .ok (.ret (.int 3), s) ∧
    run ⟨[.func count]⟩ (fun _ => 0) "count" [.int 3] 20 = .ok (.ret (.int 3), s.more 11) := by
  have ran : (run ⟨[.func count]⟩ (fun _ => 0) "count" [.int 3] 9).map (·.1) = .ok (.ret (.int 3)) := by decide +kernel
  cases done : run ⟨[.func count]⟩ (fun _ => 0) "count" [.int 3] 9 with
  | error e =>
    rw [done] at ran
    cases ran
  | ok r =>
    obtain ⟨out, s⟩ := r
    rw [done] at ran
    cases ran
    exact ⟨s, rfl, (run_fuel _ _ _ _ 9 20 _ s done (by decide)).1 (by decide)⟩

end Nanofil
