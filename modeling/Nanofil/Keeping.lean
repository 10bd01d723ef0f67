import Nanofil.Configs
import Nanofil.Holding

/-! Whole runs: every block, call and return does as memory's events do, and so does every step
between the configurations that a run goes through. -/
namespace Nanofil
open List Results

/-- What a block leaves behind. -/
structure Leaves (s : St) (o : Outcome × St) : Prop where
  events : Events s.mem o.2.mem
  named : o.1.Named o.2.mem

/-- What the rest of a block's instructions leave behind. -/
structure Ran (prep : Prep) (s : St) (r : Result) : Prop where
  events : Events s.mem r.st.mem
  holds : ∀ env' s', r = .cont env' s' → HoldsNamed prep env' s'
  named : ∀ out s', r = .stop out s' → out.Named s'.mem

def CallsTidy (prep : Prep) (call : Call) : Prop :=
  ∀ n f xs s o, prep.funcs n = some f → Discipline s.mem → GlobalsNamed prep s.mem → (∀ x ∈ xs, WordNamed s.mem x) →
    call f xs s = .ok o → ReturnsNamed s o

section
variable {prep : Prep} {env : Env} {s : St}

variable {r : Result} {f : Func} {o : Outcome × St} {xs : List Word}

theorem Asks.tidy {x : Call → Except RunError Result} (asks : Asks prep s x) {call : Call} (calls : CallsTidy prep call)
    (holds : HoldsNamed prep env s) (done : x call = .ok r) : Tidy prep s r := by
  cases asks with
  | call target words same tidy =>
    rw [same] at done
    simp only [bind_ok] at done
    obtain ⟨o, called, done⟩ := done
    exact (tidy o r (calls _ _ _ _ o target holds.discipline holds.globals words called) done).1
  | none same alone => exact (alone r ((same call).symm.trans done)).tidy

/-! ### One instruction of a block -/

/-- What doom makes of an instruction's result. -/
theorem doomed_tidy (holds : HoldsNamed prep env s) {i : Inst} {r0 : Result} (tidy : Tidy prep s r0)
    (done : doomedResult prep i env r0 = .ok r) : Tidy prep s r ∧ r.st = r0.st ∧ ∀ out s', r = .stop out s' → ∃ out0, r0 = .stop out0 s' := by
  cases r with
  | cont env' s' =>
    rcases doomedResult_cont done with rfl | ⟨d, v, why, p, _, rfl, read, rfl⟩
    · exact ⟨tidy, rfl, fun out s' h => by cases h⟩
    · have moved : HoldsNamed prep env s' := holds.moved tidy.events (tidy.ends _ _ rfl).2
      have put := moved.put (valueX_named moved read) d
      refine ⟨⟨tidy.events, fun env'' s'' h => ?_, fun out s' h => by cases h⟩, rfl, fun out s' h => by cases h⟩
      cases h
      exact ⟨put.discipline, put.globals, put.vals, put.snapshot, put.locals⟩
  | stop out s' =>
    rcases doomedResult_stop done with ⟨rfl, _⟩ | ⟨w, why, rfl, rfl⟩
    · exact ⟨tidy, rfl, fun out s' h => ⟨_, h⟩⟩
    · refine ⟨⟨tidy.events, fun env' s'' h => (by cases h), fun out s'' h => ?_⟩, rfl, fun out s'' h => by cases h; exact ⟨_, rfl⟩⟩
      cases h
      exact ⟨trivial, (tidy.ends _ _ rfl).2⟩

theorem instsResult_cons (call : Call) (prep : Prep) (i : Inst) (is : List Inst) (env : Env) (s : St) :
    instsResult call prep (i :: is) env s = instsResult call prep [i] env s >>= fun r =>
      match r with
      | .cont env' s' => instsResult call prep is env' s'
      | .stop out s' => .ok (.stop out s') := by
  simp only [instsResult]
  split
  · rfl
  · simp only [bind_assoc]
    congr 1
    funext r0
    congr 1
    funext r
    cases r <;> rfl

section
variable {ctx : ValidCtx} (mode : ctx.mode = .filc) (filc : prep.mode = .filc)
include mode filc

theorem single_asks {i : Inst} (valid : validInst ctx i = true) (holds : HoldsNamed prep env s) :
    Asks prep s (fun call => instsResult call prep [i] env s) := by
  have finish : ∀ {r0 r : Result}, (do
      let r ← doomedResult prep i env r0
      match r with
      | .cont env' s' => (.ok (.cont env' s') : Except RunError Result)
      | .stop out s' => return .stop out s') = .ok r → doomedResult prep i env r0 = .ok r := by
    intro r0 r done
    simp only [bind_ok] at done
    obtain ⟨r1, doomed, done⟩ := done
    cases r1 <;> cases done <;> exact doomed
  simp only [instsResult]
  split
  · exact .alone fun r h => by cases h; exact .stop s trivial
  · cases instResult_asks mode filc valid holds with
    | call target words same tidy =>
      refine .call target words (fun call => by rw [same call, bind_assoc]) fun o r returns done => ?_
      simp only [bind_ok] at done
      obtain ⟨r0, after, done⟩ := done
      obtain ⟨tidy0, mem⟩ := tidy o r0 returns after
      obtain ⟨tidy, st, _⟩ := doomed_tidy holds tidy0 (finish (bind_ok.2 done))
      exact ⟨tidy, by rw [st, mem]⟩
    | none same alone =>
      refine .none (fun call => by rw [same call]) fun r done => ?_
      simp only [bind_ok] at done
      obtain ⟨r0, ran, done⟩ := done
      have alone0 := alone r0 ran
      obtain ⟨tidy, st, stops⟩ := doomed_tidy holds alone0.tidy (finish (bind_ok.2 done))
      refine ⟨tidy, fun out s' h => ?_, by rw [st]; exact alone0.apart⟩
      obtain ⟨out0, stopped⟩ := stops out s' h
      exact alone0.stopped out0 s' stopped

/-! ### Blocks -/

theorem insts_ran {call : Call} (calls : CallsTidy prep call) {is : List Inst} : ∀ {env : Env} {s : St} {r : Result},
    (∀ i ∈ is, validInst ctx i = true) → HoldsNamed prep env s → instsResult call prep is env s = .ok r → Ran prep s r := by
  induction is with
  | nil =>
    intro env s r _ holds done
    cases done
    exact ⟨.refl, fun _ _ h => by cases h; exact holds, fun _ _ h => by cases h⟩
  | cons i is ih =>
    intro env s r valid holds done
    rw [instsResult_cons] at done
    simp only [bind_ok] at done
    obtain ⟨r1, ran, done⟩ := done
    have tidy := (single_asks mode filc (valid i mem_cons_self) holds).tidy calls holds ran
    cases r1 with
    | stop out s' =>
      cases done
      exact ⟨tidy.events, fun _ _ h => (by cases h), fun out s' h => (tidy.ends out s' h).1⟩
    | cont env' s' =>
      have rest := ih (fun i h => valid i (mem_cons_of_mem _ h)) (tidy.holds _ _ rfl) done
      exact ⟨tidy.events.trans rest.events, rest.holds, rest.named⟩

end

theorem phisEnv_named (holds : HoldsNamed prep env s) {pred : Option Name} {phis : List Phi} : ∀ {env1 env2 : Env},
    HoldsNamed prep env1 s → phisEnv prep pred env phis env1 = .ok env2 → HoldsNamed prep env2 s := by
  induction phis with
  | nil =>
    intro env1 env2 holds1 done
    cases done
    exact holds1
  | cons ph phis ih =>
    intro env1 env2 holds1 done
    unfold phisEnv at done
    split at done
    · cases done
    · split at done
      · cases done
      · simp only [bind_ok] at done
        obtain ⟨x, read, done⟩ := done
        exact ih (holds1.put (valueX_named holds read) _) done

theorem HoldsNamed.fuel (holds : HoldsNamed prep env s) (k : Nat) : HoldsNamed prep env { s with fuel := k } :=
  ⟨holds.discipline, holds.globals, holds.vals, holds.snapshot, holds.locals⟩

theorem jump_leaves (holds : HoldsNamed prep env s) {enter : Enter} {jump : Jump} {label : Name}
    (enters : ∀ l o, enter l (some label) env s = .ok o → Leaves s o)
    (done : jumpOutcome enter ⟨prep, f⟩ jump label env s = .ok o) : Leaves s o := by
  have edges : ∀ t, edgeOutcome enter t label env s = .ok o → Leaves s o := by
    intro t done
    unfold edgeOutcome at done
    split at done
    · cases done
      exact ⟨.refl, trivial⟩
    · exact enters _ o done
  cases jump with
  | goto t => exact edges t done
  | branch v t1 t2 =>
    simp only [jumpOutcome, bind_ok] at done
    obtain ⟨x, _, n, _, done⟩ := done
    exact edges _ done
  | ret v =>
    simp only [jumpOutcome, bind_ok, pure_ok] at done
    obtain ⟨out, read, rfl⟩ := done
    unfold retOutcome at read
    split at read
    · simp only [bind_ok, pure_ok] at read
      obtain ⟨x, value, rfl⟩ := read
      exact ⟨.refl, valueX_named holds value⟩
    · cases read
  | rets vs =>
    simp only [jumpOutcome, bind_ok, pure_ok] at done
    obtain ⟨out, read, rfl⟩ := done
    unfold retsOutcome at read
    split at read
    · simp only [bind_ok, pure_ok] at read
      obtain ⟨xs, values, rfl⟩ := read
      exact ⟨.refl, valuesX_named holds values⟩
    · cases read
  | retVoid | unreachable =>
    cases done
    exact ⟨.refl, trivial⟩

theorem result_leaves {s0 : St} (ran : Ran prep s0 r) {enter : Enter} {jump : Jump} {label : Name}
    (enters : ∀ env s l o, HoldsNamed prep env s → enter l (some label) env s = .ok o → Leaves s o)
    (done : resultOutcome enter ⟨prep, f⟩ r jump label = .ok o) : Leaves s0 o := by
  cases r with
  | stop out s' =>
    cases done
    exact ⟨ran.events, ran.named _ _ rfl⟩
  | cont env s =>
    have holds := ran.holds _ _ rfl
    have leaves : Leaves s o := by
      simp only [resultOutcome] at done
      split at done
      · cases done
        exact ⟨.refl, trivial⟩
      · exact jump_leaves holds (fun l o => enters env s l o holds) done
    exact ⟨ran.events.trans leaves.events, leaves.named⟩

/-! ### Calls -/

theorem paramsEnv_named {ps : List Param} : ∀ {xs : List Word} {env env' : Env}, HoldsNamed prep env s →
    (∀ x ∈ xs, WordNamed s.mem x) → paramsEnv ps xs env = .ok env' → HoldsNamed prep env' s := by
  induction ps with
  | nil =>
    intro xs env env' holds _ done
    cases done
    exact holds
  | cons p ps ih =>
    intro xs env env' holds named done
    cases xs with
    | nil => cases done
    | cons x xs =>
      exact ih (holds.put (named x mem_cons_self) p.name) (fun y h => named y (mem_cons_of_mem _ h)) done

theorem snapshotValues_events {base : Int} : ∀ {a : Int} {mem mem' : Mem}, Discipline mem →
    (∀ x ∈ xs, WordNamed mem x) → snapshotValues base xs a mem = .ok (some mem') → Events mem mem' := by
  induction xs with
  | nil =>
    intro a mem mem' _ _ done
    cases done
    exact .refl
  | cons x xs ih =>
    intro a mem mem' ok named done
    simp only [snapshotValues, bind_ok] at done
    obtain ⟨r, stored, done⟩ := done
    have stores := storeRes_stores ok (named x mem_cons_self) stored
    split at done
    · exact stores.events.trans (ih (stores.events.discipline ok)
        (fun y h => (named y (mem_cons_of_mem _ h)).events stores.events) done)
    · cases done

theorem entrySnapshot_named {env' : Env} {mem : Mem} (holds : HoldsNamed prep env s)
    (named : ∀ x ∈ xs, WordNamed s.mem x) (taken : entrySnapshot f xs env s.mem = .ok (some (env', mem))) :
    Events s.mem mem ∧ HoldsNamed prep env' (s.setMem mem) := by
  unfold entrySnapshot at taken
  split at taken
  · simp only [bind_ok] at taken
    obtain ⟨r, args, taken⟩ := taken
    split at taken
    · cases taken
      unfold argsSnapshot at args
      split at args
      · cases args
        exact ⟨.refl, holds.discipline, holds.globals, holds.vals, fun x h => by cases h; exact capNamed_none, holds.locals⟩
      · split at args
        · cases args
        · rename_i base mem1 alloc
          simp only [bind_ok] at args
          obtain ⟨stored, values, args⟩ := args
          split at args
          · cases args
            have event : Events s.mem mem1 := .single (.alloc (by simp) (by positivity) alloc)
            obtain ⟨region, regions, based, _⟩ := allocBase_regions alloc
            have registered : Registered mem1 base := registered_iff.2 ⟨region, regions ▸ mem_cons_self, based⟩
            have writes := snapshotValues_events (event.discipline holds.discipline) (fun x h => (named x h).events event) values
            have moved : HoldsNamed prep env (s.setMem mem) := holds.moved (event.trans writes) rfl
            refine ⟨event.trans writes, moved.discipline, moved.globals, moved.vals, fun x h => ?_, moved.locals⟩
            cases h
            exact fun b h => by cases h; exact writes.kept.objects _ registered
          · cases args
    · cases taken
  · cases taken
    exact ⟨.refl, holds⟩

theorem invalidateLocals_events {locals : Name → Option (Option Int)} {ns : List Name} : ∀ {mem mem' : Mem},
    invalidateLocals locals ns mem = .ok mem' → Events mem mem' := by
  induction ns with
  | nil =>
    intro mem mem' done
    cases done
    exact .refl
  | cons n ns ih =>
    intro mem mem' done
    unfold invalidateLocals at done
    split at done
    · split at done
      · rename_i r found
        have held := find?_some found
        simp only [decide_eq_true_eq] at held
        obtain ⟨rfl, _, live⟩ := held
        exact .head (.free (mem_of_find?_eq_some found) live) (ih done)
      · cases done
    · exact ih done

/-- An invocation begins with what its arguments name. -/
theorem entry_named {env' : Env} {mem : Mem} (ok : Discipline s.mem) (globals : GlobalsNamed prep s.mem)
    (named : ∀ x ∈ xs, WordNamed s.mem x) (bound : paramsEnv f.params xs emptyEnv = .ok env)
    (taken : entrySnapshot f xs env s.mem = .ok (some (env', mem))) :
    Events s.mem mem ∧ HoldsNamed prep env' { mem := mem, fuel := s.fuel, locals := freshLocals f } := by
  have fresh : HoldsNamed prep emptyEnv { s with locals := freshLocals f } :=
    ⟨ok, globals, fun n x h => (by cases h), fun x h => (by cases h), fun n b h => by
      simp only [freshLocals] at h
      split at h <;> cases h⟩
  exact entrySnapshot_named (paramsEnv_named fresh named bound) named taken

theorem returned_mem (filc : prep.mode = .filc) (s : St) (mem : Mem) :
    { mem with regions := returnedRegions prep.mode s.mem.regions mem.regions } = mem := by
  rw [filc]
  rfl

theorem callOutcome_returns (filc : prep.mode = .filc) {enterIn : EnterIn}
    (enters : ∀ env s l o, HoldsNamed prep env s → enterIn ⟨prep, f⟩ l none env s = .ok o → Leaves s o)
    (ok : Discipline s.mem) (globals : GlobalsNamed prep s.mem) (named : ∀ x ∈ xs, WordNamed s.mem x)
    (done : callOutcome enterIn prep f xs s = .ok o) : ReturnsNamed s o := by
  simp only [callOutcome, bind_ok] at done
  obtain ⟨env, bound, done⟩ := done
  split at done
  · cases done
  · simp only [bind_ok] at done
    obtain ⟨taken, snapshot, done⟩ := done
    split at done
    · cases done
      exact ⟨.refl, trivial, rfl⟩
    · simp only [bind_ok, pure_ok] at done
      obtain ⟨r, ran, mem', ended, rfl⟩ := done
      obtain ⟨begins, holds⟩ := entry_named ok globals named bound snapshot
      have leaves := enters _ _ _ r holds ran
      have ends := invalidateLocals_events ended
      rw [returned_mem filc]
      refine ⟨begins.trans (leaves.events.trans ends), ?_, rfl⟩
      have named := leaves.named
      show r.1.Named mem'
      cases out : r.1 <;> rw [out] at named <;> first | trivial | exact named.events ends | exact fun x h => (named x h).events ends

end

end Nanofil
