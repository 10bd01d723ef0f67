import Nanofil.Keeping
import Nanofil.Running

/-! A Fil-C run keeps its memory's discipline: wherever it stands, objects are apart and
capabilities name objects, freed ones stay freed, and accesses write live ones alone. -/
namespace Nanofil
open List Results

/-- What is freed stays freed, and empty. -/
def StaysFreed (mem mem' : Mem) : Prop :=
  ∀ r ∈ mem.regions, r.life = .freed → r ∈ mem'.regions ∧ ∀ r' ∈ mem'.regions, r'.base = r.base → r'.life = .freed ∧ r'.end_ = r'.base

/-- Only bytes and capabilities of live objects change. -/
def WritesLive (mem mem' : Mem) : Prop :=
  ∀ a, mem'.bytes a ≠ mem.bytes a ∨ mem'.aux a ≠ mem.aux a → ∃ r ∈ mem.regions, r.life = .live ∧ r.base ≤ a ∧ a < r.end_

/-- The capabilities that a configuration holds name registered objects. -/
def Config.Named (prep : Prep) : Config → Prop
  | .calls _ _ xs s => ∀ x ∈ xs, WordNamed s.mem x
  | .enters _ _ _ _ env s | .stands _ _ _ _ env s => HoldsNamed prep env s

/-- An instruction that makes no call writes live objects alone, and leaves memory as it was when it stops the run. -/
def Config.Guarded (prep : Prep) : Config → Prop
  | .stands n _ b k env s => ∀ i r, b.insts[k]? = some i → (¬∃ g xs, Makes prep i env s g xs) →
      instsResult (callOutcome (blockOutcome n) prep) prep [i] env s = .ok r →
      WritesLive s.mem r.st.mem ∧ ∀ out s', r = .stop out s' → s'.mem = s.mem
  | _ => True

/-- What a configuration's own call, block or instructions end in. -/
def Config.ends (prep : Prep) : Config → Except RunError (Outcome × St)
  | .calls n f xs s => callOutcome (blockOutcome n) prep f xs s
  | .enters n f l pred env s => blockOutcome n ⟨prep, f⟩ l pred env s
  | .stands n f b k env s => do
    let r ← instsResult (callOutcome (blockOutcome n) prep) prep (b.insts.drop k) env s
    resultOutcome (blockOutcome n ⟨prep, f⟩) ⟨prep, f⟩ r b.jump b.label

/-! ### Events of one instruction -/

/-- The objects there were, and the freed among them: neither number falls. -/
def spent (mem : Mem) : Nat := mem.regions.length + mem.regions.countP (fun r => r.life = .freed)

section
variable {mem mem' : Mem}

theorem Event.spent (event : Event mem mem') : (mem'.regions = mem.regions ∧ WritesLive mem mem') ∨ spent mem < spent mem' := by
  cases event with
  | @write r a bs h live low high =>
    refine .inl ⟨rfl, fun b changed => ⟨r, h, live, ?_⟩⟩
    have inside : a ≤ b ∧ b < a + bs.length := by
      by_contra outside
      refine changed.elim (fun bytes => bytes ?_) fun aux => aux rfl
      exact writtenBytes_outside (by omega)
    omega
  | @lower r a c h live low high named =>
    refine .inl ⟨rfl, fun b changed => ⟨r, h, live, ?_⟩⟩
    have here : b = a := by
      by_contra other
      refine changed.elim (fun bytes => bytes rfl) fun aux => aux ?_
      simp only [update, if_neg other]
    omega
  | alloc _ _ done =>
    obtain ⟨r, regions, _, live, _⟩ := allocBase_regions done
    refine .inr ?_
    simp [Nanofil.spent, regions, live]
  | @free r h live =>
    refine .inr ?_
    have length := length_erase_of_mem h
    have pos := length_pos_of_mem h
    have count : (mem.regions.erase r).countP (fun r => r.life = .freed) = mem.regions.countP (fun r => r.life = .freed) := by
      rw [countP_erase]
      simp [live]
    simp only [Nanofil.spent, freeRegion, length_cons, countP_cons, count]
    simp
    omega

theorem Events.writesLive (events : Events mem mem') : (mem'.regions = mem.regions ∧ WritesLive mem mem') ∨ spent mem < spent mem' := by
  induction events with
  | refl => exact .inl ⟨rfl, fun a changed => (by simp at changed)⟩
  | @tail mid last _ event ih =>
    rcases ih with ⟨same, live⟩ | more
    · rcases event.spent with ⟨same', live'⟩ | more
      · refine .inl ⟨same'.trans same, fun a changed => ?_⟩
        by_cases first : mid.bytes a ≠ mem.bytes a ∨ mid.aux a ≠ mem.aux a
        · exact live a first
        · push Not at first
          rw [← first.1, ← first.2] at changed
          exact same ▸ live' a changed
      · exact .inr (by simpa only [Nanofil.spent, same] using more)
    · rcases event.spent with ⟨same', _⟩ | more'
      · exact .inr (by simpa only [Nanofil.spent, same'] using more)
      · exact .inr (more.trans more')

/-- Events that leave the objects as they are, or the contents, write live objects alone. -/
theorem Events.apart (events : Events mem mem') (apart : Apart mem mem') : WritesLive mem mem' := by
  rcases apart with same | ⟨bytes, aux⟩
  · rcases events.writesLive with ⟨_, live⟩ | more
    · exact live
    · exact absurd more (by simp [spent, same])
  · exact fun a changed => by simp [bytes, aux] at changed

theorem Events.staysFreed (events : Events mem mem') (ok : Discipline mem) : StaysFreed mem mem' := by
  intro r h freed
  have ok' := (events.discipline ok).regions
  have held := events.kept.freed r h freed
  refine ⟨held, fun r' h' based => ?_⟩
  have same : r' = r := inj_on_of_nodup_map ok'.unique h' held based
  exact same ▸ ⟨freed, ok'.freed r held freed⟩

end

/-! ### Blocks and calls -/

/-- What a call's own configuration is in order of: its function, and what it holds. -/
def Config.InModule (m : Module) : Config → Prop
  | .calls _ f _ _ | .enters _ f _ _ _ _ => f ∈ m.funcs
  | .stands _ f b _ _ _ => f ∈ m.funcs ∧ b ∈ f.blocks

structure Config.Tidy (m : Module) (prep : Prep) (c : Config) : Prop where
  inModule : c.InModule m
  discipline : Discipline c.st.mem
  globals : GlobalsNamed prep c.st.mem
  named : c.Named prep

variable {s : St}

/-- A computation's call is of one function and words. -/
theorem CallsTo.unique {α : Type} {x : Call → Except RunError α} {g g' : Func} {xs xs' : List Word}
    (calls : CallsTo s x g xs) (calls' : CallsTo s x g' xs') : g = g' ∧ xs = xs' := by
  classical
  obtain ⟨after, same⟩ := calls
  obtain ⟨after', same'⟩ := calls'
  by_contra other
  have probe := (same fun h ys _ => if h = g ∧ ys = xs then .error .depth else .error .setjmp).symm.trans (same' _)
  rw [if_pos ⟨rfl, rfl⟩, if_neg fun h => other ⟨h.1.symm, h.2.symm⟩] at probe
  cases probe

section
variable {m : Module} {prep : Prep} (prepared : Prepared m prep) (filc : prep.mode = .filc)
include prepared filc

variable {b : Block} {f : Func} {c c' : Config} {o : Outcome × St}

omit filc in
theorem Prepared.insts (mem_f : f ∈ m.funcs) (mem_b : b ∈ f.blocks) :
    ∀ i ∈ b.insts, validInst (funcCtx m prep.mode f) i = true := by
  have block := (prepared.func mem_f).blocks b mem_b
  simp only [validBlock, Bool.and_eq_true, all_eq_true] at block
  exact block.1.1.2

theorem Prepared.asks (mem_f : f ∈ m.funcs) (mem_b : b ∈ f.blocks) {k : Nat} {i : Inst}
    (at_ : b.insts[k]? = some i) {env : Env} (holds : HoldsNamed prep env s) :
    Asks prep s (fun call => instsResult call prep [i] env s) :=
  single_asks (show (funcCtx m prep.mode f).mode = .filc from filc) filc
    (prepared.insts mem_f mem_b i (mem_of_getElem? at_)) holds

theorem Prepared.ran (mem_f : f ∈ m.funcs) (mem_b : b ∈ f.blocks) {is : List Inst}
    (within : ∀ i ∈ is, i ∈ b.insts) {call : Call} (calls : CallsTidy prep call) {env : Env} {r : Result}
    (holds : HoldsNamed prep env s) (done : instsResult call prep is env s = .ok r) : Ran prep s r :=
  insts_ran (show (funcCtx m prep.mode f).mode = .filc from filc) filc calls
    (fun i h => prepared.insts mem_f mem_b i (within i h)) holds done

theorem callsTidy_of {n : Nat} (blocks : ∀ f ∈ m.funcs, ∀ l pred env s o, HoldsNamed prep env s →
    blockOutcome n ⟨prep, f⟩ l pred env s = .ok o → Leaves s o) : CallsTidy prep (callOutcome (blockOutcome n) prep) :=
  fun _ f _ _ _ target ok globals named done =>
    callOutcome_returns filc (fun env s l o => blocks f (prepared.named target) l none env s o) ok globals named done

theorem blocks_leave (n : Nat) : ∀ f ∈ m.funcs, ∀ l pred env s o, HoldsNamed prep env s →
    blockOutcome n ⟨prep, f⟩ l pred env s = .ok o → Leaves s o := by
  induction n with
  | zero =>
    intro f _ l pred env s o _ done
    cases done
  | succ n ih =>
    intro f mem_f l pred env s o holds done
    unfold blockOutcome at done
    split at done
    · cases done
      exact ⟨.refl, trivial⟩
    · split at done
      · cases done
      · rename_i b found
        simp only [bind_ok] at done
        obtain ⟨env', bound, r, ran, done⟩ := done
        have entered := (phisEnv_named holds holds bound).fuel (s.fuel - 1)
        have insts := prepared.ran filc mem_f (mem_of_find?_eq_some found) (fun _ h => h) (callsTidy_of prepared filc ih) entered ran
        have leaves := result_leaves insts (fun env s l o holds => ih f mem_f l _ env s o holds) done
        exact ⟨leaves.events, leaves.named⟩

theorem calls_tidy (n : Nat) : CallsTidy prep (callOutcome (blockOutcome n) prep) :=
  callsTidy_of prepared filc (blocks_leave prepared filc n)

/-! ### Steps -/

theorem Step.tidy (step : Step prep c c') (tidy : c.Tidy m prep) : c'.Tidy m prep ∧ Events c.st.mem c'.st.mem := by
  obtain ⟨inside, ok, globals, named⟩ := tidy
  have held : ∀ {c' : Config} {env : Env}, c'.InModule m → HoldsNamed prep env c'.st → c'.Named prep → c'.Tidy m prep :=
    fun inside holds named => ⟨inside, holds.discipline, holds.globals, named⟩
  cases step with
  | entry bound head taken =>
    obtain ⟨events, holds⟩ := entry_named ok globals named bound taken
    exact ⟨held inside holds holds, events⟩
  | @phis n f l pred env env' s b running found bound =>
    have holds := (phisEnv_named named named bound).fuel (s.fuel - 1)
    exact ⟨held ⟨inside, mem_of_find?_eq_some found⟩ holds holds, .refl⟩
  | inst at_ ran =>
    have tidy := (prepared.asks filc inside.1 inside.2 at_ named).tidy (calls_tidy prepared filc _) named ran
    have holds := tidy.holds _ _ rfl
    exact ⟨held inside holds holds, tidy.events⟩
  | call at_ makes =>
    cases prepared.asks filc inside.1 inside.2 at_ named with
    | call target words same _ =>
      obtain ⟨rfl, rfl⟩ := makes.unique ⟨_, same⟩
      exact ⟨⟨prepared.named target, ok, globals, words⟩, .refl⟩
    | none same _ =>
      obtain ⟨after, made⟩ := makes
      have stuck := (made fun _ _ _ => .error .depth).symm.trans (same _)
      have stuck' := (made fun _ _ _ => .error .setjmp).symm.trans (same _)
      cases stuck.trans stuck'.symm
  | edge goes => exact ⟨⟨inside.1, ok, globals, named⟩, .refl⟩

theorem RunsTo.tidy (runs : RunsTo prep c c') (tidy : c.Tidy m prep) : c'.Tidy m prep ∧ Events c.st.mem c'.st.mem := by
  induction runs with
  | refl => exact ⟨tidy, .refl⟩
  | tail _ step ih =>
    obtain ⟨tidy', events⟩ := step.tidy prepared filc ih.1
    exact ⟨tidy', ih.2.trans events⟩

/-- An instruction that makes no call is on its own. -/
theorem Config.Tidy.guarded (tidy : c.Tidy m prep) : c.Guarded prep := by
  cases c with
  | calls | enters => trivial
  | stands n f b k env s =>
    intro i r at_ makesNone ran
    cases prepared.asks filc tidy.inModule.1 tidy.inModule.2 at_ tidy.named with
    | call target words same _ => exact absurd ⟨_, _, _, same⟩ makesNone
    | none same alone =>
      have alone := alone r ((same _).symm.trans ran)
      exact ⟨alone.tidy.events.apart alone.apart, alone.stopped⟩

/-! ### Ends -/

theorem Config.Tidy.leaves (tidy : c.Tidy m prep) (done : c.ends prep = .ok o) : Events c.st.mem o.2.mem := by
  obtain ⟨inside, ok, globals, named⟩ := tidy
  cases c with
  | calls n f xs s =>
    exact (callOutcome_returns filc (fun env s l o => blocks_leave prepared filc n f inside l none env s o) ok globals named done).events
  | enters n f l pred env s => exact (blocks_leave prepared filc n f inside l pred env s o named done).events
  | stands n f b k env s =>
    simp only [Config.ends, bind_ok] at done
    obtain ⟨r, ran, done⟩ := done
    have insts := prepared.ran filc inside.1 inside.2 (fun _ h => mem_of_mem_drop h) (calls_tidy prepared filc n) named ran
    exact (result_leaves insts (fun env s l o holds => blocks_leave prepared filc n f inside.1 l _ env s o holds) done).events

/-- Where a run ends comes after where any of its configurations ends. -/
theorem Step.ends (step : Step prep c c') (tidy : c.Tidy m prep) (done : c.ends prep = .ok o) :
    ∃ o', c'.ends prep = .ok o' ∧ Events o'.2.mem o.2.mem := by
  obtain ⟨inside, ok, globals, named⟩ := tidy
  have rest : ∀ {n f b k i env s r}, b.insts[k]? = some i → Config.ends prep (.stands n f b k env s) = .ok r →
      ∃ r1, instsResult (callOutcome (blockOutcome n) prep) prep [i] env s = .ok r1 ∧
        ((∃ out s', r1 = .stop out s' ∧ r = (out, s')) ∨
          ∃ env' s', r1 = .cont env' s' ∧ Config.ends prep (.stands n f b (k + 1) env' s') = .ok r) := by
    intro n f b k i env s r at_ done
    obtain ⟨inside, same⟩ := List.getElem?_eq_some_iff.1 at_
    simp only [Config.ends, drop_eq_getElem_cons inside, same] at done
    rw [instsResult_cons] at done
    simp only [bind_ok] at done
    obtain ⟨r2, ⟨r1, first, ran⟩, done⟩ := done
    refine ⟨r1, first, ?_⟩
    cases r1 with
    | stop out s' =>
      cases ran
      cases done
      exact .inl ⟨_, _, rfl, rfl⟩
    | cont env' s' => exact .inr ⟨env', s', rfl, bind_ok.2 ⟨r2, ran, done⟩⟩
  cases step with
  | @entry n f xs s env env' entry mem bound head taken =>
    obtain ⟨bs, blocks⟩ := head?_eq_some_iff.1 head
    simp only [Config.ends, callOutcome, bind_ok] at done
    obtain ⟨env1, bound', done⟩ := done
    cases bound.symm.trans bound'
    simp only [blocks, bind_ok] at done
    obtain ⟨snapshot, taken', done⟩ := done
    cases taken.symm.trans taken'
    simp only [bind_ok, pure_ok] at done
    obtain ⟨r, ran, mem', ended, rfl⟩ := done
    refine ⟨r, ran, ?_⟩
    show Events r.2.mem { mem' with regions := returnedRegions prep.mode s.mem.regions mem'.regions }
    rw [returned_mem filc]
    exact invalidateLocals_events ended
  | @phis n f l pred env env' s b running found bound =>
    obtain rfl : b.label = l := by simpa using find?_some found
    simp only [Config.ends, blockOutcome, if_neg running, found, bound, bind_ok, Except.ok.injEq, exists_eq_left'] at done
    exact ⟨o, by simp only [Config.ends, drop_zero, bind_ok]; exact done, .refl⟩
  | inst at_ ran =>
    obtain ⟨r1, first, ⟨out, s', rfl, rfl⟩ | ⟨env1, s1, rfl, done⟩⟩ := rest at_ done
    · cases ran.symm.trans first
    · cases ran.symm.trans first
      exact ⟨o, done, .refl⟩
  | @call n f b k i env s g xs at_ makes =>
    obtain ⟨r1, first, ended⟩ := rest at_ done
    cases prepared.asks filc inside.1 inside.2 at_ named with
    | none same _ =>
      obtain ⟨after, made⟩ := makes
      have stuck := (made fun _ _ _ => .error .depth).symm.trans (same _)
      have stuck' := (made fun _ _ _ => .error .setjmp).symm.trans (same _)
      cases stuck.trans stuck'.symm
    | call target words same tidy =>
      obtain ⟨rfl, rfl⟩ := makes.unique ⟨_, same⟩
      rw [same] at first
      simp only [bind_ok] at first
      obtain ⟨o', called, after⟩ := first
      have returns := calls_tidy prepared filc n _ g xs s o' target ok globals words called
      obtain ⟨left, mem⟩ := tidy o' r1 returns after
      refine ⟨o', called, ?_⟩
      rcases ended with ⟨out, s', rfl, rfl⟩ | ⟨env1, s1, rfl, done⟩
      · exact mem ▸ .refl
      · have holds := left.holds _ _ rfl
        have next : Config.Tidy m prep (.stands n f b (k + 1) env1 s1) := ⟨inside, holds.discipline, holds.globals, holds⟩
        exact mem ▸ next.leaves prepared filc done
  | @edge n f b env s l goes =>
    simp only [Config.ends, drop_length, instsResult, bind_ok, Except.ok.injEq, exists_eq_left'] at done
    rw [goes] at done
    exact ⟨o, done, .refl⟩

theorem RunsTo.ends (runs : RunsTo prep c c') (tidy : c.Tidy m prep) (done : c.ends prep = .ok o) : Events c'.st.mem o.2.mem := by
  have ends : ∃ o', c'.ends prep = .ok o' ∧ Events o'.2.mem o.2.mem := by
    induction runs with
    | refl => exact ⟨o, done, .refl⟩
    | tail before step ih =>
      obtain ⟨o1, done1, after1⟩ := ih
      obtain ⟨o2, done2, after2⟩ := step.ends prepared filc (RunsTo.tidy prepared filc before tidy).1 done1
      exact ⟨o2, done2, after2.trans after1⟩
  obtain ⟨o', done', after⟩ := ends
  exact ((runs.tidy prepared filc tidy).1.leaves prepared filc done').trans after

end

/-! ### Modules -/

/-- A valid Fil-C module starts with its memory in order, when its data ends below the heap. -/
theorem modulePrepared_named {m : Module} (valid : validModule m = true) (filc : moduleMode m = .filc)
    (below : dataBelowHeap m = true) (unknown : Int → Fin 256) :
    ∃ prep, modulePrepared m unknown = .ok prep ∧ Prepared m prep ∧ Discipline prep.mem ∧ GlobalsNamed prep prep.mem := by
  have ready := initialMemory_ends valid (fun plain => by rw [plain] at filc; cases filc) unknown
  cases done : initialMemory m unknown with
  | error e => exact (ready.failure done).elim
  | ok r =>
    obtain ⟨laid, _, caps, _, _⟩ := ready.result done
    obtain ⟨lay, ok, regions, next, low⟩ := initialMemory_layout valid filc below done
    have named : ∀ {c}, LaidCap m r.2.regions c → CapNamed r.2 c := fun laid base h => registered_iff.2 (laid.1 base h)
    refine ⟨⟨preparedFuncs m, r.1.globals, moduleMode m, r.2⟩, ?_, ⟨valid, rfl, rfl⟩,
      ⟨initialMemory_ok valid filc below done, ?_, fun r' h _ => ?_, fun a c known => named (caps a c known)⟩, fun g x known => ?_⟩
    · simp only [modulePrepared, done]
      rfl
    · rw [show Mem.regions _ = lay.regions from regions]
      exact ok.apart.imp fun h _ _ => .inr h
    · rw [show Mem.next _ = stackBase from next]
      exact (low r' (regions ▸ h)).le
    · rw [filc] at laid
      obtain ⟨a, c, rfl, _, cap⟩ := laid.2 g x known
      exact named cap

theorem memory_disciplined {m : Module} (valid : validModule m = true) (filc : moduleMode m = .filc)
    (below : dataBelowHeap m = true) (unknown : Int → Fin 256) :
    ∃ prep, modulePrepared m unknown = .ok prep ∧ ∀ fn f args fuel, prep.funcs fn = some f → (∀ x ∈ args, WordNamed prep.mem x) →
      ∀ c, RunsTo prep (.first prep f args fuel) c →
        Discipline c.st.mem ∧ c.Named prep ∧ c.Guarded prep ∧
        (∀ c', RunsTo prep c c' → Events c.st.mem c'.st.mem ∧ StaysFreed c.st.mem c'.st.mem) ∧
        ∀ o, run m unknown fn args fuel = .ok o → Discipline o.2.mem ∧ Events c.st.mem o.2.mem ∧ StaysFreed c.st.mem o.2.mem := by
  obtain ⟨prep, done, prepared, ok, globals⟩ := modulePrepared_named valid filc below unknown
  have mode : prep.mode = .filc := prepared.mode.trans filc
  refine ⟨prep, done, fun fn f args fuel named words c runs => ?_⟩
  have first : (Config.first prep f args fuel).Tidy m prep := ⟨prepared.named named, ok, globals, words⟩
  obtain ⟨tidy, _⟩ := RunsTo.tidy prepared mode runs first
  refine ⟨tidy.discipline, tidy.named, tidy.guarded prepared mode, fun c' further => ?_, fun o ran => ?_⟩
  · have events := (RunsTo.tidy prepared mode further tidy).2
    exact ⟨events, events.staysFreed tidy.discipline⟩
  · simp only [run, done, bind, Except.bind, runPrepared, named] at ran
    split at ran
    · have events := RunsTo.ends prepared mode runs first ran
      exact ⟨events.discipline tidy.discipline, events, events.staysFreed tidy.discipline⟩
    · cases ran

/-- Keeps its argument in an object of its own, and frees the object. -/
def keepsAndFrees : Func :=
  oneBlock "f" .void [⟨.p, "p"⟩]
    [.let_ "q" .p (.alloc 16) [.const 8], .store .p (.tmp "p") (.tmp "q"), .call .void (.global "free") [⟨.p, .tmp "q"⟩]] .retVoid

theorem memory_disciplined_frees :
    validModule ⟨[.func keepsAndFrees]⟩ = true ∧ moduleMode ⟨[.func keepsAndFrees]⟩ = .filc ∧ dataBelowHeap ⟨[.func keepsAndFrees]⟩ = true ∧
    ∃ prep, modulePrepared ⟨[.func keepsAndFrees]⟩ (fun _ => 0) = .ok prep ∧
      ∀ c, RunsTo prep (.first prep keepsAndFrees [.ptr 65536 (.fn "f")] 9) c →
        Discipline c.st.mem ∧ c.Named prep ∧ c.Guarded prep ∧
        (∀ c', RunsTo prep c c' → Events c.st.mem c'.st.mem ∧ StaysFreed c.st.mem c'.st.mem) ∧
        ∀ o, run ⟨[.func keepsAndFrees]⟩ (fun _ => 0) "f" [.ptr 65536 (.fn "f")] 9 = .ok o →
          Discipline o.2.mem ∧ Events c.st.mem o.2.mem ∧ StaysFreed c.st.mem o.2.mem := by
  have valid : validModule ⟨[.func keepsAndFrees]⟩ = true := by decide +kernel
  have filc : moduleMode ⟨[.func keepsAndFrees]⟩ = .filc := by decide +kernel
  have below : dataBelowHeap ⟨[.func keepsAndFrees]⟩ = true := by decide +kernel
  obtain ⟨prep, done, disciplined⟩ := memory_disciplined valid filc below (fun _ => 0)
  have named : prep.funcs "f" = some keepsAndFrees := by
    rw [(modulePrepared_cases done).2.1]
    decide +kernel
  refine ⟨valid, filc, below, prep, done, disciplined "f" keepsAndFrees _ 9 named fun x h => ?_⟩
  rw [mem_singleton.1 h]
  exact fun base is => by cases is

/-- Does nothing with its argument. -/
def ignores : Func := oneBlock "f" .void [⟨.p, "p"⟩] [] .retVoid

/-- A run may be given the capability of an object that never was. -/
theorem argument_unregistered :
    validModule ⟨[.func ignores]⟩ = true ∧ moduleMode ⟨[.func ignores]⟩ = .filc ∧ dataBelowHeap ⟨[.func ignores]⟩ = true ∧
    (run ⟨[.func ignores]⟩ (fun _ => 0) "f" [.ptr 1 (.obj 5)] 1).map (·.1) = .ok .retVoid ∧
    ∃ prep, modulePrepared ⟨[.func ignores]⟩ (fun _ => 0) = .ok prep ∧
      ∃ env s, RunsTo prep (.first prep ignores [.ptr 1 (.obj 5)] 1) (.enters 2 ignores "start" none env s) ∧
        env.vals "p" = some (.ptr 1 (.obj 5)) ∧ ¬Registered s.mem 5 := by
  refine ⟨by decide +kernel, by decide +kernel, by decide +kernel, by decide +kernel, ?_⟩
  refine ⟨_, rfl, emptyEnv.put "p" (.ptr 1 (.obj 5)), _,
    .single (@Step.entry _ 2 ignores _ _ _ _ ⟨"start", [], [], .retVoid⟩ _ rfl rfl rfl), rfl, fun registered => ?_⟩
  obtain ⟨r, h, _⟩ := registered_iff.1 registered
  cases h

end Nanofil
