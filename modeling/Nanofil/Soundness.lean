import Nanofil.Modules

/-! Soundness of the checked-IR validator: no run of an accepted module ends unchecked,
where each `check_ahead` starts near its pointer. -/
namespace Nanofil
open Results

/-- No `check_ahead` of the module starts so far below its pointer that it wraps. -/
def aheadsNear (m : Module) : Bool := m.funcs.all (fun f => f.insts.all aheadNear)

theorem aheadsNear_inst {m : Module} (near : aheadsNear m = true) {f : Func} (mem : f ∈ m.funcs) {b : Block}
    (mem_b : b ∈ f.blocks) {i : Inst} (inst : i ∈ b.insts) : aheadNear i = true := by
  simp only [aheadsNear, List.all_eq_true] at near
  exact near f mem i (List.mem_flatMap.2 ⟨b, mem_b, inst⟩)

section
variable {m : Module} (valid : validModule m = true) (stage : moduleStage m = .checked)
include valid stage

theorem modulePrepared_checked (near : aheadsNear m = true) (filc : moduleMode m = .filc)
    {unknown : Int → Fin 256} {prep : Prep} (done : modulePrepared m unknown = .ok prep) : PrepChecked m prep := by
  obtain ⟨mode, funcs, _⟩ := modulePrepared_cases done
  refine ⟨mode.trans filc, fun n f named => ?_⟩
  have mem := preparedFuncs_mem (funcs ▸ named)
  have accepted := validModule_func valid mem
  rw [filc, stage] at accepted
  exact ⟨fun b mem_b i inst => aheadsNear_inst near mem mem_b inst, accepted.checkedFunc⟩

omit stage in
theorem modulePrepared_plain (plain : moduleMode m = .plain) {unknown : Int → Fin 256} {prep : Prep}
    (done : modulePrepared m unknown = .ok prep) : PrepPlain prep := by
  obtain ⟨_, funcs, _⟩ := modulePrepared_cases done
  intro n f named b mem_b i inst
  have mem := preparedFuncs_mem (funcs ▸ named)
  have accepted := validModule_func valid mem
  rw [plain] at accepted
  exact plain_unchecked accepted (fun b mem_b i inst => moduleMode_plain plain mem mem_b inst) mem_b inst

/-- No run of a valid checked module whose static data ends below the heap is unchecked:
every reused proof is executed where it holds, or traps as the check it stands for. -/
theorem run_checked (below : dataBelowHeap m = true) (near : aheadsNear m = true) {unknown : Int → Fin 256}
    {fn : Name} {args : List Word} {fuel : Nat} {out : Outcome}
    (done : (run m unknown fn args fuel).map (·.1) = .ok out) : ∀ why, out ≠ .unchecked why := by
  cases ran : run m unknown fn args fuel with
  | error e =>
    rw [ran] at done
    cases done
  | ok r =>
    rw [ran] at done
    cases done
    simp only [run, bind_ok, runPrepared] at ran
    obtain ⟨prep, prepared, ran⟩ := ran
    split at ran
    · cases ran
    · rename_i f named
      split at ran
      · cases mode : moduleMode m with
        | plain =>
          have plain := modulePrepared_plain valid mode prepared
          exact plain_callOutcome
            (fun l env s r running done => plain_blockOutcome plain _ (plain fn f named) running done) ran
        | filc =>
          have checked := modulePrepared_checked valid stage near mode prepared
          obtain ⟨_, _, first, laid, mem⟩ := modulePrepared_cases prepared
          have ok := initialMemory_ok valid mode below laid
          obtain ⟨nearF, src, ⟨func⟩⟩ := checked.funcs fn f named
          exact (callOutcome_safe func checked.filc (mem ▸ ok)
            (fun b mem_b env s r entering done => blockOutcome_safe checked _ func nearF mem_b entering done) ran).1
      · cases ran

end

/-! ### A range that ends near its pointer and starts far below it -/

/-- Two loads of a pointer to eight bytes, the first one's check early for the second. -/
def aheadModule (lo hi : Int) : Module :=
  ⟨[.data ⟨"g", .export_, 8, [.zero 8]⟩,
    .func { name := "f", linkage := .export_, ret := .cls .l, params := [⟨.p, "p"⟩],
            blocks := [⟨"start", [],
              [.let_ "q1" .a (.checkAhead lo hi .read 1 (lo + 8)) [.tmp "p"],
               .let_ "x" .l (.rawLoad .l lo) [.tmp "q1"],
               .let_ "q2" .a (.check (hi - 8) hi .read 1) [.tmp "p"],
               .let_ "y" .l (.rawLoad .l (hi - 8)) [.tmp "q2"]],
              .ret (.tmp "y")⟩] }]⟩

theorem run_checked_ahead :
    (run (aheadModule 0 16) (fun _ => 0) "f" [.ptr 65536 (.obj 65536)] 1).map (·.1) = .ok (.trap .outOfBounds) ∧
      ∀ why, Outcome.trap .outOfBounds ≠ .unchecked why :=
  have done : (run (aheadModule 0 16) (fun _ => 0) "f" [.ptr 65536 (.obj 65536)] 1).map (·.1) =
      .ok (.trap .outOfBounds) := by decide +kernel
  ⟨done, run_checked (by decide +kernel) (by decide +kernel) (by decide +kernel) (by decide +kernel) done⟩

/-- The range starts 2^64 below its pointer, so the early bytes are missing where no
access is: the run is doomed and returns. -/
theorem run_unchecked_far :
    validModule (aheadModule (-18446744073709551616) 8) = true ∧
    moduleStage (aheadModule (-18446744073709551616) 8) = .checked ∧
    dataBelowHeap (aheadModule (-18446744073709551616) 8) = true ∧
    (run (aheadModule (-18446744073709551616) 8) (fun _ => 0) "f" [.ptr 65536 (.obj 65536)] 1).map (·.1) =
      .ok (.unchecked (.ahead .outOfBounds)) := by
  refine ⟨?_, ?_, ?_, ?_⟩ <;> decide +kernel

end Nanofil
