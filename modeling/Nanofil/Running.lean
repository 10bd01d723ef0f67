import Nanofil.Configs

/-! Valid modules do not get stuck: every run ends in an outcome or a declared gap, and
every configuration it reaches holds integers in range. -/
namespace Nanofil
open Results

/-- A run's first configuration. -/
def Config.first (prep : Prep) (f : Func) (args : List Word) (fuel : Nat) : Config :=
  .calls (fuel + 1) f args { mem := prep.mem, fuel := fuel, locals := fun _ => none }

theorem Config.first_ok {m : Module} {prep : Prep} {f : Func} (mem_f : f ∈ m.funcs) {args : List Word}
    (given : ArgsGiven prep f args) (mem : MemOk prep prep.mem) (globals : GlobalsOk m prep prep.mem) (fuel : Nat) :
    (Config.first prep f args fuel).Ok m prep :=
  ⟨mem_f, given.ok, mem, globals, Nat.lt_succ_self fuel⟩

theorem runPrepared_ends {m : Module} {prep : Prep} (prepared : Prepared m prep) (fits : callsFit m = true)
    (mem : MemOk prep prep.mem) (globals : GlobalsOk m prep prep.mem) {fn : Name} {f : Func} (named : prep.funcs fn = some f)
    {args : List Word} (given : ArgsGiven prep f args) (fuel : Nat) :
    Ends Gap (fun r => OutcomeOk prep r.2.mem f.ret r.1) (runPrepared prep fn args fuel) := by
  simp only [runPrepared, named, given.fit, if_true]
  exact (calls_ends prepared fits (fuel + 1) f (prepared.named named) args _ given.ok mem globals (Nat.lt_succ_self fuel)).mono
    fun r returned => returned.outcome

theorem run_ends {m : Module} (valid : validModule m = true) (fits : callsFit m = true) (defined : symbolsDefined m = true)
    (unknown : Int → Fin 256) :
    ∃ prep, modulePrepared m unknown = .ok prep ∧ ∀ fn f args fuel, prep.funcs fn = some f → ArgsGiven prep f args →
      ((∃ out s, run m unknown fn args fuel = .ok (out, s)) ∨ ∃ e, run m unknown fn args fuel = .error e ∧ Gap e) ∧
      ∀ c, RunsTo prep (.first prep f args fuel) c → c.InRange prep := by
  have ready := modulePrepared_ends valid (fun _ => defined) unknown
  cases done : modulePrepared m unknown with
  | error e => exact (ready.failure done).elim
  | ok prep =>
    obtain ⟨prepared, mem, globals⟩ := ready.result done
    refine ⟨prep, rfl, fun fn f args fuel named given => ⟨?_, fun c runs => ?_⟩⟩
    · have ends := runPrepared_ends prepared fits mem globals named given fuel
      simp only [run, done, bind, Except.bind]
      cases ran : runPrepared prep fn args fuel with
      | ok r => exact .inl ⟨r.1, r.2, rfl⟩
      | error e => exact .inr ⟨e, rfl, ends.failure ran⟩
    · exact (runs.ok prepared fits (Config.first_ok (prepared.named named) given mem globals fuel)).inRange

/-- A loop that counts to its argument. -/
def count : Func :=
  { name := "count", linkage := .export_, ret := .cls .w, params := [⟨.w, "n"⟩],
    blocks := [⟨"start", [], [], .goto (.label "loop")⟩,
               ⟨"loop", [⟨"i", .w, [("start", .const 0), ("loop", .tmp "j")]⟩],
                [.let_ "j" .w .add [.tmp "i", .const 1], .let_ "more" .w (.cmp .slt .w) [.tmp "j", .tmp "n"]],
                .branch (.tmp "more") (.label "loop") (.label "done")⟩,
               ⟨"done", [], [], .ret (.tmp "j")⟩] }

theorem run_ends_count :
    ∃ prep, modulePrepared ⟨[.func count]⟩ (fun _ => 0) = .ok prep ∧
      ((∃ out s, run ⟨[.func count]⟩ (fun _ => 0) "count" [.int 3] 9 = .ok (out, s)) ∨
        ∃ e, run ⟨[.func count]⟩ (fun _ => 0) "count" [.int 3] 9 = .error e ∧ Gap e) ∧
      ∀ c, RunsTo prep (.first prep count [.int 3] 9) c → c.InRange prep := by
  obtain ⟨prep, done, ends⟩ := run_ends (m := ⟨[.func count]⟩) (by decide +kernel) (by decide +kernel) (by decide +kernel)
    (fun _ => 0)
  have named : prep.funcs "count" = some count := by
    rw [(modulePrepared_cases done).2.1]
    decide +kernel
  refine ⟨prep, done, ends "count" count [.int 3] 9 named ⟨by decide, fun pa h => ?_, fun x h => ?_⟩⟩
  · rw [List.mem_singleton.1 h]
    exact fun pointer => by cases pointer
  · exact .inl ⟨3, List.mem_singleton.1 h⟩

/-! ### Accepted modules that get stuck, and integers out of range -/

def oneBlock (name : Name) (ret : Ret) (params : List Param) (insts : List Inst) (jump : Jump) : Func :=
  { name := name, linkage := .export_, ret := ret, params := params, blocks := [⟨"start", [], insts, jump⟩] }

/-- Loads through its parameter, for which an integer may be passed. -/
def loads : Module :=
  ⟨[.func (oneBlock "f" (.cls .l) [⟨.p, "p"⟩] [.let_ "x" .l (.load .l) [.tmp "p"]] (.ret (.tmp "x")))]⟩

/-- Data that holds the address of a symbol from outside. -/
def outside : Module := ⟨[.data ⟨"g", .export_, 8, [.sym .l "h" 0]⟩, .func (oneBlock "f" .void [] [] .retVoid)]⟩

/-- Calls an alias without the argument that its function takes. -/
def aliased : Module :=
  ⟨[.func (oneBlock "g" .void [⟨.w, "x"⟩] [] .retVoid), .alias ⟨"h", .export_, "g"⟩,
    .func (oneBlock "f" .void [] [.call .void (.global "h") []] .retVoid)]⟩

/-- Calls its parameter, a function that returns as `g`, and reads `res`. -/
def callsThrough (ret : Ret) (jump : Jump) (res : CallRes) : Module :=
  ⟨[.func (oneBlock "g" ret [] [] jump), .func (oneBlock "f" .void [⟨.p, "p"⟩] [.call res (.tmp "p") []] .retVoid)]⟩

/-- Passes a long double to its checked parameter. -/
def passesX : Module :=
  ⟨[.func (oneBlock "g" .void [⟨.w, "x"⟩] [] .retVoid),
    .func (oneBlock "f" .void [⟨.p, "p"⟩]
      [.let_ "q" .f .checkFunction [.tmp "p"], .rawCall .void (.tmp "q") [⟨.x, .const 0⟩]] .retVoid)]⟩

def takesWord : Func := oneBlock "g" .void [⟨.w, "x"⟩] [] .retVoid
def passesLong : Func := oneBlock "f" .void [⟨.p, "p"⟩] [.call .void (.tmp "p") [⟨.l, .const 4294967296⟩]] .retVoid

theorem passesLong_runs (globals : Name → Option Word) (known : globals "g" = some (.ptr 65536 (.fn "g"))) (mem : Mem) :
    ∃ env s, RunsTo ⟨preparedFuncs ⟨[.func takesWord, .func passesLong]⟩, globals, .filc, mem⟩
      (.calls 2 passesLong [.ptr 65536 (.fn "g")] ⟨mem, 1, fun _ => none⟩) (.enters 1 takesWord "start" none env s) ∧
      classOf takesWord "x" = some .w ∧ env.vals "x" = some (.int 4294967296) := by
  let prep : Prep := ⟨preparedFuncs ⟨[.func takesWord, .func passesLong]⟩, globals, .filc, mem⟩
  have enters : ∀ s : St, Step prep (.calls 1 takesWord [.int 4294967296] s)
      (.enters 1 takesWord "start" none (emptyEnv.put "x" (.int 4294967296))
        { mem := s.mem, fuel := s.fuel, locals := freshLocals takesWord }) :=
    fun s => @Step.entry _ 1 takesWord _ s _ _ ⟨"start", [], [], .retVoid⟩ _ rfl rfl rfl
  have target : functionCheckRes prep (65536, .fn "g") = .ok .ok := by simp [functionCheckRes, capFunctionRes, prep, known]
  have makes : ∀ s, Makes prep (.call .void (.tmp "p") [⟨.l, .const 4294967296⟩]) (emptyEnv.put "p" (.ptr 65536 (.fn "g"))) s
      takesWord [.int 4294967296] := fun s => by
    refine makes_of_inst rfl ⟨fun r => callOutcomeResult r.1 .void (emptyEnv.put "p" (.ptr 65536 (.fn "g"))) r.2, fun call => ?_⟩
    show (do
      let check ← functionCheckRes prep (65536, .fn "g")
      checkedCallResult call prep (checkToRes check) (.fn "g") .void _ [.int 4294967296] _ _) = _
    rw [target]
    rfl
  exact ⟨_, _, .head (.entry rfl rfl rfl) (.head (.phis Nat.one_ne_zero rfl rfl) (.head (.call rfl (makes _)) (.single (enters _)))),
    rfl, rfl⟩

/-- Allocates twice, the second time past what a long holds. -/
def allocatesFar : Block :=
  ⟨"start", [], [.let_ "a" .l (.alloc 16) [.const 18446744073709551615], .let_ "b" .l (.alloc 16) [.const 1]], .retVoid⟩

def allocates : Func := { name := "f", linkage := .export_, ret := .void, params := [], blocks := [allocatesFar] }

theorem allocates_runs (funcs : Name → Option Func) (mem : Mem) (next : mem.next = stackBase) :
    ∃ env s, RunsTo ⟨funcs, fun _ => none, .plain, mem⟩ (.calls 2 allocates [] ⟨mem, 1, fun _ => none⟩)
      (.stands 1 allocates allocatesFar 2 env s) ∧ classOf allocates "b" = some .l ∧ env.vals "b" = some (.int 18446744078004518928) := by
  cases mem
  cases next
  exact ⟨_, _, .head (.entry rfl rfl rfl) (.head (.phis Nat.one_ne_zero rfl rfl) (.head (.inst rfl rfl) (.single (.inst rfl rfl)))),
    rfl, rfl⟩

theorem run_stuck :
    (validModule loads = true ∧ (run loads (fun _ => 0) "f" [.int 0] 1).map (·.1) = .error .noRule) ∧
    (validModule outside = true ∧ (run outside (fun _ => 0) "f" [] 1).map (·.1) = .error .noRule) ∧
    (validModule aliased = true ∧ (run aliased (fun _ => 0) "f" [] 2).map (·.1) = .error .noRule) ∧
    (validModule (callsThrough (.cls .w) (.ret (.const 0)) (.tuple [("r", .w)])) = true ∧
      (run (callsThrough (.cls .w) (.ret (.const 0)) (.tuple [("r", .w)])) (fun _ => 0) "f" [.ptr 65536 (.fn "g")] 2).map (·.1) =
        .error .noRule) ∧
    (validModule (callsThrough (.tuple [.l, .l]) (.rets [.const 0, .const 0]) (.tuple [("r", .x), ("t", .l)])) = true ∧
      (run (callsThrough (.tuple [.l, .l]) (.rets [.const 0, .const 0]) (.tuple [("r", .x), ("t", .l)])) (fun _ => 0) "f"
        [.ptr 65536 (.fn "g")] 2).map (·.1) = .error .noRule) ∧
    (validModule passesX = true ∧ (run passesX (fun _ => 0) "f" [.ptr 65536 (.fn "g")] 2).map (·.1) = .error .noRule) ∧
    (validModule ⟨[.func takesWord, .func passesLong]⟩ = true ∧
      ∃ prep, modulePrepared ⟨[.func takesWord, .func passesLong]⟩ (fun _ => 0) = .ok prep ∧
        ∃ env s, RunsTo prep (.first prep passesLong [.ptr 65536 (.fn "g")] 1) (.enters 1 takesWord "start" none env s) ∧
          classOf takesWord "x" = some .w ∧ env.vals "x" = some (.int 4294967296)) ∧
    (validModule ⟨[.func allocates]⟩ = true ∧
      ∃ prep, modulePrepared ⟨[.func allocates]⟩ (fun _ => 0) = .ok prep ∧
        ∃ env s, RunsTo prep (.first prep allocates [] 1) (.stands 1 allocates allocatesFar 2 env s) ∧
          classOf allocates "b" = some .l ∧ env.vals "b" = some (.int 18446744078004518928)) := by
  refine ⟨⟨?_, ?_⟩, ⟨?_, ?_⟩, ⟨?_, ?_⟩, ⟨?_, ?_⟩, ⟨?_, ?_⟩, ⟨?_, ?_⟩, ⟨?_, ?_⟩, ⟨?_, ?_⟩⟩
  case refine_13 => decide +kernel
  case refine_14 =>
    refine ⟨_, rfl, ?_⟩
    exact passesLong_runs _ rfl _
  case refine_15 => decide +kernel
  case refine_16 =>
    refine ⟨_, rfl, ?_⟩
    exact allocates_runs _ _ rfl
  all_goals decide +kernel

end Nanofil
