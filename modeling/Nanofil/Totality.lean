import Nanofil.Calls

/-! Runs of an accepted module are never stuck: the state is in order before every
instruction, past every edge and where every call begins. -/
namespace Nanofil
open List Option Results

theorem Left.trans {prep : Prep} {s s' s'' : St} (first : Left prep s s') (second : Left prep s' s'') : Left prep s s'' :=
  ⟨second.mem, first.grows.trans second.grows, second.fuel.trans first.fuel,
    fun plain => (second.plain plain).trans (first.plain plain)⟩

section
variable {m : Module} {prep : Prep} {f : Func} {low : Int} {b : Block} {k : Nat} {i : Inst} {env env' : Env} {s s' : St}

theorem ValidFunc.inst {mode : Mode} {stage : Stage} (valid : ValidFunc m mode stage f) (mem_b : b ∈ f.blocks)
    (at_ : b.insts[k]? = some i) : validInst (funcCtx m mode f) i = true := by
  have block := valid.blocks b mem_b
  simp only [validBlock, Bool.and_eq_true, List.all_eq_true] at block
  exact block.1.1.2 i (mem_of_getElem? at_)

/-! ### Steps -/

theorem Placed.step {mode : Mode} {stage : Stage} (valid : ValidFunc m mode stage f) (mem_b : b ∈ f.blocks)
    (at_ : b.insts[k]? = some i) (placed : Placed f s.locals b.label k) (moves : Moves prep i s s') :
    Placed f s'.locals b.label (k + 1) := by
  obtain ⟨entry, rest, blocks, ok⟩ := valid.entryBlock
  have here : ∀ n, b.label = blocksEntry f.blocks → DeclaredAt f n k → ∃ size, i = .localAlloc n size := by
    intro n label declared
    obtain ⟨size, there⟩ := (declaredAt_iff blocks).1 declared
    have same : b = entry := by
      refine label_inj valid.labels mem_b ?_ (label.trans (blocksEntry_eq blocks))
      rw [blocks]
      exact mem_cons_self
    subst same
    rw [at_] at there
    exact ⟨size, Option.some.inj there⟩
  intro n j declared
  obtain ⟨before, past⟩ := placed n j declared
  cases moves with
  | same notAlloc locals =>
    rw [locals]
    refine ⟨fun ⟨label, le⟩ => before ⟨label, by omega⟩, fun later => past fun ⟨label, le⟩ => ?_⟩
    by_cases last : j = k
    · subst last
      obtain ⟨size, isAlloc⟩ := here n label declared
      exact notAlloc n size isAlloc
    · exact later ⟨label, by omega⟩
  | @begins n0 size base isAlloc unbound locals allocated =>
    obtain ⟨label, declared0⟩ := localAlloc_entry blocks ok mem_b (isAlloc ▸ at_)
    rw [locals]
    unfold bindLocal
    by_cases same : n = n0
    · subst same
      have := declaredAt_inj blocks ok declared declared0
      rw [if_pos rfl]
      exact ⟨fun ⟨_, le⟩ => by omega, fun _ => ⟨base, rfl⟩⟩
    · rw [if_neg same]
      refine ⟨fun ⟨label, le⟩ => before ⟨label, by omega⟩, fun later => past fun ⟨label, le⟩ => ?_⟩
      by_cases last : j = k
      · subst last
        obtain ⟨size', isAlloc'⟩ := here n label declared
        rw [isAlloc] at isAlloc'
        cases isAlloc'
        exact same rfl
      · exact later ⟨label, by omega⟩

theorem Moves.frame (moves : Moves prep i s s') (left : Left prep s s') (ok : MemOk prep s.mem)
    (above : low ≤ s.mem.next) (frame : Frame f low s.locals s.mem) : Frame f low s'.locals s'.mem := by
  cases moves with
  | same _ locals => exact locals ▸ frame.grows left.grows
  | begins _ unbound locals allocated => exact locals ▸ frame.bind ok unbound above allocated

theorem InOrder.next {mode : Mode} {stage : Stage} (valid : ValidFunc m mode stage f) (mem_b : b ∈ f.blocks)
    (at_ : b.insts[k]? = some i) (here : InOrder m prep f low b k env s) (ran : InstOk prep f i env s (.cont env' s')) :
    InOrder m prep f low b (k + 1) env' s' := by
  obtain ⟨left, moves, defines⟩ := ran
  have inside := (List.getElem?_eq_some_iff.1 at_).1
  refine ⟨reachable_next mem_b (by omega) (by omega) here.reached, fun n x known => ?_, fun n est => ?_, fun variadic => ?_,
    left.mem, here.globals.grows left.grows, here.above.trans left.grows.next,
    moves.frame left here.mem here.above here.frame, here.placed.step valid mem_b at_ moves⟩
  · by_cases def_ : n ∈ instDefs i
    · obtain ⟨y, known', slot⟩ := defines.new n def_
      rw [known] at known'
      cases known'
      exact slot
    · exact (here.typed n x (defines.old n def_ ▸ known)).grows left.grows
  · by_cases def_ : n ∈ instDefs i
    · obtain ⟨y, known, _⟩ := defines.new n def_
      exact known ▸ rfl
    · rw [defines.old n def_]
      exact here.assigned n ((established_next valid.ssa mem_b at_ est).resolve_right def_)
  · obtain ⟨a, c, snapshot, cap⟩ := here.snapshot variadic
    exact ⟨a, c, defines.snapshot.trans snapshot, cap.grows left.grows⟩

/-! ### Doomed runs -/

theorem doomed_ends {stage : Stage} (valid : ValidFunc m prep.mode stage f) (limits : LimitsRead f) (mem_b : b ∈ f.blocks)
    (at_ : b.insts[k]? = some i) (here : InOrder m prep f low b k env s)
    (accepted : validInst (funcCtx m prep.mode f) i = true) {r : Result} (ran : InstOk prep f i env s r) :
    Ends Gap (InstOk prep f i env s) (doomedResult prep i env r) := by
  unfold doomedResult
  split
  · rename_i d v why s' ahead
    obtain ⟨left, locals, _⟩ := ran
    unfold aheadInst at ahead
    split at ahead <;> cases ahead
    rcases validLet_cases accepted with ⟨_, h, _⟩ | ⟨ks, ok⟩
    · cases h
    obtain ⟨_, rfl⟩ := filcClasses_some ok.classes
    have uses := ok.uses
    simp only [validUses, Bool.and_true] at uses
    refine (reads_ends valid limits mem_b at_ here rfl uses fun n same => mem_temps.2 (same ▸ mem_cons_self)).bind
      fun p word => Ends.pure ⟨left, .same (fun n size h => by cases h) locals, ?_⟩
    obtain ⟨a, c, rfl, cap, _⟩ := word.toPtr
    have slot : Slot prep s'.mem f d (.ptr a c) :=
      .held (inst_class valid mem_b at_ (mem_singleton.2 rfl)) (WordOk.held (.proof rfl (cap.grows left.grows)))
    exact ⟨(Defines.put slot).old, (Defines.put slot).new, rfl⟩
  · rename_i w s' _
    obtain ⟨left, locals, stops⟩ := ran
    split
    · split
      · exact Ends.ok ⟨left, locals, stops⟩
      · exact Ends.ok ⟨left, locals, trivial⟩
    · exact Ends.ok ⟨left, locals, stops⟩
  · exact Ends.ok ran

end

/-! ### A block's instructions -/

/-- What a block's instructions leave: an order past them all, or a stop. -/
def InstsOk (m : Module) (prep : Prep) (f : Func) (low : Int) (b : Block) (s : St) : Result → Prop
  | .stop out s' => Left prep s s' ∧ Frame f low s'.locals s'.mem ∧ out.Stops
  | .cont env' s' => Left prep s s' ∧ InOrder m prep f low b b.insts.length env' s'

section
variable {m : Module} {prep : Prep} {f : Func} {low : Int} {b : Block} {call : Call} {n : Nat} (prepared : Prepared m prep)
  (mem_f : f ∈ m.funcs) (limits : LimitsRead f) (fits : ∀ i ∈ f.insts, callFits m i = true) (mem_b : b ∈ f.blocks)
  (calls : CallsOk m prep n call)
include prepared mem_f limits fits mem_b calls

theorem insts_ends {is : List Inst} : ∀ {k : Nat} {env : Env} {s : St}, k ≤ b.insts.length → b.insts.drop k = is →
    InOrder m prep f low b k env s → s.fuel < n →
    Ends Gap (InstsOk m prep f low b s) (instsResult call prep is env s) := by
  have valid := prepared.func mem_f
  induction is with
  | nil =>
    intro k env s le rest here _
    have last : k = b.insts.length := le_antisymm le (drop_eq_nil_iff.1 rest)
    subst last
    exact Ends.ok ⟨.same here.mem, here⟩
  | cons i is ih =>
    intro k env s le rest here fuel
    have at_ : b.insts[k]? = some i := by
      rw [← head?_drop, rest]
      rfl
    have after : b.insts.drop (k + 1) = is := by
      rw [← tail_drop, rest]
      rfl
    have inside := (List.getElem?_eq_some_iff.1 at_).1
    have accepted := valid.inst mem_b at_
    have fit := fits i (mem_flatMap.2 ⟨b, mem_b, mem_of_getElem? at_⟩)
    unfold instsResult
    split
    · exact Ends.ok ⟨.same here.mem, here.frame, trivial⟩
    · refine (inst_ends prepared mem_f limits mem_b at_ here calls fuel accepted fit).bind fun r0 ran =>
        (doomed_ends valid limits mem_b at_ here accepted ran).bind fun r ran => ?_
      cases r with
      | stop out s' =>
        obtain ⟨left, locals, stops⟩ := ran
        exact Ends.pure ⟨left, locals ▸ here.frame.grows left.grows, stops⟩
      | cont env' s' =>
        have next := here.next valid mem_b at_ ran
        refine (ih inside after next (lt_of_le_of_lt ran.1.fuel fuel)).mono
          fun r done => ?_
        cases r with
        | stop out s'' => exact ⟨ran.1.trans done.1, done.2⟩
        | cont env'' s'' => exact ⟨ran.1.trans done.1, done.2⟩

end

/-! ### Entering a block -/

/-- The edge a block is entered over, with what its phis may read there; none where a call begins. -/
def From (f : Func) (b : Block) (env : Env) : Option Name → Prop
  | none => b.phis = []
  | some l => ∃ p ∈ f.blocks, p.label = l ∧ b.label ∈ jumpLabels p.jump ∧
      ReachablePoint f.blocks ⟨p.label, p.insts.length⟩ ∧
      ∀ n, Established f.params f.blocks n ⟨p.label, p.insts.length⟩ → (env.vals n).isSome

structure Arriving (m : Module) (prep : Prep) (f : Func) (low : Int) (b : Block) (pred : Option Name) (env : Env) (s : St) :
    Prop where
  reached : ReachablePoint f.blocks ⟨b.label, -1⟩
  typed : EnvTyped prep s.mem f env
  assigned : ∀ n, Established f.params f.blocks n ⟨b.label, -1⟩ → (env.vals n).isSome
  snapshot : variadicFunc f = true → ∃ a c, env.snapshot = some (.ptr a c) ∧ CapOk prep s.mem c
  mem : MemOk prep s.mem
  globals : GlobalsOk m prep s.mem
  above : low ≤ s.mem.next
  frame : Frame f low s.locals s.mem
  placed : Placed f s.locals b.label 0
  edge : From f b env pred

section
variable {m : Module} {prep : Prep} {stage : Stage} {f : Func} {low : Int} {b : Block} {pred : Option Name} {env : Env}
  {s : St} (valid : ValidFunc m prep.mode stage f) (limits : LimitsRead f) (mem_b : b ∈ f.blocks)
  (arriving : Arriving m prep f low b pred env s)
include valid limits mem_b arriving

theorem phi_ends {ph : Phi} (phi : ph ∈ b.phis) {l : Name} (edge : pred = some l) :
    ∃ pv, ph.pairs.find? (fun pv => pv.1 = l) = some pv ∧ Ends Gap (WordOk prep s.mem ph.cls) (valueX prep env ph.cls pv.2) := by
  have from_ := arriving.edge
  rw [edge] at from_
  obtain ⟨p, mem_p, rfl, jumps, reached, assigned⟩ := from_
  have block := valid.blocks b mem_b
  simp only [validBlock, Bool.and_eq_true, List.all_eq_true] at block
  have typed := block.1.1.1 ph phi
  simp only [validPhi, Bool.and_eq_true, decide_eq_true_eq, List.all_eq_true] at typed
  obtain ⟨labels, uses⟩ := typed
  have named : p.label ∈ ph.pairs.map (·.1) := by
    rw [← mem_dedup, ← mem_sortNames, labels]
    simp only [predecessors, mem_sortNames, mem_dedup, List.mem_map, mem_filter, decide_eq_true_eq]
    exact ⟨p, ⟨mem_p, jumps⟩, rfl⟩
  obtain ⟨pv0, mem0, named0⟩ := List.mem_map.1 named
  have found : (ph.pairs.find? (fun pv => pv.1 = p.label)).isSome := find?_isSome.2 ⟨pv0, mem0, by simpa using named0⟩
  obtain ⟨pv, found⟩ := isSome_iff_exists.1 found
  have mem_pv := mem_of_find?_eq_some found
  have here : pv.1 = p.label := by simpa using find?_some found
  refine ⟨pv, found, valueX_ends arriving.globals arriving.typed (uses pv mem_pv) fun n same => ⟨?_, ?_⟩⟩
  · refine assigned n (phi_use valid.ssa mem_b mem_p arriving.reached reached phi (n := n) ?_)
    rw [← here, ← same]
    exact mem_pv
  · rcases limits with none | reads
    · rw [none]
      exact not_mem_nil
    · have reads := reads b mem_b
      simp only [blockLimitReads, Bool.and_eq_true, List.all_eq_true] at reads
      simpa using reads.2 ph phi n (mem_temps.2 (same ▸ List.mem_map_of_mem mem_pv))

/-- The phis bind their words at once, whatever others they have bound. -/
theorem phisEnv_ends {phis : List Phi} : ∀ {env' : Env}, (∀ ph ∈ phis, ph ∈ b.phis) →
    Ends Gap (Defines prep s.mem f (phis.map (·.dst)) env') (phisEnv prep pred env phis env') := by
  induction phis with
  | nil => exact fun _ => Ends.ok (.none _)
  | cons ph phis ih =>
    intro env' sub
    have phi := sub ph mem_cons_self
    cases edge : pred with
    | none =>
      have none := arriving.edge
      rw [edge] at none
      have none : b.phis = [] := none
      rw [none] at phi
      cases phi
    | some l =>
      obtain ⟨pv, found, value⟩ := phi_ends valid limits mem_b arriving phi edge
      have defined : classOf f ph.dst = some ph.cls := by
        refine classOf_def valid.classes ?_
        simp only [tempClasses, mem_append, mem_flatMap]
        exact .inr ⟨b, mem_b, .inl (List.mem_map_of_mem phi)⟩
      rw [edge] at ih
      simp only [phisEnv, found]
      exact value.bind fun x word =>
        (ih fun ph h => sub ph (mem_cons_of_mem _ h)).mono fun env'' rest =>
          (Defines.put (.held defined word.held)).trans rest

omit limits in
theorem Arriving.phis {env' : Env} (defines : Defines prep s.mem f (b.phis.map (·.dst)) env env') :
    InOrder m prep f low b 0 env' s := by
  refine ⟨reachable_next mem_b (by omega) (by omega) arriving.reached, fun n x known => ?_, fun n est => ?_, fun variadic => ?_,
    arriving.mem, arriving.globals, arriving.above, arriving.frame, arriving.placed⟩
  · by_cases def_ : n ∈ b.phis.map (·.dst)
    · obtain ⟨y, known', slot⟩ := defines.new n def_
      rw [known] at known'
      cases known'
      exact slot
    · exact arriving.typed n x (defines.old n def_ ▸ known)
  · by_cases def_ : n ∈ b.phis.map (·.dst)
    · obtain ⟨y, known, _⟩ := defines.new n def_
      exact known ▸ rfl
    · rw [defines.old n def_]
      refine arriving.assigned n ((established_phis valid.ssa mem_b est).resolve_right ?_)
      rintro ⟨ph, phi, named⟩
      exact def_ (List.mem_map.2 ⟨ph, phi, named⟩)
  · exact defines.snapshot ▸ arriving.snapshot variadic

end

/-! ### Leaving a block -/

/-- What a function's blocks end in: an outcome of its return type, with its locals to end. -/
structure BlockOk (prep : Prep) (f : Func) (low : Int) (s : St) (r : Outcome × St) : Prop where
  outcome : OutcomeOk prep r.2.mem f.ret r.1
  left : Left prep s r.2
  frame : Frame f low r.2.locals r.2.mem

theorem Outcome.Stops.ok {prep : Prep} {mem : Mem} {ret : Ret} {out : Outcome} (stops : out.Stops) :
    OutcomeOk prep mem ret out := by
  cases out <;> first | exact stops.elim | exact trivial

section
variable {m : Module} {prep : Prep} {stage : Stage} {f : Func} {low : Int} {b : Block} {env : Env} {s : St}
  (valid : ValidFunc m prep.mode stage f) (limits : LimitsRead f) (mem_b : b ∈ f.blocks)
  (here : InOrder m prep f low b b.insts.length env s)
include valid mem_b here

theorem InOrder.edge {b' : Block} (jumps : b'.label ∈ jumpLabels b.jump) :
    Arriving m prep f low b' (some b.label) env s := by
  obtain ⟨entry, rest, blocks, ok⟩ := valid.entryBlock
  refine ⟨here.reached.step (.jump mem_b jumps), here.typed,
    fun n est => here.assigned n (established_edge valid.ssa mem_b jumps est), here.snapshot, here.mem, here.globals,
    here.above, here.frame, fun n j declared => ⟨fun placed => ?_, fun _ => ?_⟩,
    ⟨b, mem_b, rfl, jumps, here.reached, here.assigned⟩⟩
  · obtain ⟨label, -⟩ := placed
    have noEntry := valid.entry
    rw [blocksEntry_eq blocks] at label
    rw [blocks] at noEntry mem_b
    simp only [noEntryJump, List.all_eq_true, decide_eq_true_eq] at noEntry
    exact absurd (label ▸ jumps) (noEntry b mem_b)
  · refine (here.placed n j declared).2 fun placed => ?_
    obtain ⟨label, le⟩ := placed
    obtain ⟨size, at_⟩ := (declaredAt_iff blocks).1 declared
    have same : b = entry := by
      refine label_inj valid.labels mem_b ?_ (label.trans (blocksEntry_eq blocks))
      rw [blocks]
      exact mem_cons_self
    subst same
    have := (List.getElem?_eq_some_iff.1 at_).1
    omega

include limits in
theorem jump_readable {v : Value} (use : ∀ n, v = .tmp n → n ∈ jumpUses b.jump) : Readable f env v := by
  refine fun n same => ⟨here.assigned n (jump_use valid.ssa mem_b here.reached (use n same)), ?_⟩
  rcases limits with none | reads
  · rw [none]
    exact not_mem_nil
  · have reads := reads b mem_b
    simp only [blockLimitReads, Bool.and_eq_true, List.all_eq_true] at reads
    simpa using reads.1.2 n (use n same)

variable {enter : Enter} (enters : ∀ b' ∈ f.blocks, Arriving m prep f low b' (some b.label) env s →
  Ends Gap (BlockOk prep f low s) (enter b'.label (some b.label) env s))

omit valid mem_b in
theorem blockOk_here {out : Outcome} (ok : OutcomeOk prep s.mem f.ret out) : BlockOk prep f low s (out, s) :=
  ⟨ok, .same here.mem, here.frame⟩

include enters

theorem edge_ends {t : Target} (exists_ : targetExists (funcCtx m prep.mode f) t = true)
    (jumps : edgeLabel t ∈ jumpLabels b.jump) : Ends Gap (BlockOk prep f low s) (edgeOutcome enter t b.label env s) := by
  have label : edgeLabel t ∈ f.blocks.map (·.label) := by simpa [targetExists, funcCtx] using exists_
  obtain ⟨b', mem_b', same⟩ := List.mem_map.1 label
  have arrives := enters b' mem_b' (here.edge valid mem_b (same ▸ jumps))
  rw [same] at arrives
  unfold edgeOutcome
  split
  · exact Ends.ok (blockOk_here here trivial)
  · exact arrives

include limits

theorem jump_ends : Ends Gap (BlockOk prep f low s) (jumpOutcome enter ⟨prep, f⟩ b.jump b.label env s) := by
  have block := valid.blocks b mem_b
  simp only [validBlock, Bool.and_eq_true] at block
  have accepted := block.1.2
  have readable : ∀ {v : Value}, (∀ n, v = .tmp n → n ∈ jumpUses b.jump) → Readable f env v :=
    jump_readable valid limits mem_b here
  have edges : ∀ {t}, targetExists (funcCtx m prep.mode f) t = true → edgeLabel t ∈ jumpLabels b.jump →
      Ends Gap (BlockOk prep f low s) (edgeOutcome enter t b.label env s) := edge_ends valid mem_b here enters
  cases jump : b.jump with
  | goto t =>
    rw [jump] at accepted edges
    exact edges accepted mem_cons_self
  | branch v t1 t2 =>
    rw [jump] at accepted edges readable
    simp only [validJump, Bool.and_eq_true] at accepted
    refine (valueX_ends here.globals here.typed accepted.1.1 (readable fun n same => mem_temps.2 (by simp [same]))).bind
      fun x word => ?_
    obtain ⟨n, rfl, _⟩ := word.toInt rfl
    refine (Ends.ok (Q := fun k => k = n) rfl).bind fun k same => ?_
    split
    · exact edges accepted.1.2 mem_cons_self
    · exact edges accepted.2 (mem_cons_of_mem _ mem_cons_self)
  | ret v =>
    rw [jump] at accepted readable
    simp only [jumpOutcome, retOutcome, Ctx.ret]
    cases ret : f.ret with
    | cls k =>
      simp only [validJump, show (funcCtx m prep.mode f).ret = .cls k from ret, Bool.and_eq_true] at accepted
      have value : Ends Gap (WordOk prep s.mem k) (valueX prep env k v) :=
        valueX_ends here.globals here.typed accepted.2 (readable fun n same => mem_temps.2 (by simp [same]))
      have out : Ends Gap (OutcomeOk prep s.mem f.ret) (do return .ret (← valueX prep env k v)) :=
        value.bind fun x word => Ends.pure ⟨k, ret, word⟩
      exact out.bind fun o ok => Ends.pure (blockOk_here here ok)
    | void | tuple => simp [validJump, funcCtx, ret] at accepted
  | rets vs =>
    rw [jump] at accepted readable
    simp only [jumpOutcome, retsOutcome, Ctx.ret]
    cases ret : f.ret with
    | tuple ks =>
      simp only [validJump, show (funcCtx m prep.mode f).ret = .tuple ks from ret] at accepted
      have values : Ends Gap (WordsOk prep s.mem ks) (valuesX prep env ks vs) :=
        valuesX_ends here.globals here.typed accepted fun v h => readable fun n same => mem_temps.2 (same ▸ h)
      have out : Ends Gap (OutcomeOk prep s.mem f.ret) (do return .rets (← valuesX prep env ks vs)) :=
        values.bind fun xs words => Ends.pure ⟨ks, ret, words⟩
      exact out.bind fun o ok => Ends.pure (blockOk_here here ok)
    | void | cls => simp [validJump, funcCtx, ret] at accepted
  | retVoid =>
    rw [jump] at accepted
    have ret : f.ret = .void := of_decide_eq_true accepted
    exact Ends.ok (blockOk_here here ret)
  | unreachable => exact Ends.ok (blockOk_here here trivial)

theorem exit_ends : Ends Gap (BlockOk prep f low s) (resultOutcome enter ⟨prep, f⟩ (.cont env s) b.jump b.label) := by
  unfold resultOutcome
  dsimp only
  split
  · exact Ends.ok (blockOk_here here trivial)
  · exact jump_ends valid limits mem_b here enters

end

end Nanofil
