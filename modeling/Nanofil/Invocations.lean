import Nanofil.Totality

/-! Invocations of accepted functions: by induction on the depth left, every block and
every call of a run ends as it may. -/
namespace Nanofil
open List Results

/-- Every call of a module's functions passes and reads what its callee takes and returns. -/
def callsFit (m : Module) : Bool := m.funcs.all (fun f => f.insts.all (callFits m))

theorem ValidFunc.limitsRead {m : Module} {mode : Mode} {f : Func} (valid : ValidFunc m mode (moduleStage m) f)
    (mem_f : f ∈ m.funcs) : LimitsRead f := by
  have stage := valid.stage
  cases staged : moduleStage m with
  | checked =>
    rw [staged] at stage
    simp only [stageFunc] at stage
    split at stage
    · simp only [Bool.and_eq_true] at stage
      have limits := stage.1.2
      unfold limitReads at limits
      split at limits
      · rename_i none
        exact .inl none
      · exact .inr (all_eq_true.1 limits)
    · cases stage
  | unchecked =>
    left
    refine eq_nil_iff_forall_not_mem.2 fun n found => ?_
    simp only [limitNames, mem_filterMap, blocksInsts, mem_flatMap] at found
    obtain ⟨i, ⟨b, mem_b, mem_i⟩, limit⟩ := found
    have checked : checkedInst i = true := by
      split at limit <;> cases limit
      rfl
    have none : ¬(m.funcs.any (fun f => f.blocks.any (fun b => b.insts.any checkedInst || checkedJump b.jump)) = true) := by
      intro any
      simp [moduleStage, any] at staged
    refine none (any_eq_true.2 ⟨f, mem_f, any_eq_true.2 ⟨b, mem_b, ?_⟩⟩)
    rw [any_eq_true.2 ⟨i, mem_i, checked⟩]
    rfl

/-! ### Blocks -/

/-- The blocks of accepted functions end as they may, with less fuel than `n`. -/
def BlocksOk (m : Module) (prep : Prep) (n : Nat) (enterIn : EnterIn) : Prop :=
  ∀ f ∈ m.funcs, ∀ low, ∀ b ∈ f.blocks, ∀ pred env s, Arriving m prep f low b pred env s → s.fuel < n →
    Ends Gap (BlockOk prep f low s) (enterIn ⟨prep, f⟩ b.label pred env s)

theorem Arriving.fuel {m : Module} {prep : Prep} {f : Func} {low : Int} {b : Block} {pred : Option Name} {env : Env} {s : St}
    (arriving : Arriving m prep f low b pred env s) (k : Nat) :
    Arriving m prep f low b pred env { s with fuel := k } :=
  ⟨arriving.reached, arriving.typed, arriving.assigned, arriving.snapshot, arriving.mem, arriving.globals, arriving.above,
    arriving.frame, arriving.placed, arriving.edge⟩

theorem BlockOk.after {prep : Prep} {f : Func} {low : Int} {s s' : St} {r : Outcome × St} (left : Left prep s s')
    (ok : BlockOk prep f low s' r) : BlockOk prep f low s r :=
  ⟨ok.outcome, left.trans ok.left, ok.frame⟩

theorem Left.fuel_le {prep : Prep} {s : St} (ok : MemOk prep s.mem) {k : Nat} (le : k ≤ s.fuel) :
    Left prep s { s with fuel := k } :=
  ⟨ok, .refl _, le, fun _ => rfl⟩

/-- One block, given what calls and later blocks do with a step less. -/
theorem block_step {m : Module} {prep : Prep} (prepared : Prepared m prep) (fits : callsFit m = true) {n : Nat}
    (calls : CallsOk m prep n (callOutcome (blockOutcome n) prep)) (blocks : BlocksOk m prep n (blockOutcome n)) :
    BlocksOk m prep (n + 1) (blockOutcome (n + 1)) := by
  intro f mem_f low b mem_b pred env s arriving fuel
  have valid := prepared.func mem_f
  have limits := valid.limitsRead mem_f
  have fits_f : ∀ i ∈ f.insts, callFits m i = true := all_eq_true.1 (all_eq_true.1 fits f mem_f)
  unfold blockOutcome
  split
  · exact Ends.ok ⟨trivial, .same arriving.mem, arriving.frame⟩
  · have less : s.fuel - 1 < n := by omega
    have lower : Left prep s { s with fuel := s.fuel - 1 } := .fuel_le arriving.mem (by omega)
    simp only [Func.block?, find_label valid.labels mem_b]
    refine (phisEnv_ends valid limits mem_b (arriving.fuel (s.fuel - 1)) fun ph h => h).bind fun env' defines => ?_
    have begun := Arriving.phis valid mem_b (arriving.fuel (s.fuel - 1)) defines
    refine (insts_ends prepared mem_f limits fits_f mem_b calls (Nat.zero_le _) drop_zero begun less).bind
      fun r ran => ?_
    cases r with
    | stop out s' => exact Ends.ok ⟨ran.2.2.ok, lower.trans ran.1, ran.2.1⟩
    | cont env'' s' =>
      obtain ⟨left, past⟩ := ran
      refine (exit_ends valid limits mem_b past fun b' mem_b' arrives =>
        blocks f mem_f low b' mem_b' _ _ _ arrives (lt_of_le_of_lt left.fuel less)).mono fun r ok => ?_
      exact (ok.after left).after lower

/-! ### Entering a function -/

theorem predecessors_entry {bs : List Block} (entry : noEntryJump bs = true) : predecessors bs (blocksEntry bs) = [] := by
  cases bs with
  | nil => rfl
  | cons b bs =>
    simp only [noEntryJump, all_eq_true, decide_eq_true_eq] at entry
    have label : blocksEntry (b :: bs) = b.label := rfl
    have none : (b :: bs).filter (fun b' => decide (b.label ∈ jumpLabels b'.jump)) = [] :=
      filter_eq_nil_iff.2 fun b' h => by simpa using entry b' h
    rw [predecessors, label, none]
    rfl

theorem ValidFunc.entryPhis {m : Module} {mode : Mode} {stage : Stage} {f : Func} (valid : ValidFunc m mode stage f) {b : Block}
    (mem_b : b ∈ f.blocks) (entry : b.label = blocksEntry f.blocks) : b.phis = [] := by
  have block := valid.blocks b mem_b
  simp only [validBlock, Bool.and_eq_true, Bool.or_eq_true, decide_eq_true_eq] at block
  refine block.2.resolve_right fun some_ => some_ ?_
  rw [entry]
  exact predecessors_entry valid.entry

section
variable {m : Module} {prep : Prep} {f : Func} {mem : Mem}

theorem paramsEnv_ends {ps : List Param} : ∀ {xs : List Word} {env : Env},
    (∀ p ∈ ps, p ∈ f.params ∧ classOf f p.name = some p.cls) → EnvTyped prep mem f env →
    (∃ ys zs, xs = ys ++ zs ∧ List.Forall₂ (fun p y => ArgOk prep mem p.cls y) ps ys) →
    Ends Gap (fun env' => EnvTyped prep mem f env' ∧ ∀ n, (env.vals n).isSome ∨ n ∈ ps.map (·.name) → (env'.vals n).isSome)
      (paramsEnv ps xs env) := by
  induction ps with
  | nil =>
    intro xs env _ typed _
    unfold paramsEnv
    exact Ends.ok ⟨typed, fun n h => h.resolve_right not_mem_nil⟩
  | cons p ps ih =>
    intro xs env sub typed fits
    obtain ⟨ys, zs, rfl, fits⟩ := fits
    cases fits with
    | @cons _ x _ ys arg args =>
      obtain ⟨mem_p, defined⟩ := sub p mem_cons_self
      have slot : Slot prep mem f p.name x := by
        rcases arg with held | ⟨word, n, rfl⟩
        · exact .held defined held
        · exact .wide (word ▸ defined) ⟨p, mem_p, rfl, word⟩
      have typed' : EnvTyped prep mem f (env.put p.name x) := by
        intro n y known
        simp only [Env.put, put] at known
        split at known
        · rename_i same
          cases known
          exact same ▸ slot
        · exact typed n y known
      simp only [cons_append, paramsEnv]
      refine (ih (fun q h => sub q (mem_cons_of_mem _ h)) typed' ⟨ys, zs, rfl, args⟩).mono fun env' ended => ⟨ended.1, fun n h => ended.2 n ?_⟩
      by_cases same : n = p.name
      · exact .inl (by simp [Env.put, put, same])
      · refine h.imp (fun old => ?_) fun named => ?_
        · simpa [Env.put, put, same] using old
        · exact (mem_cons.1 named).resolve_left same

/-! ### Snapshots of arguments -/

theorem snapshotValues_ends {base : Int} {xs : List Word} : ∀ {a : Int} {mem : Mem}, MemOk prep mem →
    CapOk prep mem (.obj base) → (∀ x ∈ xs, Loose prep mem x) →
    Ends Gap (fun r => ∀ mem', r = some mem' → MemOk prep mem' ∧ SameObjects mem mem') (snapshotValues base xs a mem) := by
  induction xs with
  | nil =>
    intro a mem ok _ _
    refine Ends.ok fun mem' h => ?_
    cases h
    exact ⟨ok, .refl mem⟩
  | cons x xs ih =>
    intro a mem ok cap loose
    have stored : Ends Gap (fun r => MemOk prep r.2 ∧ SameObjects mem r.2)
        (storeRes .filc (snapshotWidth x) mem (.ptr a (.obj base)) x) := by
      rcases loose x mem_cons_self with ⟨n, rfl⟩ | ⟨b, c, rfl, capC⟩
      · exact cursorStore_ends ok cap a n
      · exact pointerStore_ends ok cap capC a b
    refine stored.bind fun ⟨res, mem1⟩ ⟨ok1, same⟩ => ?_
    cases res with
    | val =>
      refine (ih (a := a + 8) ok1 (cap.grows same.grows) fun y h => (loose y (mem_cons_of_mem _ h)).grows same.grows).mono
        fun r rest mem' h => ⟨(rest mem' h).1, same.trans (rest mem' h).2⟩
    | trap | ub | unchecked => exact Ends.ok fun mem' h => by cases h

theorem argsSnapshot_ends {args : List Word} (ok : MemOk prep mem) (loose : ∀ x ∈ args, Loose prep mem x) :
    Ends Gap (fun r => ∀ p, r = some p → ∃ a c, p.1 = .ptr a c ∧ CapOk prep p.2 c ∧ MemOk prep p.2 ∧ Grows mem p.2)
      (argsSnapshot args mem) := by
  unfold argsSnapshot
  split
  · refine Ends.ok fun p h => ?_
    cases h
    exact ⟨_, _, rfl, capOk_none, ok, .refl mem⟩
  · split
    · exact Ends.ok fun p h => by cases h
    · rename_i base mem1 done
      have allocated := allocBase_allocated ok (fun h => by cases h) (by omega) done
      obtain ⟨r, mem_r, based, _⟩ := allocated.region
      have registered : Registered mem1 base := registered_iff.2 ⟨r, mem_r, based⟩
      have cap : CapOk prep mem1 (.obj base) :=
        ⟨fun b h => by (cases h; exact registered), fun g h => by (cases h)⟩
      refine (snapshotValues_ends (a := base) allocated.ok cap fun x h => (loose x h).grows allocated.grows).bind
        fun r stored => ?_
      cases r with
      | none => exact Ends.ok fun p h => by cases h
      | some mem2 =>
        obtain ⟨ok2, same⟩ := stored mem2 rfl
        refine Ends.pure fun p h => ?_
        cases h
        refine ⟨base, .ro base, rfl, ⟨fun b h => ?_, fun g h => by (cases h)⟩, ok2, allocated.grows.trans same.grows⟩
        cases h
        exact same.grows.objects base registered

/-- Only Fil-C functions read their variadic arguments. -/
theorem variadic_filc (prepared : Prepared m prep) (mem_f : f ∈ m.funcs) (variadic : variadicFunc f = true) :
    prep.mode = .filc := by
  cases mode : prep.mode with
  | filc => rfl
  | plain =>
    obtain ⟨i, mem_i, reads⟩ := any_eq_true.1 variadic
    obtain ⟨b, mem_b, inst⟩ := mem_flatMap.1 mem_i
    have noPointer := moduleMode_plain (prepared.mode ▸ mode) mem_f mem_b inst
    unfold variadicInst at reads
    split at reads
    · simp [pointerInst] at noPointer
    · cases reads

/-- What a function's entry starts with: its parameters, and a snapshot where it is variadic. -/
structure Entered (prep : Prep) (f : Func) (env : Env) (mem : Mem) (p : Env × Mem) : Prop where
  vals : p.1.vals = env.vals
  snapshot : variadicFunc f = true → ∃ a c, p.1.snapshot = some (.ptr a c) ∧ CapOk prep p.2 c
  ok : MemOk prep p.2
  grows : Grows mem p.2
  plain : prep.mode = .plain → p.2.aux = mem.aux

theorem entrySnapshot_ends (prepared : Prepared m prep) (mem_f : f ∈ m.funcs) {args : List Word} (ok : MemOk prep mem)
    (loose : ∀ x ∈ args, Loose prep mem x) (env : Env) :
    Ends Gap (fun r => ∀ p, r = some p → Entered prep f env mem p) (entrySnapshot f args env mem) := by
  unfold entrySnapshot
  split
  · rename_i variadic
    refine (argsSnapshot_ends ok loose).bind fun r taken => ?_
    cases r with
    | none => exact Ends.ok fun p h => by cases h
    | some p =>
      obtain ⟨a, c, ptr, cap, ok', grows⟩ := taken p rfl
      refine Ends.pure fun q h => ?_
      cases h
      refine ⟨rfl, fun _ => ⟨a, c, congrArg some ptr, cap⟩, ok', grows, fun plain => ?_⟩
      rw [variadic_filc prepared mem_f variadic] at plain
      cases plain
  · rename_i fixed
    refine Ends.ok fun p h => ?_
    cases h
    exact ⟨rfl, fun variadic => absurd variadic fixed, ok, .refl mem, fun _ => rfl⟩

/-! ### Leaving a function -/

theorem OutcomeOk.moved {mem' : Mem} {ret : Ret} {out : Outcome} (ok : OutcomeOk prep mem ret out)
    (word : ∀ k x, (ret = .cls k ∨ ∃ ks, ret = .tuple ks ∧ k ∈ ks) → WordOk prep mem k x → WordOk prep mem' k x) :
    OutcomeOk prep mem' ret out := by
  cases out with
  | ret x =>
    obtain ⟨k, cls, ok⟩ := ok
    exact ⟨k, cls, word k x (.inl cls) ok⟩
  | rets xs =>
    obtain ⟨ks, tuple, ok⟩ := ok
    refine ⟨ks, tuple, ?_⟩
    have all : ∀ {js ys}, (∀ j ∈ js, j ∈ ks) → WordsOk prep mem js ys → WordsOk prep mem' js ys := by
      intro js ys sub words
      induction words with
      | nil => exact .nil
      | cons head _ ih =>
        exact .cons (word _ _ (.inr ⟨ks, tuple, sub _ mem_cons_self⟩) head)
          (ih fun j h => sub j (mem_cons_of_mem _ h))
    exact all (fun _ h => h) ok
  | retVoid => exact ok
  | trap | ub | unchecked | unreachable | outOfFuel | unknown => exact trivial

theorem plain_ret (prepared : Prepared m prep) (mem_f : f ∈ m.funcs) (plain : prep.mode = .plain) {k : Cls}
    (ret : f.ret = .cls k ∨ ∃ ks, f.ret = .tuple ks ∧ k ∈ ks) : numericClass k = true := by
  have any := (prepared.func mem_f).ret
  have noPointer := moduleMode_plain_func (prepared.mode ▸ plain) mem_f
  simp only [pointerItem, Bool.or_eq_false_iff] at noPointer
  have noPointer := noPointer.1.1.2
  rcases ret with ret | ⟨ks, ret, _⟩
  · rw [ret] at any
    have notP : k ≠ .p := by simpa [pointerRet, ret] using noPointer
    cases k <;> first | rfl | exact absurd rfl notP | cases any
  · simp [pointerRet, ret] at noPointer

/-- An invocation's end gives its outcome to its caller, whose memory has grown; a plain caller
keeps the objects it had. -/
theorem returned_ends (prepared : Prepared m prep) (mem_f : f ∈ m.funcs) {s s1 : St} (ok : MemOk prep s.mem)
    (entered : Left prep s s1) {r : Outcome × St} (done : BlockOk prep f s.mem.next s1 r) :
    Ends Gap (Returned prep f.ret s) (do
      let mem' ← invalidateLocals r.2.locals ((localObjects f.blocks).map (·.1)) r.2.mem
      return (r.1, { mem := { mem' with regions := returnedRegions prep.mode s.mem.regions mem'.regions },
                     fuel := r.2.fuel, locals := s.locals })) := by
  have valid := prepared.func mem_f
  obtain ⟨entry, rest, blocks, locals⟩ := valid.entryBlock
  have left := entered.trans done.left
  have ends : Ends Gap (Ended prep s.mem.next r.2.mem)
      (invalidateLocals r.2.locals ((localObjects f.blocks).map (·.1)) r.2.mem) :=
    invalidateLocals_ends locals.nodup left.mem (fun n _ base => done.frame.bound n base) done.frame.distinct
  refine ends.bind fun mem' ended => Ends.pure ?_
  cases mode : prep.mode with
  | filc =>
    refine ⟨done.outcome.moved fun k x _ word => word.moved ended.objects (le_of_eq ended.next.symm),
      ⟨ended.ok, ⟨fun b h => ended.objects b (left.grows.objects b h), left.grows.next.trans (le_of_eq ended.next.symm),
        fun r0 h stack live => ended.stack r0 (left.grows.stack r0 h stack live) (ok.stack r0 h stack)⟩, left.fuel,
        fun plain => ?_⟩, rfl⟩
    rw [mode] at plain
    cases plain
  | plain =>
    have aux : mem'.aux = s.mem.aux := ended.bytes.2.trans (left.plain mode)
    have next : s.mem.next ≤ mem'.next := left.grows.next.trans (le_of_eq ended.next.symm)
    refine ⟨done.outcome.moved fun k x ret word => ?_, ⟨⟨ended.ok.bytes, fun a c h => ?_, fun r0 h stack =>
      lt_of_lt_of_le (ok.stack r0 h stack) next, ok.next.trans next⟩, ⟨fun _ h => h, next, fun _ h _ _ => h⟩,
      left.fuel, fun _ => aux⟩, rfl⟩
    · have numeric := plain_ret prepared mem_f mode ret
      obtain ⟨n, rfl, within⟩ := word.toInt numeric
      exact .int numeric (within.moved (le_of_eq ended.next.symm))
    · have h : s.mem.aux a = some c := aux ▸ h
      exact ok.caps a c h

theorem args_ends (prepared : Prepared m prep) (mem_f : f ∈ m.funcs) {xs : List Word} (args : ArgsOk prep mem f.params xs) :
    Ends Gap (fun env => EnvTyped prep mem f env ∧ ∀ p ∈ f.params, (env.vals p.name).isSome) (paramsEnv f.params xs emptyEnv) := by
  have valid := prepared.func mem_f
  have params : ∀ p ∈ f.params, p ∈ f.params ∧ classOf f p.name = some p.cls := fun p h =>
    ⟨h, classOf_def valid.classes (mem_append_left _ (mem_map_of_mem h))⟩
  have untyped : EnvTyped prep mem f emptyEnv := fun n x known => by cases known
  exact (paramsEnv_ends params untyped args.fits).mono fun env ⟨typed, assigned⟩ =>
    ⟨typed, fun p h => assigned p.name (.inr (mem_map_of_mem h))⟩

/-- A function's entry is arrived at in order. -/
theorem entry_arriving (prepared : Prepared m prep) (mem_f : f ∈ m.funcs) {entry : Block}
    (head : f.blocks.head? = some entry) {s : St} (globals : GlobalsOk m prep s.mem) {env env' : Env} {mem1 : Mem}
    (typed : EnvTyped prep s.mem f env) (assigned : ∀ p ∈ f.params, (env.vals p.name).isSome)
    (entered : Entered prep f env s.mem (env', mem1)) :
    Arriving m prep f s.mem.next entry none env' { mem := mem1, fuel := s.fuel, locals := freshLocals f } := by
  have valid := prepared.func mem_f
  obtain ⟨rest, bs⟩ : ∃ rest, f.blocks = entry :: rest := head?_eq_some_iff.1 head
  have mem_entry : entry ∈ f.blocks := bs ▸ mem_cons_self
  have label : entry.label = blocksEntry f.blocks := (blocksEntry_eq bs).symm
  refine ⟨label ▸ Walks.Reachable.start, fun n x known => (typed n x (entered.vals ▸ known)).grows entered.grows, fun n est => ?_,
    entered.snapshot, entered.ok, globals.grows entered.grows, entered.grows.next, .fresh f _ _, fun n j declared => ?_,
    valid.entryPhis mem_entry label⟩
  · obtain ⟨p, mem_p, rfl⟩ := established_start (label ▸ est)
    rw [entered.vals]
    exact assigned p mem_p
  · refine ⟨fun _ => ?_, fun later => absurd ⟨label, Nat.zero_le j⟩ later⟩
    obtain ⟨size, at_⟩ := (declaredAt_iff bs).1 declared
    have mem_o : (n, size) ∈ localObjects f.blocks :=
      mem_filterMap.2 ⟨_, mem_flatMap.2 ⟨entry, mem_entry, mem_of_getElem? at_⟩, rfl⟩
    show freshLocals f n = some none
    rw [freshLocals, if_pos (any_eq_true.2 ⟨_, mem_o, by simp⟩)]

/-- One call, given what blocks do at its depth. -/
theorem call_step (prepared : Prepared m prep) {n : Nat} (blocks : BlocksOk m prep n (blockOutcome n)) :
    CallsOk m prep n (callOutcome (blockOutcome n) prep) := by
  intro f mem_f xs s args ok globals fuel
  obtain ⟨entry, rest, bs, _⟩ := (prepared.func mem_f).entryBlock
  unfold callOutcome
  refine (args_ends prepared mem_f args).bind fun env ⟨typed, assigned⟩ => ?_
  split
  · rename_i empty
    rw [bs] at empty
    cases empty
  · rename_i entry' rest' bs'
    rw [bs] at bs'
    cases bs'
    refine (entrySnapshot_ends prepared mem_f ok args.loose env).bind fun r entered => ?_
    cases r with
    | none => exact Ends.pure ⟨trivial, .same ok, rfl⟩
    | some p =>
      obtain ⟨env', mem1⟩ := p
      have entered := entered _ rfl
      let s1 : St := { mem := mem1, fuel := s.fuel, locals := freshLocals f }
      have head : f.blocks.head? = some entry := bs ▸ rfl
      have start : Arriving m prep f s.mem.next entry none env' s1 := entry_arriving prepared mem_f head globals typed assigned entered
      have left : Left prep s s1 := ⟨entered.ok, entered.grows, le_rfl, entered.plain⟩
      exact (blocks f mem_f s.mem.next entry (bs ▸ mem_cons_self) none env' s1 start fuel).bind fun r done =>
        returned_ends prepared mem_f ok left done

theorem blocks_ends (prepared : Prepared m prep) (fits : callsFit m = true) : ∀ n, BlocksOk m prep n (blockOutcome n) := by
  intro n
  induction n with
  | zero => exact fun _ _ _ _ _ _ _ _ _ fuel => absurd fuel (Nat.not_lt_zero _)
  | succ n ih => exact block_step prepared fits (call_step prepared ih) ih

theorem calls_ends (prepared : Prepared m prep) (fits : callsFit m = true) (n : Nat) :
    CallsOk m prep n (callOutcome (blockOutcome n) prep) :=
  call_step prepared (blocks_ends prepared fits n)

end

end Nanofil
