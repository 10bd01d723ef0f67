import Nanofil.Typing

/-! The instructions of an accepted function, but for its calls: none is stuck. -/
namespace Nanofil
open List Results

section
variable {m : Module} {prep : Prep} {stage : Stage} {f : Func} {low : Int} {b : Block} {k : Nat} {i : Inst} {env : Env}
  {s : St} {call : Call}

theorem ValidFunc.entryBlock {mode : Mode} (valid : ValidFunc m mode stage f) :
    ∃ entry rest, f.blocks = entry :: rest ∧ LocalsOk f entry rest := by
  have entry := valid.entry
  cases blocks : f.blocks with
  | nil =>
    rw [blocks] at entry
    cases entry
  | cons e rest => exact ⟨e, rest, rfl, localsOk blocks valid.locals⟩

variable {wd : Width} {c : Cls} {n d : Name} {off : Int} {v a : Value}

/-- Only a store of a pointer leaves a capability. -/
theorem storeRes_aux {mode : Mode} {mem : Mem} {addr x : Word} {r : Res Unit × Mem} (narrow : wd ≠ .p)
    (done : storeRes mode wd mem addr x = .ok r) : r.2.aux = mem.aux := by
  unfold storeRes at done
  split at done
  · split at done
    · simp only [bind_ok, pure_ok] at done
      obtain ⟨n, _, rfl⟩ := done
      rfl
    · cases done
      rfl
  · simp only [bind_ok, pure_ok] at done
    obtain ⟨vas, word, check, _, mem', stored, rfl⟩ := done
    have uncapped : vas.2.2 = none := by
      cases wd <;> first | contradiction | (cases word; rfl)
    rw [uncapped] at stored
    unfold accessStore at stored
    split at stored
    · simp only [bind_ok, pure_ok] at stored
      obtain ⟨n, _, rfl⟩ := stored
      rfl
    · cases stored
      rfl
  · cases done

theorem rawRes_store {r : Res Unit × Mem} (ok : MemOk prep r.2) (grows : Grows s.mem r.2)
    (plain : prep.mode = .plain → r.2.aux = s.mem.aux) (notAlloc : ∀ n size, i ≠ .localAlloc n size)
    (defs : instDefs i = []) : InstOk prep f i env s (storeResResult (rawRes r.1) env (s.setMem r.2)) :=
  storeResResult_ok (r := (rawRes r.1, r.2)) ok grows plain notAlloc defs

theorem functionCheckRes_ends {a : Int} {c : Cap} (cap : CapOk prep s.mem c) :
    Ends Gap (fun check => check = .ok → ∃ g, c = .fn g) (functionCheckRes prep (a, c)) := by
  cases c with
  | ext n => exact .inr ⟨n, rfl⟩
  | none | obj | ro => exact Ends.ok fun h => by cases h
  | fn g =>
    simp only [functionCheckRes, capFunctionRes]
    split <;> exact Ends.ok fun _ => ⟨g, rfl⟩

theorem wordsOk_replicate {α : Type} {mem : Mem} {as : List α} {xs : List Word}
    (all : List.Forall₂ (fun _ x => WordOk prep mem c x) as xs) : WordsOk prep mem (List.replicate as.length c) xs := by
  induction all with
  | nil => exact .nil
  | cons head _ ih => exact .cons head ih

/-- An instruction that changes nothing. -/
theorem skip_ok (ok : MemOk prep s.mem) (notAlloc : ∀ n size, i ≠ .localAlloc n size) (defs : instDefs i = []) :
    InstOk prep f i env s (.cont env s) := by
  refine ⟨.same ok, .same notAlloc rfl, ?_⟩
  rw [defs]
  exact .none _

variable (valid : ValidFunc m prep.mode stage f) (limits : LimitsRead f) (mem_b : b ∈ f.blocks)
  (at_ : b.insts[k]? = some i) (here : InOrder m prep f low b k env s)
include valid mem_b at_ here

/-! ### Locals -/

theorem local_bound (names : localReference i = some n) : ∃ base, s.locals n = some (some base) := by
  obtain ⟨entry, rest, blocks, ok⟩ := valid.entryBlock
  obtain ⟨j, declared, past⟩ := localReference_past blocks ok mem_b at_ names
  exact (here.placed n j declared).2 past

theorem localPointer_ends (filc : prep.mode = .filc) (names : localReference i = some n) (off : Int) :
    Ends Gap (fun p => CapOk prep s.mem p.2) (localPointer prep s n off) := by
  obtain ⟨base, known⟩ := local_bound valid mem_b at_ here names
  have registered := here.frame.registered known
  simp only [localPointer, filc, known]
  exact Ends.ok ⟨fun b h => by cases h; exact registered, fun g h => by cases h⟩

theorem localAlloc_ends {size : Int} (filc : prep.mode = .filc) (nonneg : 0 ≤ size)
    (isAlloc : i = .localAlloc n size) : Ends Gap (InstOk prep f i env s) (localAllocResult prep n size env s) := by
  obtain ⟨entry, rest, blocks, ok⟩ := valid.entryBlock
  obtain ⟨label, declared⟩ := localAlloc_entry blocks ok mem_b (isAlloc ▸ at_)
  have unbound := (here.placed n k declared).1 ⟨label, le_rfl⟩
  simp only [localAllocResult, filc, unbound]
  cases done : allocBase .local_ s.mem 16 size with
  | none => exact Ends.ok ⟨.same here.mem, rfl, trivial⟩
  | some bm =>
    obtain ⟨base, mem'⟩ := bm
    have allocated := allocBase_allocated here.mem (fun h => by cases h) nonneg done
    refine Ends.ok ⟨⟨allocated.ok, allocated.grows, le_rfl, fun plain => ?_⟩, .begins isAlloc unbound rfl allocated, ?_⟩
    · rw [filc] at plain
      cases plain
    · rw [isAlloc]
      exact .none _

theorem localLoad_ends {t : LoadType} (filc : prep.mode = .filc)
    (isLoad : i = .localLoad d c t n off) (result : loadResultOk t .filc c = true) :
    Ends Gap (InstOk prep f i env s) (instResult call prep i env s) := by
  subst isLoad
  have defined : classOf f d = some c := inst_class valid mem_b at_ (mem_singleton.2 rfl)
  refine (localPointer_ends valid mem_b at_ here filc rfl off).bind fun p cap => ?_
  have load : Ends Gap (OpOk prep s.mem c) (loadOpRes t c .filc (.ptr p.1 p.2) s.mem) :=
    loadOpRes_ends here.mem result (.filc _ cap)
  refine load.bind fun r done => Ends.pure ?_
  refine resResult_ok done.ok done.grows (fun plain => ?_) (fun n size h => by cases h) rfl fun x h =>
    .held defined (done.word x h).held
  rw [filc] at plain
  cases plain

theorem checkLocal_ends {size align : Int} {rights : Rights} (filc : prep.mode = .filc)
    (isLet : i = .let_ d .a (.checkLocal n off size rights align) []) :
    Ends Gap (InstOk prep f i env s) (instResult call prep i env s) := by
  subst isLet
  have defined : classOf f d = some .a := inst_class valid mem_b at_ (mem_singleton.2 rfl)
  refine (localPointer_ends valid mem_b at_ here filc rfl off).bind fun p cap => ?_
  refine (accessRes_ends cap).bind fun check _ => Ends.pure ?_
  refine resResult_ok (r := (checkedRes check (.ptr p.1 p.2), s.mem)) here.mem (.refl _) (fun _ => rfl)
    (fun n size h => by cases h) rfl fun x h => ?_
  cases checkedRes_yields check _ x h
  exact .held defined (WordOk.held (.proof rfl cap))

include limits

theorem reads_ends (other : checkLimitInst i = false)
    (use : validUse (funcCtx m prep.mode f) c v = true) (reads : ∀ n, v = .tmp n → n ∈ instUses i) :
    Ends Gap (WordOk prep s.mem c) (valueX prep env c v) :=
  valueX_ends here.globals here.typed use (here.readable valid.ssa limits mem_b at_ other reads)

/-! ### Stores -/

theorem localStore_ends (filc : prep.mode = .filc)
    (isStore : i = .localStore wd v n off) (use : validUse (funcCtx m prep.mode f) (storeValueClass wd) v = true) :
    Ends Gap (InstOk prep f i env s) (instResult call prep i env s) := by
  subst isStore
  rw [storeValueClass_eq] at use
  have word := reads_ends valid limits mem_b at_ here rfl use fun n same => mem_temps.2 (by simp [same])
  refine (localPointer_ends valid mem_b at_ here filc rfl off).bind fun p cap => word.bind fun x word => ?_
  refine (storeRes_ends here.mem (.filc _ cap) word fun _ => rfl).bind fun r ⟨ok, same⟩ => Ends.pure ?_
  refine storeResResult_ok ok same.grows (fun plain => ?_) (fun n size h => by cases h) rfl
  rw [filc] at plain
  cases plain

theorem store_ends (isStore : i = .store wd v a ∨ i = .atomicStore wd v a ∧ wd = .p)
    (pointer : wd = .p → prep.mode = .filc) (useV : validUse (funcCtx m prep.mode f) (storeValueClass wd) v = true)
    (useA : validUse (funcCtx m prep.mode f) (addrClass prep.mode) a = true) :
    Ends Gap (InstOk prep f i env s) (storeInstResult prep wd v a env s) := by
  rw [storeValueClass_eq] at useV
  have facts : checkLimitInst i = false ∧ instUses i = temps [v, a] ∧ instDefs i = [] ∧ ∀ n size, i ≠ .localAlloc n size := by
    rcases isStore with rfl | ⟨rfl, _⟩ <;> exact ⟨rfl, rfl, rfl, fun n size h => by cases h⟩
  have word := reads_ends valid limits mem_b at_ here facts.1 useV fun n same => by
    rw [facts.2.1]
    exact mem_temps.2 (by simp [same])
  have address := reads_ends valid limits mem_b at_ here facts.1 useA fun n same => by
    rw [facts.2.1]
    exact mem_temps.2 (by simp [same])
  refine word.bind fun x word => address.bind fun y address => ?_
  refine (storeRes_ends here.mem address.address word pointer).done.bind fun r ⟨⟨ok, same⟩, done⟩ => Ends.pure ?_
  refine storeResResult_ok ok same.grows (fun plain => ?_) facts.2.2.2 facts.2.2.1
  refine storeRes_aux (fun h => ?_) done
  rw [pointer h] at plain
  cases plain

theorem rawStore_ends (isStore : i = .rawStore wd off v a) (narrow : wd ≠ .p)
    (useV : validUse (funcCtx m prep.mode f) (storeValueClass wd) v = true)
    (useA : validUse (funcCtx m prep.mode f) .a a = true) :
    Ends Gap (InstOk prep f i env s) (instResult call prep i env s) := by
  subst isStore
  rw [storeValueClass_eq] at useV
  have word := reads_ends valid limits mem_b at_ here rfl useV fun n same => mem_temps.2 (by simp [same])
  have proof : Ends Gap (fun p => CapOk prep s.mem p.2) (pointerX prep env .a a) :=
    pointerX_ends here.globals here.typed (.inr rfl) useA
      (here.readable valid.ssa limits mem_b at_ rfl fun n same => mem_temps.2 (by simp [same]))
  refine word.bind fun x word => proof.bind fun p cap => ?_
  refine (storeRes_ends here.mem (.filc _ cap) word fun _ => rfl).done.bind fun r ⟨⟨ok, same⟩, done⟩ => Ends.pure ?_
  exact rawRes_store ok same.grows (fun _ => storeRes_aux narrow done) (fun n size h => by cases h) rfl

theorem rawStorePointer_ends {es : List Effect} (filc : prep.mode = .filc)
    (isStore : i = .rawStorePointer off v a es) (protocol : es = pointerMemoryEffects .store ∨
      es = pointerMemoryEffects .localStore ∨ es = pointerMemoryEffects .atomicStore)
    (useV : validUse (funcCtx m prep.mode f) .p v = true) (useA : validUse (funcCtx m prep.mode f) .a a = true) :
    Ends Gap (InstOk prep f i env s) (instResult call prep i env s) := by
  subst isStore
  have word := reads_ends valid limits mem_b at_ here rfl useV fun n same => mem_temps.2 (by simp [same])
  have proof : Ends Gap (fun p => CapOk prep s.mem p.2) (pointerX prep env .a a) :=
    pointerX_ends here.globals here.typed (.inr rfl) useA
      (here.readable valid.ssa limits mem_b at_ rfl fun n same => mem_temps.2 (by simp [same]))
  refine word.bind fun x word => proof.bind fun p cap => (accessRes_ends cap).bind fun check _ => ?_
  refine (pointerStoreEffectsRes_ends here.mem check (rawAddress p.1 off) word protocol).bind fun r ⟨ok, same⟩ => Ends.pure ?_
  refine storeResResult_ok ok same.grows (fun plain => ?_) (fun n size h => by cases h) rfl
  rw [filc] at plain
  cases plain

/-! ### Pointers and checks -/

omit limits in
theorem vaArgs_ends (isLet : i = .let_ d .p .vaArgs [.const off]) :
    Ends Gap (InstOk prep f i env s) (instResult call prep i env s) := by
  subst isLet
  have defined : classOf f d = some .p := inst_class valid mem_b at_ (mem_singleton.2 rfl)
  have variadic : variadicFunc f = true :=
    any_eq_true.2 ⟨_, mem_flatMap.2 ⟨b, mem_b, mem_of_getElem? at_⟩, rfl⟩
  obtain ⟨a, c, snapshot, cap⟩ := here.snapshot variadic
  simp only [instResult, snapshot]
  refine Ends.ok (resResult_ok (r := (.val (.ptr (rawAddress a off) c), s.mem)) here.mem (.refl _) (fun _ => rfl)
    (fun n size h => by cases h) rfl fun x h => ?_)
  cases h
  exact .held defined (WordOk.held (.ptr cap (.emod (k := .p) rfl _)))

theorem checkFunction_ends (isLet : i = .let_ d .f .checkFunction [v]) (use : validUse (funcCtx m prep.mode f) .p v = true) :
    Ends Gap (InstOk prep f i env s) (instResult call prep i env s) := by
  subst isLet
  have defined : classOf f d = some .f := inst_class valid mem_b at_ (mem_singleton.2 rfl)
  have word := reads_ends valid limits mem_b at_ here rfl use fun n same => mem_temps.2 (by simp [same])
  refine word.bind fun x word => ?_
  obtain ⟨a, c, rfl, cap, _⟩ := word.toPtr
  refine (functionCheckRes_ends cap).bind fun check _ => Ends.pure ?_
  refine resResult_ok (r := (checkedRes check (.ptr a c), s.mem)) here.mem (.refl _) (fun _ => rfl)
    (fun n size h => by cases h) rfl fun x h => ?_
  cases checkedRes_yields check _ x h
  exact .held defined (WordOk.held (.proof rfl cap))

theorem flight_ends {op : Op} {args : List FlightArg} {lower : FlightLower} (isFlight : i = .flight d op args lower)
    (known : op = .copy ∨ op = .add ∨ op = .sub) (arity : opArity op = some args.length)
    (useArgs : ∀ a ∈ args, validFlightArg (funcCtx m prep.mode f) a = true)
    (useLower : validFlightLower (funcCtx m prep.mode f) lower = true) :
    Ends Gap (InstOk prep f i env s) (instResult call prep i env s) := by
  subst isFlight
  have defined : classOf f d = some .p := inst_class valid mem_b at_ (mem_singleton.2 rfl)
  have uses : ∀ {n}, Value.tmp n ∈ args.map FlightArg.value? → n ∈ instUses (.flight d op args lower) := by
    intro n h
    cases lower with
    | none => exact mem_temps.2 h
    | lower p => exact mem_temps.2 (mem_cons_of_mem _ h)
  have words : Ends Gap (List.Forall₂ (fun _ x => WordOk prep s.mem .l x) args) (args.mapM (flightArgX prep env)) := by
    refine Ends.mapM fun a h => ?_
    have use := useArgs a h
    have mem_v : a.value? ∈ args.map FlightArg.value? := mem_map_of_mem h
    cases a with
    | value v => exact reads_ends valid limits mem_b at_ here rfl use fun n same => uses (same ▸ mem_v)
    | address p =>
      exact (pointerX_ends here.globals here.typed (.inl rfl) use
        (here.readable valid.ssa limits mem_b at_ rfl fun n same => uses (same ▸ mem_v))).bind fun q _ =>
          wordAtClass_numeric rfl q.1
  have cap : Ends Gap (CapOk prep s.mem) (flightCap prep env lower) := by
    cases lower with
    | none => exact Ends.ok capOk_none
    | lower p =>
      exact (pointerX_ends here.globals here.typed (.inl rfl) useLower
        (here.readable valid.ssa limits mem_b at_ rfl fun n same => mem_temps.2 (by simp [same]))).bind fun q cap => Ends.pure cap
  have value : ∀ xs, List.Forall₂ (fun _ x => WordOk prep s.mem .l x) args xs → Ends Gap (WordOk prep s.mem .l) (alu op .l xs) := by
    intro xs words
    have all : ∀ {n}, args.length = n → WordsOk prep s.mem (List.replicate n .l) xs := by
      rintro n rfl
      exact wordsOk_replicate words
    rcases known with rfl | rfl | rfl
    · exact alu_copy (all (Option.some.inj arity).symm)
    · exact alu_arithmetic rfl rfl (all (Option.some.inj arity).symm)
    · exact alu_arithmetic rfl rfl (all (Option.some.inj arity).symm)
  refine words.bind fun xs words => (value xs words).bind fun w word => cap.bind fun c cap => ?_
  obtain ⟨n, rfl, within⟩ := word.toInt rfl
  refine (Ends.ok (Q := fun k => k = n) rfl).bind fun k same => Ends.pure ?_
  subst same
  refine resResult_ok (r := (.val (.ptr k c), s.mem)) here.mem (.refl _) (fun _ => rfl) (fun n size h => by cases h) rfl
    fun x h => ?_
  cases h
  exact .held defined (WordOk.held (.ptr cap ⟨within.1, fun fit => within.2 fun _ => fit (.inr rfl)⟩))

theorem access_ends {r : Rights} {size align : Int} (isAccess : i = .access r a size align)
    (use : validUse (funcCtx m prep.mode f) (addrClass prep.mode) a = true) :
    Ends Gap (InstOk prep f i env s) (instResult call prep i env s) := by
  subst isAccess
  simp only [instResult]
  cases mode : prep.mode with
  | plain => exact Ends.ok (skip_ok here.mem (fun n size h => by cases h) rfl)
  | filc =>
    rw [mode] at use
    have pointer : Ends Gap (fun p => CapOk prep s.mem p.2) (pointerX prep env .p a) :=
      pointerX_ends here.globals here.typed (.inl rfl) (by rw [mode]; exact use)
        (here.readable valid.ssa limits mem_b at_ rfl fun n same => mem_temps.2 (by simp [same]))
    exact pointer.bind fun p cap => (accessRes_ends cap).bind fun check _ => Ends.pure
      (storeResResult_ok (r := (checkToRes check, s.mem)) here.mem (.refl _) (fun _ => rfl) (fun n size h => by cases h) rfl)

theorem asmFixed_ends {am : AsmName} {ins : List (AsmReg × Value)} {outs : List (AsmReg × Name)}
    (isAsm : i = .asmFixed am ins outs) (sub : (outs.map (·.1)).isSublist (asmFixedRegs am).2 = true)
    (uses : ∀ rv ∈ ins, validUse (funcCtx m prep.mode f) .w rv.2 = true) :
    Ends Gap (InstOk prep f i env s) (instResult call prep i env s) := by
  subst isAsm
  simp only [instResult]
  split
  · rename_i passes
    have none : outs = [] := by
      cases outs with
      | nil => rfl
      | cons o os => cases am <;> first | cases sub | cases passes
    refine Ends.ok (skip_ok here.mem (fun n size h => by cases h) ?_)
    rw [none]
    rfl
  · have words : Ends Gap (List.Forall₂ (fun _ _ => True) ins) (ins.mapM (fun rv => valueX prep env .w rv.2)) :=
      Ends.mapM fun rv h => (reads_ends valid limits mem_b at_ here rfl (uses rv h) fun n same =>
        mem_temps.2 (same ▸ mem_map_of_mem h)).mono fun _ _ => trivial
    exact words.bind fun xs _ => Ends.pure ⟨.same here.mem, rfl, trivial⟩

end

end Nanofil
