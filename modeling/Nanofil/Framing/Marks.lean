import Nanofil.Framing.Lowers
import Nanofil.Lib.Results

/-! What the emitted code writes of the lowers, and that a frame which is accepted
keeps the lower of every live pointer where the collector marks it. -/
namespace Nanofil.Framing
open List Option Observations Results

/-- Where a run is, the lower of each pointer and what each entry holds. -/
structure Machine (β : Type) where
  block : ViewBlock
  at_ : Nat
  lower : Name → β
  entry : FrameKey → β

section
variable {β : Type} (e : Entries)

/-- A definition of a pointer writes its lower to its entry. -/
def Machine.define (m : Machine β) (n : Name) (v : β) : Machine β :=
  match e n with
  | some k => { m with lower := Function.update m.lower n v, entry := Function.update m.entry k v }
  | none => m

def Machine.share (m : Machine β) (n : Name) (v : β) : Machine β :=
  { m with lower := Function.update m.lower n v }

/-- The lower that a definition gets: a flight's is its donor's. -/
def Machine.given (m : Machine β) (i : Inst) (value : Name → β) : Name → β :=
  match i with
  | .flight _ _ _ (.lower (.tmp p)) => fun _ => m.lower p
  | _ => value

def Machine.exec (m : Machine β) (i : Inst) (value : Name → β) : Machine β :=
  match sharedFlight e i with
  | some (n, p) => m.share n (m.lower p)
  | none => (instDefs i).foldl (fun m' n => m'.define e n (m.given i value n)) m

/-- What a phi receives from the block that is left. -/
def Machine.incoming (m : Machine β) (ph : Phi) (value : Name → β) : β :=
  match ph.pairs.find? (·.1 = m.block.label) with
  | some (_, .tmp v) => m.lower v
  | _ => value ph.dst

/-- The second half of an edge's copy: what was received goes to the phi, and to its entry unless it is shared. -/
def Machine.phi (left : Machine β) (value : Name → β) (m : Machine β) (ph : Phi) : Machine β :=
  if ph.cls = .p then
    if sharedPhi e ph then m.share ph.dst (left.incoming ph value) else m.define e ph.dst (left.incoming ph value)
  else m

def Machine.enter (m : Machine β) (s : ViewBlock) (value : Name → β) : Machine β :=
  { s.phis.foldl (Machine.phi e m value) m with block := s, at_ := 0 }

def Machine.receive (m : Machine β) (p : Param) : Machine β :=
  if p.cls = .p then m.define e p.name (m.lower p.name) else m

/-- The runs of a function that enter only blocks of a kind. -/
inductive Run (params : List Param) (blocks : List ViewBlock) (Meets : ViewBlock → Prop) : Machine β → Prop
  | start {m : Machine β} : blocks.head? = some m.block → m.at_ = 0 →
      Run params blocks Meets (params.foldl (Machine.receive e) m)
  | inst {m : Machine β} {i : ViewInst} : Run params blocks Meets m → m.block.insts[m.at_]? = some i →
      (value : Name → β) → Run params blocks Meets { m.exec e i.bare value with at_ := m.at_ + 1 }
  | enter {m : Machine β} {s : ViewBlock} : Run params blocks Meets m → m.at_ = m.block.insts.length →
      s ∈ blocks → s.label ∈ jumpSuccs m.block.jump → Meets s → (value : Name → β) →
      Run params blocks Meets (m.enter e s value)

/-- No shared phi comes after a phi that writes its entry. -/
def Unrewritten (s : ViewBlock) : Prop :=
  s.phis.Pairwise (fun ph ph' => ph.cls = .p → sharedPhi e ph = false → ph'.cls = .p → sharedPhi e ph' = true →
    e ph.dst ≠ e ph'.dst)

/-- The entry of each live pointer is a root and holds its lower. -/
def Held (blocks : List ViewBlock) (frame : Frame) (m : Machine β) : Prop :=
  ∀ n k, e n = some k → LiveAt blocks n m.block m.at_ → k ∈ frame.roots ∧ m.entry k = m.lower n

end

/-- The entries of the function's pointers in a frame. -/
def frameEntries (params : List Param) (blocks : List ViewBlock) (frame : Frame) : Entries :=
  entriesOf frame.aliases (pointerTemps (tempClasses params (blocks.map ViewBlock.bare)))

/-! ### One step -/

section
variable {β : Type} {e : Entries} {facts facts' : Facts} {m : Machine β}

@[simp] theorem Machine.share_entry (n : Name) (v : β) : (m.share n v).entry = m.entry := rfl

@[simp] theorem Machine.share_lower (n : Name) (v : β) : (m.share n v).lower = Function.update m.lower n v := rfl

def Sound (e : Entries) (facts : Facts) (m : Machine β) : Prop :=
  ∀ k n, (k, n) ∈ facts → e n = some k ∧ m.entry k = m.lower n

theorem Sound.define (sound : Sound e facts m) (n : Name) (v : β) : Sound e (writeEntry e facts n) (m.define e n v) := by
  rw [writeEntry, Machine.define]
  cases here : e n with
  | none => exact sound
  | some k =>
    intro k' n' there
    rcases Finset.mem_insert.1 there with same | there
    · cases same
      exact ⟨here, by simp⟩
    · obtain ⟨there, other⟩ := Finset.mem_filter.1 there
      obtain ⟨entry, held⟩ := sound k' n' there
      refine ⟨entry, ?_⟩
      have apart : n' ≠ n := by
        rintro rfl
        exact other (Option.some.inj (entry.symm.trans here))
      dsimp only
      rw [Function.update_of_ne other, Function.update_of_ne apart, held]

theorem Sound.share (sound : Sound e facts m) {n : Name} {v : β} (held : ∀ k, e n = some k → m.entry k = v) :
    Sound e (shareEntry e facts n) (m.share n v) := by
  have kept : Sound e facts (m.share n v) := by
    intro k' n' there
    obtain ⟨entry, same⟩ := sound k' n' there
    refine ⟨entry, ?_⟩
    by_cases here : n' = n
    · subst here
      rw [m.share_entry, m.share_lower, Function.update_self]
      exact held k' entry
    · rw [m.share_entry, m.share_lower, Function.update_of_ne here]
      exact same
  rw [shareEntry]
  cases here : e n with
  | none => exact kept
  | some k =>
    intro k' n' there
    rcases Finset.mem_insert.1 there with same | there
    · cases same
      exact ⟨here, by rw [m.share_entry, m.share_lower, Function.update_self]; exact held k here⟩
    · exact kept k' n' there

theorem Sound.defs (sound : Sound e facts m) (ns : List Name) (value : Name → β) :
    Sound e (ns.foldl (writeEntry e) facts) (ns.foldl (fun m n => m.define e n (value n)) m) := by
  induction ns generalizing facts m with
  | nil => exact sound
  | cons n ns ih => exact ih (sound.define n (value n))

theorem holds_iff {n : Name} : holds e facts n = true ↔ ∃ k, e n = some k ∧ (k, n) ∈ facts := by
  rw [holds]
  cases e n <;> simp

theorem sharedFlight_some {i : Inst} {n p : Name} (shared : sharedFlight e i = some (n, p)) : e p = e n := by
  unfold sharedFlight at shared
  split at shared
  · split_ifs at shared with alike
    cases shared
    exact alike.2.2
  · cases shared

theorem Sound.exec (sound : Sound e facts m) {i : Inst} (done : instTransfer e facts i = .ok facts')
    (value : Name → β) : Sound e facts' (m.exec e i value) := by
  rw [instTransfer] at done
  rw [Machine.exec]
  cases shared : sharedFlight e i with
  | none =>
    rw [shared] at done
    cases done
    exact sound.defs _ (m.given i value)
  | some np =>
    obtain ⟨n, p⟩ := np
    simp only [shared] at done
    split_ifs at done with donor
    cases done
    refine sound.share fun k here => ?_
    obtain ⟨k', entry, there⟩ := holds_iff.1 donor
    rw [sharedFlight_some shared, here] at entry
    cases entry
    exact (sound k p there).2

/-! ### The phis of an edge -/

theorem sharedPhi_input {ph : Phi} (shared : sharedPhi e ph = true) {from_ v : Name}
    (input : phiInput from_ ph = some v) :
    (from_, Value.tmp v) ∈ ph.pairs ∧ e v = e ph.dst ∧ ph.pairs.find? (·.1 = from_) = some (from_, .tmp v) := by
  rw [sharedPhi, Bool.and_eq_true, List.all_eq_true] at shared
  have first : ph.pairs.find? (·.1 = from_) = some (from_, .tmp v) := by
    have temps := shared.2
    rw [phiInput] at input
    generalize ph.pairs = pairs at temps input ⊢
    induction pairs with
    | nil => cases input
    | cons pv pairs ih =>
      obtain ⟨l, w⟩ := pv
      rw [findSome?_cons] at input
      by_cases here : l = from_
      · subst here
        rw [find?_cons_of_pos (by simp)]
        have temp := temps (l, w) mem_cons_self
        cases w with
        | tmp u =>
          rw [if_pos rfl] at input
          exact congrArg (fun u => some (l, Value.tmp u)) (Option.some.inj input)
        | const c => cases temp
        | global g => cases temp
      · rw [if_neg here] at input
        rw [find?_cons_of_neg (by simpa using here)]
        exact ih (fun pv there => temps pv (mem_cons_of_mem _ there)) input
  have there := mem_of_find?_eq_some first
  refine ⟨there, ?_, first⟩
  simpa using shared.2 _ there

/-- A block's phis, with what they received in hand: the inputs of the shared ones are still in
their entries, unless an earlier phi wrote one. -/
theorem Sound.phis {left : Machine β} {value : Name → β} {phs : List Phi}
    (plain : phs.Pairwise (fun ph ph' => ph.cls = .p → sharedPhi e ph = false → ph'.cls = .p →
      sharedPhi e ph' = true → e ph.dst ≠ e ph'.dst))
    (inputs : ∀ ph ∈ phs, ph.cls = .p → sharedPhi e ph = true → ∀ v, phiInput left.block.label ph = some v →
      ∀ k, e ph.dst = some k → m.entry k = left.lower v)
    (sound : Sound e facts m) (done : phs.foldlM (phiTransfer e left.block.label) facts = .ok facts') :
    Sound e facts' (phs.foldl (Machine.phi e left value) m) := by
  induction phs generalizing facts m with
  | nil =>
    cases done
    exact sound
  | cons ph phs ih =>
    rw [pairwise_cons] at plain
    rw [foldlM_cons] at done
    rw [foldl_cons]
    have later : ∀ ph' ∈ phs, ph'.cls = .p → sharedPhi e ph' = true → ∀ v, phiInput left.block.label ph' = some v →
        ∀ k, e ph'.dst = some k → m.entry k = left.lower v :=
      fun ph' there => inputs ph' (mem_cons_of_mem ph there)
    unfold phiTransfer at done
    unfold Machine.phi
    by_cases pointer : ph.cls = .p
    · rw [if_pos pointer] at done ⊢
      by_cases shared : sharedPhi e ph = true
      · rw [if_pos shared] at done ⊢
        cases input : phiInput left.block.label ph with
        | none =>
          rw [input] at done
          cases done
        | some v =>
          rw [input] at done
          dsimp only at done
          split_ifs at done with there
          · refine ih plain.2 later (sound.share fun k here => ?_) done
            rw [Machine.incoming, (sharedPhi_input shared input).2.2]
            exact inputs ph mem_cons_self pointer shared v input k here
          · cases done
      · rw [if_neg shared] at done ⊢
        refine ih plain.2 ?_ (sound.define _ _) done
        intro ph' there pointer' shared' v input k here
        have apart := plain.1 ph' there pointer (Bool.not_eq_true _ ▸ shared) pointer' shared'
        rw [Machine.define]
        cases own : e ph.dst with
        | none => exact later ph' there pointer' shared' v input k here
        | some k' =>
          dsimp only
          rw [Function.update_of_ne (fun same => apart (by rw [own, here, same]))]
          exact later ph' there pointer' shared' v input k here
    · rw [if_neg pointer] at done ⊢
      exact ih plain.2 later sound done

end

/-! ### What the fixpoint leaves -/

section
variable {c : LowersCtx} {outs : Outs}

/-- A block's facts after its last instruction are those that the fixpoint keeps. -/
def Stable (c : LowersCtx) (outs : Outs) (b : ViewBlock) : Prop :=
  ∃ before after, blockIn c outs b = .ok before ∧ instsTransfer c.entries before b.insts = .ok after ∧
    outs b.label = some after

theorem blockPass_unchanged {st : Outs × Bool} {l : Name} (done : blockPass c st l = .ok (outs, false)) :
    st = (outs, false) ∧ ∀ b, c.blocks.find? (·.label = l) = some b → Stable c outs b := by
  unfold blockPass at done
  cases found : c.blocks.find? (·.label = l) with
  | none =>
    rw [found] at done
    cases done
  | some b =>
    rw [found] at done
    simp only [bind_ok, pure_ok] at done
    obtain ⟨before, into, after, through, ends⟩ := done
    split_ifs at ends with same
    · subst ends
      refine ⟨rfl, fun b' here => ?_⟩
      cases here
      have label : b.label = l := by simpa using find?_some found
      exact ⟨before, after, into, through, label ▸ same⟩
    · cases congrArg Prod.snd ends

theorem pass_unchanged {ls : List Name} {st : Outs × Bool} (done : ls.foldlM (blockPass c) st = .ok (outs, false)) :
    st = (outs, false) ∧ ∀ l ∈ ls, ∀ b, c.blocks.find? (·.label = l) = some b → Stable c outs b := by
  induction ls generalizing st with
  | nil =>
    cases done
    exact ⟨rfl, by simp⟩
  | cons l ls ih =>
    rw [foldlM_cons, bind_ok] at done
    obtain ⟨st', first, done⟩ := done
    obtain ⟨rfl, others⟩ := ih done
    obtain ⟨rfl, here⟩ := blockPass_unchanged first
    refine ⟨rfl, fun l' there => ?_⟩
    rcases mem_cons.1 there with rfl | there
    · exact here
    · exact others l' there

theorem lowersFixpoint_stable {rpo : List Name} {fuel : Nat} {outs0 : Outs}
    (done : lowersFixpoint c rpo fuel outs0 = .ok outs) :
    ∀ l ∈ rpo, ∀ b, c.blocks.find? (·.label = l) = some b → Stable c outs b := by
  induction fuel generalizing outs0 with
  | zero => cases done
  | succ fuel ih =>
    rw [lowersFixpoint, bind_ok] at done
    obtain ⟨⟨outs1, flag⟩, pass, done⟩ := done
    cases flag with
    | true => exact ih done
    | false =>
      cases done
      exact (pass_unchanged pass).2

theorem mapM_mem {ε α γ : Type} {f : α → Except ε γ} {xs : List α} {ys : List γ} (done : xs.mapM f = .ok ys) :
    ∀ x ∈ xs, ∃ y ∈ ys, f x = .ok y := by
  induction xs generalizing ys with
  | nil => simp
  | cons x xs ih =>
    rw [mapM_cons] at done
    simp only [bind_ok, pure_ok] at done
    obtain ⟨y, here, ys', rest, rfl⟩ := done
    intro x' there
    rcases mem_cons.1 there with rfl | there
    · exact ⟨y, mem_cons_self, here⟩
    · obtain ⟨y', kept, same⟩ := ih rest x' there
      exact ⟨y', mem_cons_of_mem y kept, same⟩

theorem foldl_inter {first : Facts} {others : List Facts} :
    others.foldl (· ∩ ·) first ⊆ first ∧ ∀ facts ∈ others, others.foldl (· ∩ ·) first ⊆ facts := by
  induction others generalizing first with
  | nil => exact ⟨Finset.Subset.refl _, by simp⟩
  | cons facts others ih =>
    obtain ⟨below, each⟩ := @ih (first ∩ facts)
    refine ⟨below.trans Finset.inter_subset_left, fun facts' there => ?_⟩
    rcases mem_cons.1 there with rfl | there
    · exact below.trans Finset.inter_subset_right
    · exact each facts' there

/-- What holds before a block is left by every visited edge into it, and by the parameters at the entry. -/
theorem blockIn_ok {b : ViewBlock} {before : Facts} (done : blockIn c outs b = .ok before) :
    (b.label = c.entry → before ⊆ c.start) ∧
      ∀ p ∈ c.preds b.label, ∀ facts, outs p = some facts →
        ∃ left, b.phis.foldlM (phiTransfer c.entries p) facts = .ok left ∧ before ⊆ left := by
  rw [blockIn, bind_ok] at done
  obtain ⟨lefts, each, done⟩ := done
  have meets : ∀ facts ∈ (if b.label = c.entry then c.start :: lefts else lefts), before ⊆ facts := by
    generalize (if b.label = c.entry then c.start :: lefts else lefts) = all at done
    cases all with
    | nil => simp
    | cons first others =>
      cases done
      intro facts there
      rcases mem_cons.1 there with rfl | there
      · exact foldl_inter.1
      · exact foldl_inter.2 facts there
  constructor
  · intro entry
    refine meets c.start ?_
    rw [if_pos entry]
    exact mem_cons_self
  · intro p edge facts visited
    obtain ⟨left, there, transfer⟩ := mapM_mem each (p, facts)
      (mem_filterMap.2 ⟨p, edge, by rw [visited]; rfl⟩)
    refine ⟨left, transfer, meets left ?_⟩
    split_ifs
    · exact mem_cons_of_mem _ there
    · exact there

/-! ### What the check finds at a point -/

theorem insts_checked {l : Name} {last : Finset Name} {is : List ViewInst} {before after : Facts}
    (done : (is.zip (liveBefores last is)).foldlM (checkInst c l) before = .ok after)
    {at_ : Option Inst} (ends : checkLive c l at_ after last = .ok ()) (k : Nat) (within : k ≤ is.length) :
    ∃ facts at_, instsTransfer c.entries before (is.take k) = .ok facts ∧
      checkLive c l at_ facts (liveBefore (is.drop k) last) = .ok () := by
  induction is generalizing before k with
  | nil =>
    cases done
    rw [length_nil, Nat.le_zero] at within
    subst within
    exact ⟨after, at_, rfl, ends⟩
  | cons i is ih =>
    rw [liveBefores, zip_cons_cons, foldlM_cons] at done
    simp only [bind_ok, checkInst] at done
    obtain ⟨next, ⟨_, here, through⟩, done⟩ := done
    cases k with
    | zero => exact ⟨before, some i.bare, rfl, here⟩
    | succ k =>
      obtain ⟨facts, at', walked, checked⟩ := ih done k (Nat.le_of_succ_le_succ within)
      refine ⟨facts, at', ?_, checked⟩
      rw [take_succ_cons, instsTransfer, foldlM_cons, bind_ok]
      exact ⟨next, through, walked⟩

theorem checkBlock_point {b : ViewBlock} {out : Finset Name} {before : Facts} (done : checkBlock c b out before = .ok ())
    (k : Nat) (within : k ≤ b.insts.length) :
    ∃ facts, instsTransfer c.entries before (b.insts.take k) = .ok facts ∧
      ∀ n ∈ liveBefore (b.insts.drop k) (b.last out), (c.entries n).isSome → holds c.entries facts n := by
  rw [checkBlock, bind_ok] at done
  obtain ⟨after, insts, ends⟩ := done
  obtain ⟨facts, at_, walked, checked⟩ := insts_checked insts ends k within
  refine ⟨facts, walked, ?_⟩
  rw [checkLive] at checked
  split_ifs at checked with known held
  exact held

end

/-! ### Runs -/

theorem require_ok {ok : Prop} [Decidable ok] {error : LowersError} (done : require ok error = .ok ()) : ok := by
  rw [require] at done
  split_ifs at done with holds_
  exact holds_

/-- What an accepted frame gives: roots for the entries, and facts that the fixpoint and the liveness agree with. -/
structure Accepted (params : List Param) (blocks : List ViewBlock) (frame : Frame) (cfg : Cfg) (live : Liveness)
    (outs : Outs) : Prop where
  rooted : ∀ n ∈ pointerTemps (tempClasses params (blocks.map ViewBlock.bare)), entryOf frame.aliases n ∈ frame.roots
  labels : (blocks.map (·.label)).Nodup
  built : funcCfg (blocks.map ViewBlock.bare) = some cfg
  stable : ∀ b ∈ blocks, b.label ∈ cfg.rpo → Stable (lowersCtx params blocks frame cfg) outs b
  checked : ∀ b ∈ blocks, b.label ∈ cfg.rpo → ∀ before, blockIn (lowersCtx params blocks frame cfg) outs b = .ok before →
    checkBlock (lowersCtx params blocks frame cfg) b (live.out b.label) before = .ok ()

theorem forM_mem {ε α : Type} {f : α → Except ε Unit} {xs : List α} (done : xs.forM f = .ok ()) :
    ∀ x ∈ xs, f x = .ok () := by
  induction xs with
  | nil => simp
  | cons x xs ih =>
    obtain ⟨_, here, rest⟩ := bind_ok.1 (show (f x >>= fun _ => xs.forM f) = .ok () from done)
    intro x' there
    rcases mem_cons.1 there with rfl | there
    · exact here
    · exact ih rest x' there

variable {fuel : Nat} {params : List Param} {blocks : List ViewBlock} {frame : Frame} {cfg : Cfg} {live : Liveness}
  {outs : Outs}

theorem checkLowers_accepts (done : checkLowers fuel params blocks frame = .ok ()) :
    ∃ cfg live outs, tempLiveness fuel blocks = some live ∧ Accepted params blocks frame cfg live outs := by
  simp only [checkLowers, bind_ok] at done
  obtain ⟨_, -, _, -, _, rooted, _, -, _, labels, done⟩ := done
  have labels := require_ok labels
  cases built : funcCfg (blocks.map ViewBlock.bare) with
  | none =>
    rw [built] at done
    cases done
  | some cfg =>
    cases lives : tempLiveness fuel blocks with
    | none =>
      rw [built, lives] at done
      cases done
    | some live =>
      rw [built, lives] at done
      simp only [bind_ok] at done
      obtain ⟨outs, fixpoint, each⟩ := done
      have found : ∀ b ∈ blocks, blocks.find? (·.label = b.label) = some b := fun b here => (find_once labels).2 ⟨here, rfl⟩
      refine ⟨cfg, live, outs, rfl, fun n there => (require_ok rooted n there).2, labels, built, ?_, ?_⟩
      · exact fun b here reached => lowersFixpoint_stable fixpoint b.label reached b (found b here)
      · intro b here reached before into
        have checked := forM_mem each b.label reached
        have at_ : (lowersCtx params blocks frame cfg).blocks.find? (·.label = b.label) = some b := found b here
        rw [checkReached, at_] at checked
        simp only [bind_ok] at checked
        obtain ⟨before', into', checked⟩ := checked
        rw [into] at into'
        cases into'
        exact checked

/-- Where a run is, its facts are sound. -/
structure Placed {β : Type} (params : List Param) (blocks : List ViewBlock) (frame : Frame) (cfg : Cfg) (outs : Outs)
    (m : Machine β) : Prop where
  here : m.block ∈ blocks
  reached : m.block.label ∈ cfg.rpo
  within : m.at_ ≤ m.block.insts.length
  facts : ∃ before facts, blockIn (lowersCtx params blocks frame cfg) outs m.block = .ok before ∧
    instsTransfer (frameEntries params blocks frame) before (m.block.insts.take m.at_) = .ok facts ∧
    Sound (frameEntries params blocks frame) facts m

theorem Sound.mono {β : Type} {e : Entries} {facts facts' : Facts} {m : Machine β} (sound : Sound e facts m)
    (sub : facts' ⊆ facts) : Sound e facts' m :=
  fun k n there => sound k n (sub there)

section
variable {β : Type} {m : Machine β}

/-- The lower of a live pointer is in its entry. -/
theorem Placed.held (accepted : Accepted params blocks frame cfg live outs) (lives : tempLiveness fuel blocks = some live)
    (placed : Placed params blocks frame cfg outs m) {facts before : Facts}
    (into : blockIn (lowersCtx params blocks frame cfg) outs m.block = .ok before)
    (walked : instsTransfer (frameEntries params blocks frame) before (m.block.insts.take m.at_) = .ok facts)
    {n : Name} {k : FrameKey} (entry : frameEntries params blocks frame n = some k)
    (alive : LiveAt blocks n m.block m.at_) : (k, n) ∈ facts := by
  obtain ⟨facts', walked', all⟩ :=
    checkBlock_point (accepted.checked m.block placed.here placed.reached before into) m.at_ placed.within
  have same : facts' = facts := Except.ok.inj (walked'.symm.trans walked)
  subst same
  have isSome : ((lowersCtx params blocks frame cfg).entries n).isSome := by
    change (frameEntries params blocks frame n).isSome
    rw [entry]
    rfl
  obtain ⟨k', entry', there⟩ := holds_iff.1 (all n (alive.before accepted.labels lives) isSome)
  have key : k' = k := Option.some.inj (entry'.symm.trans entry)
  exact key ▸ there

theorem receive_sound {e : Entries} {facts : Facts} {ps : List Param} (sound : Sound e facts m) :
    Sound e (ps.foldl (paramWrite e) facts) (ps.foldl (Machine.receive e) m) := by
  induction ps generalizing facts m with
  | nil => exact sound
  | cons p ps ih =>
    refine ih ?_
    rw [paramWrite, Machine.receive]
    split_ifs
    · exact sound.define p.name _
    · exact sound

@[simp] theorem define_place (e : Entries) (n : Name) (v : β) :
    (m.define e n v).block = m.block ∧ (m.define e n v).at_ = m.at_ := by
  rw [Machine.define]
  cases e n <;> exact ⟨rfl, rfl⟩

theorem receive_place {e : Entries} {ps : List Param} :
    (ps.foldl (Machine.receive e) m).block = m.block ∧ (ps.foldl (Machine.receive e) m).at_ = m.at_ := by
  induction ps generalizing m with
  | nil => exact ⟨rfl, rfl⟩
  | cons p ps ih =>
    rw [foldl_cons, ih.1, ih.2, Machine.receive]
    split_ifs
    · exact define_place e p.name _
    · exact ⟨rfl, rfl⟩

theorem defs_block {e : Entries} {ns : List Name} {value : Name → β} :
    (ns.foldl (fun m n => m.define e n (value n)) m).block = m.block := by
  induction ns generalizing m with
  | nil => rfl
  | cons n ns ih => rw [foldl_cons, ih, (define_place e n _).1]

theorem exec_block {e : Entries} {i : Inst} {value : Name → β} : (m.exec e i value).block = m.block := by
  rw [Machine.exec]
  split
  · rfl
  · exact defs_block

/-- Every state of a run that enters no block whose phis write an entry before it is shared. -/
theorem Run.placed (accepted : Accepted params blocks frame cfg live outs) (lives : tempLiveness fuel blocks = some live)
    (run : Run (frameEntries params blocks frame) params blocks (Unrewritten (frameEntries params blocks frame)) m) :
    Placed params blocks frame cfg outs m := by
  obtain ⟨hentry, hsuccs, hpreds, ⟨rest, hrpo⟩, closed⟩ := funcCfg_spec accepted.built
  induction run with
  | @start m first begins =>
    have here : m.block ∈ blocks := mem_of_mem_head? first
    have entry : m.block.label = cfg.entry := by
      rw [hentry, blocksEntry, head?_map, first]
      rfl
    have reached : m.block.label ∈ cfg.rpo := by
      rw [hrpo, entry]
      exact mem_cons_self
    obtain ⟨before, after, into, -, -⟩ := accepted.stable m.block here reached
    obtain ⟨block, at_⟩ := @receive_place β m (frameEntries params blocks frame) params
    refine ⟨by rwa [block], by rwa [block], by rw [at_, begins]; exact Nat.zero_le _, before, before, by rwa [block], ?_, ?_⟩
    · rw [block, at_, begins]
      rfl
    · have start : Sound (frameEntries params blocks frame) (∅ : Facts) m := fun k n there => absurd there (Finset.notMem_empty _)
      exact (receive_sound start).mono ((blockIn_ok into).1 entry)
  | @inst m i run at_ value ih =>
    obtain ⟨before, facts, into, walked, sound⟩ := ih.facts
    obtain ⟨lt, same⟩ := List.getElem?_eq_some_iff.1 at_
    obtain ⟨next, through, -⟩ :=
      checkBlock_point (accepted.checked m.block ih.here ih.reached before into) (m.at_ + 1) lt
    have stepped : instTransfer (frameEntries params blocks frame) facts i.bare = .ok next := by
      rw [take_add_one, at_, instsTransfer, foldlM_append, bind_ok] at through
      obtain ⟨facts', walked', through⟩ := through
      have same : facts' = facts := Except.ok.inj (walked'.symm.trans walked)
      subst same
      change instTransfer (lowersCtx params blocks frame cfg).entries facts' i.bare = .ok next
      simpa using through
    refine ⟨?_, ?_, ?_, before, next, ?_, ?_, ?_⟩
    · dsimp only
      rw [exec_block]
      exact ih.here
    · dsimp only
      rw [exec_block]
      exact ih.reached
    · dsimp only
      rw [exec_block]
      exact lt
    · dsimp only
      rwa [exec_block]
    · dsimp only
      rw [exec_block]
      exact through
    · exact sound.exec stepped value
  | @enter m s run ends there jumps plain value ih =>
    obtain ⟨before, facts, into, walked, sound⟩ := ih.facts
    have edge : BlockEdge (blocks.map ViewBlock.bare) m.block.label s.label := by
      rw [BlockEdge, blockSuccs_bare accepted.labels ih.here]
      exact jumps
    have reached : s.label ∈ cfg.rpo := closed m.block.label ih.reached s.label edge
    obtain ⟨before', after', into', -, -⟩ := accepted.stable s there reached
    have visited : outs m.block.label = some facts := by
      obtain ⟨before1, after1, into1, through1, visited⟩ := accepted.stable m.block ih.here ih.reached
      have same : before1 = before := Except.ok.inj (into1.symm.trans into)
      subst same
      rw [ends, take_length] at walked
      rw [visited, ← Except.ok.inj (through1.symm.trans walked)]
    have pred : m.block.label ∈ (lowersCtx params blocks frame cfg).preds s.label := by
      change m.block.label ∈ cfg.preds s.label
      rw [hpreds]
      exact mem_blockPreds edge
    obtain ⟨left, transfer, sub⟩ := (blockIn_ok into').2 m.block.label pred facts visited
    refine ⟨there, reached, Nat.zero_le _, before', before', into', rfl, ?_⟩
    refine Sound.mono (Sound.phis plain ?_ sound transfer) sub
    intro ph phi pointer shared v input k entry
    obtain ⟨pair, alike, -⟩ := sharedPhi_input shared input
    have alive : LiveAt blocks v m.block m.at_ := ends ▸ LiveAt.edge ih.here there jumps phi pair
    exact (sound k v (ih.held accepted lives into walked (alike.trans entry) alive)).2

end

/-- At every point of a run, the entry of each live pointer is a root of the frame and holds its lower,
when the frame is accepted and no block that was entered shares an entry after one of its phis wrote it. -/
theorem lowers_held {β : Type} {fuel : Nat} {params : List Param} {blocks : List ViewBlock} {frame : Frame}
    {m : Machine β} (accepted : checkLowers fuel params blocks frame = .ok ())
    (run : Run (frameEntries params blocks frame) params blocks (Unrewritten (frameEntries params blocks frame)) m) :
    Held (frameEntries params blocks frame) blocks frame m := by
  obtain ⟨cfg, live, outs, lives, accepted⟩ := checkLowers_accepts accepted
  have placed := run.placed accepted lives
  obtain ⟨before, facts, into, walked, sound⟩ := placed.facts
  intro n k entry alive
  refine ⟨?_, (sound k n (placed.held accepted lives into walked entry alive)).2⟩
  rw [frameEntries, entriesOf] at entry
  split_ifs at entry with pointer
  cases entry
  exact accepted.rooted n pointer

theorem accepted_ok {x : Except LowersError Unit} (accepted : x.toOption.isSome = true) : x = .ok () := by
  cases x with
  | error e => cases accepted
  | ok u => rfl

/-- Pointers `a` and `b` in one entry of the pointer pool. -/
def sharedFrame : Frame :=
  ⟨[.lower (.storage .pointer 0)],
    [(.lower (.tmp "a"), .lower (.storage .pointer 0)), (.lower (.tmp "b"), .lower (.storage .pointer 0))]⟩

/-- A parameter and a flight of it that is read after it. -/
def flightBlocks : List ViewBlock :=
  [⟨"start", [], [.plain (.flight "b" .add [.address (.tmp "a"), .value (.const 8)] (.lower (.tmp "a")))], .ret (.tmp "b")⟩]

theorem lowers_held_flight :
    Held (frameEntries [⟨.p, "a"⟩] flightBlocks sharedFrame) flightBlocks sharedFrame
      ((([⟨.p, "a"⟩] : List Param).foldl (Machine.receive (frameEntries [⟨.p, "a"⟩] flightBlocks sharedFrame))
        ⟨flightBlocks.head (by decide), 0, fun _ => 1, fun _ => 0⟩ : Machine Nat)) :=
  lowers_held (show checkLowers 9 [⟨.p, "a"⟩] flightBlocks sharedFrame = .ok () from accepted_ok (by decide +kernel))
    (.start rfl rfl)

/-- `a` is written by a phi, and then `b` takes what `a` held before. -/
def rewrittenBlocks : List ViewBlock :=
  [⟨"start", [], [], .goto (.label "next")⟩,
    ⟨"next", [⟨"a", .p, [("start", .const 0)]⟩, ⟨"b", .p, [("start", .tmp "a")]⟩],
      [.plain (.let_ "v" .l (.load .l) [.tmp "b"])], .ret (.tmp "v")⟩]

theorem rewritten_lost : ¬∀ (β : Type) (fuel : Nat) (params : List Param) (blocks : List ViewBlock) (frame : Frame)
    (m : Machine β), checkLowers fuel params blocks frame = .ok () →
      Run (frameEntries params blocks frame) params blocks (fun _ => True) m →
        Held (frameEntries params blocks frame) blocks frame m := by
  intro claim
  have accepted : checkLowers 9 [⟨.p, "a"⟩] rewrittenBlocks sharedFrame = .ok () := accepted_ok (by decide +kernel)
  have starts : Run (frameEntries [⟨.p, "a"⟩] rewrittenBlocks sharedFrame) [⟨.p, "a"⟩] rewrittenBlocks (fun _ => True) _ :=
    .start (m := (⟨rewrittenBlocks.head (by decide), 0, fun _ => 1, fun _ => 0⟩ : Machine Nat)) rfl rfl
  have run := starts.enter (s := rewrittenBlocks[1]) rfl (getElem_mem _) (by decide) trivial (fun _ => 0)
  have alive : LiveAt rewrittenBlocks "b" rewrittenBlocks[1] 0 :=
    .reads (i := .plain (.let_ "v" .l (.load .l) [.tmp "b"])) (getElem_mem _) rfl (by decide)
  have lost := (claim Nat 9 _ _ _ _ accepted run "b" (.lower (.storage .pointer 0)) (by decide) alive).2
  exact absurd lost (by decide)

end Nanofil.Framing
