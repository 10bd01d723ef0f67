import Nanofil.Framing.Liveness

/-! `lowers_check.pl`: what a frame must keep of the pointers' lowers, checked block
by block. The facts say which names an entry was last written with a lower of;
they are met over the predecessors until nothing changes. -/
namespace Nanofil.Framing

inductive Pool
  | pointer | address | scalar | float | wide
deriving DecidableEq, Repr

/-- A term that a frame's tables name. -/
inductive FrameKey
  | tmp (n : Name)
  | storage (pool : Pool) (i : Nat)
  | shadow (n : Name)
  | lower (k : FrameKey)
deriving DecidableEq, Repr

structure Frame where
  roots : List FrameKey
  aliases : List (FrameKey × FrameKey)

inductive LowersError
  | rootsRepeated
  | notInEntry
  | setjmpShares
  | noInput (phi : Name) (from_ : Name)
  | phiStale (phi input : Name) (from_ : Name)
  | flightStale (flight donor : Name)
  | neverDefined (label : Name) (at_ : Option Inst) (names : Finset Name)
  | notHeld (label : Name) (at_ : Option Inst) (names : Finset Name)
  | malformed
  | unfinished

/-! ### The frame -/

abbrev Entries := Name → Option FrameKey

def pointerTemps (defs : List (Name × Cls)) : List Name := ((defs.filter (·.2 = .p)).map (·.1)).dedup

/-- The root that a temporary's lower key names, through the aliases. -/
def entryOf (aliases : List (FrameKey × FrameKey)) (n : Name) : FrameKey :=
  (aliases.lookup (.lower (.tmp n))).getD (.lower (.tmp n))

def entriesOf (aliases : List (FrameKey × FrameKey)) (ps : List Name) : Entries :=
  fun n => if n ∈ ps then some (entryOf aliases n) else none

def tempRoot (n : Name) : FrameKey → Bool
  | .lower (.tmp m) => m = n
  | .lower (.storage .pointer _) => true
  | _ => false

def setjmpLet : Inst → Bool
  | .let_ _ .w (.setjmp _) _ => true
  | _ => false

/-! ### Facts -/

/-- Entries with the names whose lower each was last written with. -/
abbrev Facts := Finset (FrameKey × Name)

def Facts.write (facts : Facts) (k : FrameKey) (n : Name) : Facts := insert (k, n) (facts.filter (·.1 ≠ k))

def writeEntry (e : Entries) (facts : Facts) (n : Name) : Facts :=
  match e n with
  | some k => facts.write k n
  | none => facts

def shareEntry (e : Entries) (facts : Facts) (n : Name) : Facts :=
  match e n with
  | some k => insert (k, n) facts
  | none => facts

def holds (e : Entries) (facts : Facts) (n : Name) : Bool :=
  match e n with
  | some k => (k, n) ∈ facts
  | none => false

def paramWrite (e : Entries) (facts : Facts) (p : Param) : Facts :=
  if p.cls = .p then writeEntry e facts p.name else facts

/-! ### Transfer -/

def sharedPhi (e : Entries) (ph : Phi) : Bool :=
  (e ph.dst).isSome && ph.pairs.all (fun pv => match pv.2 with
    | .tmp m => e m = e ph.dst
    | _ => false)

def phiInput (from_ : Name) (ph : Phi) : Option Name :=
  ph.pairs.findSome? (fun pv => if pv.1 = from_ then pv.2.temp? else none)

def phiTransfer (e : Entries) (from_ : Name) (facts : Facts) (ph : Phi) : Except LowersError Facts :=
  if ph.cls = .p then
    if sharedPhi e ph then
      match phiInput from_ ph with
      | none => .error (.noInput ph.dst from_)
      | some v => if holds e facts v then .ok (shareEntry e facts ph.dst) else .error (.phiStale ph.dst v from_)
    else .ok (writeEntry e facts ph.dst)
  else .ok facts

/-- A flight whose donor has its entry, and the donor. -/
def sharedFlight (e : Entries) : Inst → Option (Name × Name)
  | .flight n _ _ (.lower (.tmp p)) => if p ≠ n ∧ (e n).isSome ∧ e p = e n then some (n, p) else none
  | _ => none

def instTransfer (e : Entries) (facts : Facts) (i : Inst) : Except LowersError Facts :=
  match sharedFlight e i with
  | some (n, p) => if holds e facts p then .ok (shareEntry e facts n) else .error (.flightStale n p)
  | none => .ok ((instDefs i).foldl (writeEntry e) facts)

/-! ### The fixpoint -/

structure LowersCtx where
  entries : Entries
  known : Finset Name
  blocks : List ViewBlock
  preds : Name → List Name
  entry : Name
  start : Facts

abbrev Outs := Name → Option Facts

/-- The meet of what the visited predecessors' edges leave after the phis, and the parameters' at the entry. -/
def blockIn (c : LowersCtx) (outs : Outs) (b : ViewBlock) : Except LowersError Facts := do
  let left ← ((c.preds b.label).filterMap (fun p => (outs p).map (p, ·))).mapM
    (fun from_ => b.phis.foldlM (phiTransfer c.entries from_.1) from_.2)
  match if b.label = c.entry then c.start :: left else left with
  | first :: others => return others.foldl (· ∩ ·) first
  | [] => return ∅

def instsTransfer (e : Entries) (facts : Facts) (is : List ViewInst) : Except LowersError Facts :=
  is.foldlM (fun facts i => instTransfer e facts i.bare) facts

def blockPass (c : LowersCtx) (st : Outs × Bool) (l : Name) : Except LowersError (Outs × Bool) :=
  match c.blocks.find? (·.label = l) with
  | none => .error .malformed
  | some b => do
    let before ← blockIn c st.1 b
    let after ← instsTransfer c.entries before b.insts
    return if st.1 l = some after then st else (Function.update st.1 l (some after), true)

def lowersFixpoint (c : LowersCtx) (rpo : List Name) : Nat → Outs → Except LowersError Outs
  | 0, _ => .error .unfinished
  | fuel + 1, outs => do
    let r ← rpo.foldlM (blockPass c) (outs, false)
    if r.2 then lowersFixpoint c rpo fuel r.1 else return r.1

/-! ### The check -/

def liveBefores (last : Finset Name) : List ViewInst → List (Finset Name)
  | [] => []
  | i :: is => liveBefore (i :: is) last :: liveBefores last is

def checkLive (c : LowersCtx) (l : Name) (at_ : Option Inst) (facts : Facts) (live : Finset Name) :
    Except LowersError Unit :=
  if live ⊆ c.known then
    if ∀ n ∈ live, (c.entries n).isSome → holds c.entries facts n then .ok ()
    else .error (.notHeld l at_ (live.filter (fun n => (c.entries n).isSome && !holds c.entries facts n)))
  else .error (.neverDefined l at_ (live \ c.known))

def checkInst (c : LowersCtx) (l : Name) (facts : Facts) (i : ViewInst × Finset Name) : Except LowersError Facts := do
  checkLive c l (some i.1.bare) facts i.2
  instTransfer c.entries facts i.1.bare

def checkBlock (c : LowersCtx) (b : ViewBlock) (out : Finset Name) (before : Facts) : Except LowersError Unit := do
  let after ← (b.insts.zip (liveBefores (b.last out) b.insts)).foldlM (checkInst c b.label) before
  checkLive c b.label none after (b.last out)

def require (ok : Prop) [Decidable ok] (error : LowersError) : Except LowersError Unit :=
  if ok then .ok () else .error error

/-- What the blocks' check runs on, of a frame whose roots are in order. -/
def lowersCtx (params : List Param) (blocks : List ViewBlock) (frame : Frame) (cfg : Cfg) : LowersCtx :=
  let defs := tempClasses params (blocks.map ViewBlock.bare)
  let entries := entriesOf frame.aliases (pointerTemps defs)
  ⟨entries, (defs.map (·.1)).toFinset, blocks, cfg.preds, cfg.entry, params.foldl (paramWrite entries) ∅⟩

def checkReached (c : LowersCtx) (outs : Outs) (live : Liveness) (l : Name) : Except LowersError Unit :=
  match c.blocks.find? (·.label = l) with
  | none => .error .malformed
  | some b => do
    let before ← blockIn c outs b
    checkBlock c b (live.out l) before

/-- `check_lowers/4`, on as many rounds as `fuel` allows its fixpoints. -/
def checkLowers (fuel : Nat) (params : List Param) (blocks : List ViewBlock) (frame : Frame) :
    Except LowersError Unit := do
  let bare := blocks.map ViewBlock.bare
  let ps := pointerTemps (tempClasses params bare)
  require (frame.aliases.map (·.1)).Nodup .malformed
  require frame.roots.Nodup .rootsRepeated
  require (∀ n ∈ ps, tempRoot n (entryOf frame.aliases n) ∧ entryOf frame.aliases n ∈ frame.roots) .notInEntry
  require ((∃ b ∈ bare, b.insts.any setjmpLet) → (ps.map (entryOf frame.aliases)).Nodup) .setjmpShares
  require (blocks.map (·.label)).Nodup .malformed
  match funcCfg bare, tempLiveness fuel blocks with
  | some cfg, some live =>
    let c := lowersCtx params blocks frame cfg
    let outs ← lowersFixpoint c cfg.rpo fuel (fun _ => none)
    cfg.rpo.forM (checkReached c outs live)
  | none, _ => .error .malformed
  | some _, none => .error .unfinished

end Nanofil.Framing
