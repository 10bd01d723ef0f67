import Nanofil.Framing.Lowers
import Nanofil.Lib.Packing

/-! `frame_slots.pl`: a frame slot for each temporary, shared by temporaries whose live
intervals are apart. The points are those of the blocks in their order: one for what
is live into a block and its phis, one for each instruction and one for its exit. -/
namespace Nanofil.Framing
open List Option Packing

/-- The key of a variadic function's hidden parameter. -/
def vaSnapshot : Name := "hidden(va_snapshot)"

structure Range where
  start : Nat
  stop : Nat
  pool : Pool
  name : Name
deriving DecidableEq, Repr

/-- Wide ranges and the others. -/
abbrev Ranges := List Range × List Range

/-- How slots are pooled; `groups` gives temporaries' groups, and `ranges` may be of an earlier lowering. -/
inductive Pools
  | shared
  | own
  | groups (gs : List (Name × Name))
  | ranges (gs : List (Name × Name)) (bound : Option Ranges)

def classPool : Cls → Pools → Option Pool
  | .p, _ => some .pointer
  | .w, _ | .l, _ => some .scalar
  | .s, .shared | .d, .shared => some .scalar
  | .s, _ | .d, _ => some .float
  | .x, _ => some .wide
  | _, _ => none

/-! ### Touches -/

inductive Side
  | into | out
deriving DecidableEq, Repr

/-- Names touched at a point; a live set is tagged with its side. -/
structure Touch where
  live : Option Side
  names : Finset Name
  point : Nat

def instRanges : List ViewInst → Nat → List Touch
  | [], _ => []
  | i :: is, p => ⟨none, i.reads.toFinset, p⟩ :: ⟨none, i.defs.toFinset, p⟩ :: instRanges is (p + 1)

def exitPoint (b : ViewBlock) (p : Nat) : Nat := p + 1 + b.insts.length

/-- The live-in set less what was live out of the block before, the live-out set less what is live into the next. -/
def blockRanges (live : Liveness) : List ViewBlock → Finset Name → Nat → List Touch
  | [], _, _ => []
  | b :: bs, prevOut, p =>
    let nextIn := (bs.head?.map (fun next => live.into next.label)).getD ∅
    ⟨some .into, live.into b.label \ prevOut, p⟩ :: ⟨none, (b.phis.map (·.dst)).toFinset, p⟩ ::
      (instRanges b.insts (p + 1) ++ ⟨none, (jumpUses b.jump).toFinset, exitPoint b p⟩ ::
        ⟨some .out, live.out b.label \ nextIn, exitPoint b p⟩ ::
          blockRanges live bs (live.out b.label) (exitPoint b p + 1))

def endPoint : List ViewBlock → Nat → Nat
  | [], p => p
  | b :: bs, p => endPoint bs (exitPoint b p + 1)

/-- The hidden parameter is touched at the end. -/
def keptTouches (params : List Param) (end_ : Nat) : List Touch :=
  if ∃ p ∈ params, p.cls = .p ∧ p.name = vaSnapshot then [⟨none, {vaSnapshot}, end_⟩] else []

def touches (params : List Param) (blocks : List ViewBlock) (live : Liveness) : List Touch :=
  ⟨none, (params.map (·.name)).toFinset, 0⟩ :: (blockRanges live blocks ∅ 1 ++ keptTouches params (endPoint blocks 1))

/-- The point of the first touch of each name, without the live sets of one side. -/
def firstTouches (skip : Side) : List Touch → Name → Option Nat
  | [], _ => none
  | t :: ts, n => if t.live ≠ some skip ∧ n ∈ t.names then some t.point else firstTouches skip ts n

/-! ### Ranges -/

def tempInterval (pools : Pools) (ts : List Touch) (t : Name × Cls) : Option Range := do
  let start ← firstTouches .out ts t.1
  let stop ← firstTouches .into ts.reverse t.1
  let pool ← classPool t.2 pools
  return ⟨start, stop, pool, t.1⟩

def hull (r : Range) (d : Range) : Range := { r with start := min r.start d.start, stop := max r.stop d.stop }

/-- A derived pointer goes to the address pool, and its root's range grows to the hull of both. -/
def derivedRange (derived : List (Name × Name)) (rs : List Range) (r : Range) : Range :=
  if r.pool = .pointer then
    if (derived.lookup r.name).isSome then { r with pool := .address }
    else (rs.filter (fun d => derived.lookup d.name = some r.name)).foldl hull r
  else r

/-- The place of a pool's atom in the standard order. -/
def Pool.rank : Pool → Nat
  | .address => 0
  | .float => 1
  | .pointer => 2
  | .scalar => 3
  | .wide => 4

def Range.le (r r' : Range) : Bool :=
  if r.start ≠ r'.start then r.start < r'.start
  else if r.stop ≠ r'.stop then r.stop < r'.stop
  else if r.pool ≠ r'.pool then r.pool.rank < r'.pool.rank
  else r.name ≤ r'.name

/-- A function's temporaries with their classes. -/
def frameTemps (params : List Param) (blocks : List ViewBlock) : List (Name × Cls) :=
  (tempClasses params (blocks.map ViewBlock.bare)).dedup.insertionSort (fun t t' => t.1 ≤ t'.1)

def tempRanges (fuel : Nat) (pools : Pools) (derived : List (Name × Name)) (params : List Param)
    (blocks : List ViewBlock) : Option Ranges := do
  let live ← tempLiveness fuel blocks
  let rs ← (frameTemps params blocks).mapM (tempInterval pools (touches params blocks live))
  let sorted := (rs.map (derivedRange derived rs)).dedup.insertionSort (fun r r' => r.le r')
  return (sorted.filter (·.pool = .wide), sorted.filter (·.pool ≠ .wide))

/-! ### Groups -/

/-- The groups of the scalar temporaries, none when they are all of one. -/
def Pools.ownGroups : Pools → Option (List (Name × Name))
  | .shared => none
  | .own => some []
  | .groups gs | .ranges gs _ => some gs

def frameRange (groups : Option (List (Name × Name))) (r : Range) : Bool :=
  match groups with
  | none => true
  | some gs => r.pool ≠ .scalar || gs.lookup r.name = some "frame"

/-- The ranges of each group but the frame's, by its key, and those of no group. -/
def groupRanges (groups : Option (List (Name × Name))) (rs : List Range) : List (List Range) × List Range :=
  match groups with
  | none => ([], [])
  | some gs =>
    let scalars := rs.filter (·.pool = .scalar)
    let keys := sortNames (scalars.filterMap (fun r => gs.lookup r.name)).dedup
    (keys.map (fun k => scalars.filter (fun r => gs.lookup r.name = some k)),
      scalars.filter (fun r => gs.lookup r.name = none))

/-! ### Slots -/

/-- Each pool's open slots, with where they stop, and its count. -/
abbrev Stock := Pool → List (Nat × Nat) × Nat

/-- An own scalar temporary gets a slot that nothing reuses. -/
def poolSlot (own : Bool) (r : Range) (st : Stock) : Stock × Nat :=
  let (slots, count) := st r.pool
  if own ∧ r.pool = .scalar then (Function.update st r.pool (slots, count + 1), count)
  else
    let (slots', count', i) := reuse r.start r.stop count slots
    (Function.update st r.pool (slots', count'), i)

def allocate (own : Bool) : List Range → Stock → List (Range × Nat) × Stock
  | [], st => ([], st)
  | r :: rs, st =>
    let (st1, i) := poolSlot own r st
    let (used, st2) := allocate own rs st1
    ((r, i) :: used, st2)

/-- A group's temporaries reuse each other's slots, not other groups'. -/
def groupsAllocate : List (List Range) → Stock → List (Range × Nat) × Stock
  | [], st => ([], st)
  | rs :: groups, st =>
    let (used, st1) := allocate false rs (Function.update st .scalar ([], (st .scalar).2))
    let (later, st2) := groupsAllocate groups st1
    (used ++ later, st2)

structure TempSlots where
  aliases : List (Name × Pool × Nat)
  counts : Pool → Nat

def Pools.bound : Pools → Option Ranges
  | .ranges _ bound => bound
  | _ => none

/-- The ranges that slots are taken for: those of an earlier lowering, or the function's own. -/
def slotRanges (fuel : Nat) (pools : Pools) (derived : List (Name × Name)) (params : List Param) (blocks : List ViewBlock) :
    Option Ranges :=
  match pools.bound with
  | some ranges => some ranges
  | none => tempRanges fuel pools derived params blocks

/-- The slots of a function's temporaries: the frame group's first, then each group's, those of the temporaries
that have their own, and the wide ones'. -/
def tempSlots (fuel : Nat) (pools : Pools) (derived : List (Name × Name)) (params : List Param)
    (blocks : List ViewBlock) : Option TempSlots := do
  let (wides, intervals) ← slotRanges fuel pools derived params blocks
  let groups := pools.ownGroups
  let (frame, st1) := allocate false (intervals.filter (frameRange groups)) (fun _ => ([], 0))
  let (grouped, owns) := groupRanges groups (intervals.filter (fun r => !frameRange groups r))
  let (pooled, st2) := groupsAllocate grouped st1
  let (alone, st3) := allocate true owns st2
  let (wide, st4) := allocate false wides st3
  return ⟨(frame ++ pooled ++ alone ++ wide).map (fun u => (u.1.name, u.1.pool, u.2)), fun pool => (st4 pool).2⟩

/-! The intervals that the reduced touches give: for each temporary, from the least to
the greatest of all points at which the function needs it. -/

/-- A name is needed at a point of blocks laid out from another: live into or out of a block, a phi's, read or
written by an instruction or read by a jump. -/
inductive Needed (live : Liveness) (n : Name) : List ViewBlock → Nat → Nat → Prop
  | enters {b : ViewBlock} {bs : List ViewBlock} {p : Nat} : n ∈ live.into b.label → Needed live n (b :: bs) p p
  | phi {b : ViewBlock} {bs : List ViewBlock} {p : Nat} : n ∈ b.phis.map (·.dst) → Needed live n (b :: bs) p p
  | reads {b : ViewBlock} {bs : List ViewBlock} {p k : Nat} {i : ViewInst} : b.insts[k]? = some i → n ∈ i.reads →
      Needed live n (b :: bs) p (p + 1 + k)
  | writes {b : ViewBlock} {bs : List ViewBlock} {p k : Nat} {i : ViewInst} : b.insts[k]? = some i → n ∈ i.defs →
      Needed live n (b :: bs) p (p + 1 + k)
  | jumps {b : ViewBlock} {bs : List ViewBlock} {p : Nat} : n ∈ jumpUses b.jump → Needed live n (b :: bs) p (exitPoint b p)
  | leaves {b : ViewBlock} {bs : List ViewBlock} {p : Nat} : n ∈ live.out b.label → Needed live n (b :: bs) p (exitPoint b p)
  | later {b : ViewBlock} {bs : List ViewBlock} {p q : Nat} : Needed live n bs (exitPoint b p + 1) q → Needed live n (b :: bs) p q

/-- The points of a function that need a name: parameters at 0, and a hidden one at the end. -/
def NeededAt (params : List Param) (blocks : List ViewBlock) (live : Liveness) (n : Name) : Set Nat :=
  {p | p = 0 ∧ n ∈ params.map (·.name) ∨ Needed live n blocks 1 p ∨
    p = endPoint blocks 1 ∧ n = vaSnapshot ∧ ∃ q ∈ params, q.cls = .p ∧ q.name = vaSnapshot}

/-! ### What the equations say of a block -/

def ReadIn (n : Name) (b : ViewBlock) : Prop :=
  (∃ (k : Nat) (i : ViewInst), b.insts[k]? = some i ∧ n ∈ i.reads) ∨ n ∈ jumpUses b.jump

def WrittenIn (n : Name) (b : ViewBlock) : Prop :=
  n ∈ b.phis.map (·.dst) ∨ ∃ (k : Nat) (i : ViewInst), b.insts[k]? = some i ∧ n ∈ i.defs

/-- What is live into a block is read there or live out; what is live out is live into it or written there. -/
structure Flowing (live : Liveness) (b : ViewBlock) : Prop where
  into : ∀ n ∈ live.into b.label, ReadIn n b ∨ n ∈ live.out b.label
  out : ∀ n ∈ live.out b.label, n ∈ live.into b.label ∨ WrittenIn n b

variable {b : ViewBlock} {bs : List ViewBlock} {p q : Nat} {t : Touch} {prev : Finset Name}

theorem mem_blockEvents {n : Name} {e : Event} : (n, e) ∈ blockEvents b → e = .use ∧ ReadIn n b ∨ e = .def_ ∧ WrittenIn n b := by
  intro there
  rcases mem_append.1 there with there | jump
  · rcases mem_append.1 there with phi | inst
    · obtain ⟨ph, mem, same⟩ := List.mem_map.1 phi
      cases same
      exact .inr ⟨rfl, .inl (List.mem_map_of_mem mem)⟩
    · obtain ⟨i, mem, event⟩ := mem_flatMap.1 inst
      obtain ⟨k, at_⟩ := mem_iff_getElem?.1 mem
      rcases mem_append.1 event with read | write
      · obtain ⟨n', mem', same⟩ := List.mem_map.1 read
        cases same
        exact .inl ⟨rfl, .inl ⟨k, i, at_, mem'⟩⟩
      · obtain ⟨n', mem', same⟩ := List.mem_map.1 write
        cases same
        exact .inr ⟨rfl, .inr ⟨k, i, at_, mem'⟩⟩
  · obtain ⟨n', mem, same⟩ := List.mem_map.1 jump
    cases same
    exact .inl ⟨rfl, .inr mem⟩

theorem readIn_of_gen {n : Name} (gen : n ∈ blockGen b) : ReadIn n b := by
  have first := (Finset.mem_filter.1 gen).2
  rcases mem_blockEvents (mem_of_find?_eq_some first) with ⟨-, read⟩ | ⟨no, -⟩
  · exact read
  · cases no

theorem writtenIn_of_kill {n : Name} (kill : n ∈ blockKill b) : WrittenIn n b := by
  obtain ⟨⟨n', e⟩, event, rfl⟩ := List.mem_map.1 (List.mem_toFinset.1 kill)
  obtain ⟨event, def_⟩ := mem_filter.1 event
  rcases mem_blockEvents event with ⟨rfl, -⟩ | ⟨-, written⟩
  · simp at def_
  · exact written

theorem tempLiveness_flowing {fuel : Nat} {live : Liveness} (labels : (bs.map (·.label)).Nodup)
    (done : tempLiveness fuel bs = some live) : ∀ b ∈ bs, Flowing live b := by
  intro b here
  obtain ⟨cfg, -, out, into⟩ := tempLiveness_solves done
  have solved : live.into b.label = blockGen b ∪ (live.out b.label \ blockKill b) := by
    rw [into b here, liveIn, out]
    change blockSets blockGen bs b.label ∪ (_ \ blockSets blockKill bs b.label) = _
    rw [blockSets_label labels here, blockSets_label labels here]
  refine ⟨fun n there => ?_, fun n there => ?_⟩
  · rw [solved, Finset.mem_union, Finset.mem_sdiff] at there
    exact there.imp readIn_of_gen And.left
  · by_cases kill : n ∈ blockKill b
    · exact .inr (writtenIn_of_kill kill)
    · left
      rw [solved, Finset.mem_union, Finset.mem_sdiff]
      exact .inr ⟨there, kill⟩

/-! ### The touches of the blocks -/

theorem mem_instRanges {is : List ViewInst} : t ∈ instRanges is p ↔
    ∃ (k : Nat) (i : ViewInst), is[k]? = some i ∧ (t = ⟨none, i.reads.toFinset, p + k⟩ ∨ t = ⟨none, i.defs.toFinset, p + k⟩) := by
  induction is generalizing p with
  | nil => simp [instRanges]
  | cons i is ih =>
    rw [instRanges, mem_cons, mem_cons, ih]
    constructor
    · rintro (rfl | rfl | ⟨k, i', at_, same⟩)
      · exact ⟨0, i, rfl, .inl rfl⟩
      · exact ⟨0, i, rfl, .inr rfl⟩
      · exact ⟨k + 1, i', at_, by rwa [Nat.add_comm k 1, ← Nat.add_assoc]⟩
    · rintro ⟨k, i', at_, same⟩
      cases k with
      | zero =>
        cases at_
        exact same.elim .inl (fun same => .inr (.inl same))
      | succ k => exact .inr (.inr ⟨k, i', at_, by rwa [Nat.add_comm k 1, ← Nat.add_assoc] at same⟩)

variable {live : Liveness} {n : Name}

def nextIn (live : Liveness) (bs : List ViewBlock) : Finset Name := (bs.head?.map (fun next => live.into next.label)).getD ∅

theorem mem_blockRanges : t ∈ blockRanges live (b :: bs) prev p ↔
      t = ⟨some .into, live.into b.label \ prev, p⟩ ∨ t = ⟨none, (b.phis.map (·.dst)).toFinset, p⟩ ∨
      t ∈ instRanges b.insts (p + 1) ∨ t = ⟨none, (jumpUses b.jump).toFinset, exitPoint b p⟩ ∨
      t = ⟨some .out, live.out b.label \ nextIn live bs, exitPoint b p⟩ ∨
      t ∈ blockRanges live bs (live.out b.label) (exitPoint b p + 1) := by
  rw [blockRanges, mem_cons, mem_cons, mem_append, mem_cons, mem_cons, nextIn]

/-- A touch that a pass looks at. -/
def Touch.Hits (skip : Side) (n : Name) (t : Touch) : Prop := t.live ≠ some skip ∧ n ∈ t.names

/-- What is written in a block is touched at or before its exit. -/
theorem written_touched {skip : Side}
    (written : WrittenIn n b) : ∃ t ∈ blockRanges live (b :: bs) prev p, t.Hits skip n ∧ t.point ≤ exitPoint b p := by
  rcases written with phi | ⟨k, i, at_, write⟩
  · exact ⟨_, mem_blockRanges.2 (.inr (.inl rfl)), ⟨nofun, List.mem_toFinset.2 phi⟩, by dsimp only [exitPoint]; omega⟩
  · have inside : k < b.insts.length := (List.getElem?_eq_some_iff.1 at_).1
    exact ⟨_, mem_blockRanges.2 (.inr (.inr (.inl (mem_instRanges.2 ⟨k, i, at_, .inr rfl⟩)))),
      ⟨nofun, List.mem_toFinset.2 write⟩, by dsimp only [exitPoint]; omega⟩

/-- What is read in a block is touched after its point. -/
theorem read_touched {skip : Side}
    (read : ReadIn n b) : ∃ t ∈ blockRanges live (b :: bs) prev p, t.Hits skip n ∧ p ≤ t.point := by
  rcases read with ⟨k, i, at_, use⟩ | use
  · exact ⟨_, mem_blockRanges.2 (.inr (.inr (.inl (mem_instRanges.2 ⟨k, i, at_, .inl rfl⟩)))),
      ⟨nofun, List.mem_toFinset.2 use⟩, by dsimp only; omega⟩
  · exact ⟨_, mem_blockRanges.2 (.inr (.inr (.inr (.inl rfl)))), ⟨nofun, List.mem_toFinset.2 use⟩,
      by dsimp only [exitPoint]; omega⟩

/-- A point that needs a name is of a live set or of a later block, or has a touch that no pass skips. -/
theorem Needed.touched (needed : Needed live n (b :: bs) p q) :
    (q = p ∧ n ∈ live.into b.label) ∨ (q = exitPoint b p ∧ n ∈ live.out b.label) ∨
      Needed live n bs (exitPoint b p + 1) q ∨
      ∃ t ∈ blockRanges live (b :: bs) prev p, t.live = none ∧ n ∈ t.names ∧ t.point = q := by
  cases needed with
  | enters into => exact .inl ⟨rfl, into⟩
  | phi dst =>
    exact .inr (.inr (.inr ⟨_, mem_blockRanges.2 (.inr (.inl rfl)), rfl, List.mem_toFinset.2 dst, rfl⟩))
  | reads at_ use =>
    exact .inr (.inr (.inr ⟨_, mem_blockRanges.2 (.inr (.inr (.inl (mem_instRanges.2 ⟨_, _, at_, .inl rfl⟩)))), rfl,
      List.mem_toFinset.2 use, rfl⟩))
  | writes at_ write =>
    exact .inr (.inr (.inr ⟨_, mem_blockRanges.2 (.inr (.inr (.inl (mem_instRanges.2 ⟨_, _, at_, .inr rfl⟩)))), rfl,
      List.mem_toFinset.2 write, rfl⟩))
  | jumps use =>
    exact .inr (.inr (.inr ⟨_, mem_blockRanges.2 (.inr (.inr (.inr (.inl rfl)))), rfl, List.mem_toFinset.2 use, rfl⟩))
  | leaves out => exact .inr (.inl ⟨rfl, out⟩)
  | later needed => exact .inr (.inr (.inl needed))

theorem Needed.after {bs : List ViewBlock} {p q : Nat} (needed : Needed live n bs p q) : p ≤ q := by
  induction needed with
  | enters | phi => exact le_rfl
  | reads | writes => omega
  | jumps | leaves =>
    dsimp only [exitPoint]
    omega
  | later _ ih =>
    dsimp only [exitPoint] at ih
    omega

/-- Forwards, what was not live out before has a touch at or before any point that needs it. -/
theorem first_touched (flowing : ∀ b ∈ bs, Flowing live b)
    (needed : Needed live n bs p q) (fresh : n ∉ prev) : ∃ t ∈ blockRanges live bs prev p, t.Hits .out n ∧ t.point ≤ q := by
  induction bs generalizing prev p q with
  | nil => cases needed
  | cons b bs ih =>
    have flow := flowing b mem_cons_self
    have enters : n ∈ live.into b.label → ∃ t ∈ blockRanges live (b :: bs) prev p, t.Hits .out n ∧ t.point ≤ p := fun into =>
      ⟨_, mem_blockRanges.2 (.inl rfl), ⟨nofun, Finset.mem_sdiff.2 ⟨into, fresh⟩⟩, le_rfl⟩
    have leaves : n ∈ live.out b.label → ∃ t ∈ blockRanges live (b :: bs) prev p, t.Hits .out n ∧ t.point ≤ exitPoint b p := by
      intro out
      rcases flow.out n out with into | written
      · obtain ⟨t, mem, hits, before⟩ := enters into
        exact ⟨t, mem, hits, by dsimp only [exitPoint]; omega⟩
      · exact written_touched written
    rcases needed.touched with ⟨rfl, into⟩ | ⟨rfl, out⟩ | later | ⟨t, mem, plain, names, rfl⟩
    · exact enters into
    · exact leaves out
    · by_cases out : n ∈ live.out b.label
      · obtain ⟨t, mem, hits, before⟩ := leaves out
        exact ⟨t, mem, hits, by have := later.after; omega⟩
      · obtain ⟨t, mem, rest⟩ := ih (fun b' there => flowing b' (mem_cons_of_mem b there)) later out
        exact ⟨t, mem_blockRanges.2 (.inr (.inr (.inr (.inr (.inr mem))))), rest⟩
    · exact ⟨t, mem, ⟨by rw [plain]; nofun, names⟩, le_rfl⟩

/-- Backwards, any point that needs a name has a touch of it at or after it. -/
theorem last_touched {bs : List ViewBlock} (flowing : ∀ b ∈ bs, Flowing live b) {prev : Finset Name} {p q : Nat}
    (needed : Needed live n bs p q) : ∃ t ∈ blockRanges live bs prev p, t.Hits .into n ∧ q ≤ t.point := by
  induction bs generalizing prev p q with
  | nil => cases needed
  | cons b bs ih =>
    have flow := flowing b mem_cons_self
    have later : ∀ {q}, Needed live n bs (exitPoint b p + 1) q →
        ∃ t ∈ blockRanges live (b :: bs) prev p, t.Hits .into n ∧ q ≤ t.point := by
      intro q there
      obtain ⟨t, mem, rest⟩ := ih (fun b' there => flowing b' (mem_cons_of_mem b there)) there
      exact ⟨t, mem_blockRanges.2 (.inr (.inr (.inr (.inr (.inr mem))))), rest⟩
    have leaves : n ∈ live.out b.label →
        ∃ t ∈ blockRanges live (b :: bs) prev p, t.Hits .into n ∧ exitPoint b p ≤ t.point := by
      intro out
      by_cases next : n ∈ nextIn live bs
      · cases bs with
        | nil => cases next
        | cons b' bs =>
          obtain ⟨t, mem, hits, after⟩ := later (.enters next)
          exact ⟨t, mem, hits, by omega⟩
      · exact ⟨_, mem_blockRanges.2 (.inr (.inr (.inr (.inr (.inl rfl))))), ⟨nofun, Finset.mem_sdiff.2 ⟨out, next⟩⟩, le_rfl⟩
    rcases needed.touched with ⟨rfl, into⟩ | ⟨rfl, out⟩ | there | ⟨t, mem, plain, names, rfl⟩
    · rcases flow.into n into with read | out
      · exact read_touched read
      · obtain ⟨t, mem, hits, after⟩ := leaves out
        exact ⟨t, mem, hits, by dsimp only [exitPoint] at after; omega⟩
    · exact leaves out
    · exact later there
    · exact ⟨t, mem, ⟨by rw [plain]; nofun, names⟩, le_rfl⟩

/-- What a touch names is needed at its point. -/
theorem touched_needed (mem : t ∈ blockRanges live bs prev p) (names : n ∈ t.names) : Needed live n bs p t.point := by
  induction bs generalizing prev p with
  | nil => cases mem
  | cons b bs ih =>
    rcases mem_blockRanges.1 mem with rfl | rfl | inst | rfl | rfl | later
    · exact .enters (Finset.mem_sdiff.1 names).1
    · exact .phi (List.mem_toFinset.1 names)
    · obtain ⟨k, i, at_, rfl | rfl⟩ := mem_instRanges.1 inst
      · exact .reads at_ (List.mem_toFinset.1 names)
      · exact .writes at_ (List.mem_toFinset.1 names)
    · exact .jumps (List.mem_toFinset.1 names)
    · exact .leaves (Finset.mem_sdiff.1 names).1
    · exact .later (ih later)

/-! ### The touches in their order -/

theorem instRanges_sorted (is : List ViewInst) (p : Nat) : (instRanges is p).Pairwise (·.point ≤ ·.point) := by
  induction is generalizing p with
  | nil => exact .nil
  | cons i is ih =>
    have later : ∀ t ∈ instRanges is (p + 1), p ≤ t.point := by
      intro t mem
      obtain ⟨k, i, -, rfl | rfl⟩ := mem_instRanges.1 mem <;> dsimp only <;> omega
    refine .cons (fun t mem => ?_) (.cons later (ih (p + 1)))
    rcases mem_cons.1 mem with rfl | mem
    · exact le_rfl
    · exact later t mem

theorem instRanges_within (mem : t ∈ instRanges b.insts (p + 1)) : p ≤ t.point ∧ t.point ≤ exitPoint b p := by
  obtain ⟨k, i, at_, same⟩ := mem_instRanges.1 mem
  have inside : k < b.insts.length := (List.getElem?_eq_some_iff.1 at_).1
  rcases same with rfl | rfl <;> dsimp only [exitPoint] <;> omega

theorem endPoint_after (bs : List ViewBlock) (p : Nat) : p ≤ endPoint bs p := by
  induction bs generalizing p with
  | nil => exact le_rfl
  | cons b bs ih =>
    have := ih (exitPoint b p + 1)
    rw [endPoint]
    dsimp only [exitPoint] at *
    omega

theorem blockRanges_within (mem : t ∈ blockRanges live bs prev p) : p ≤ t.point ∧ t.point ≤ endPoint bs p := by
  induction bs generalizing prev p with
  | nil => cases mem
  | cons b bs ih =>
    have last := endPoint_after bs (exitPoint b p + 1)
    have exit : p ≤ exitPoint b p := by
      dsimp only [exitPoint]
      omega
    rw [endPoint]
    rcases mem_blockRanges.1 mem with rfl | rfl | inst | rfl | rfl | later
    · exact ⟨le_rfl, by dsimp only; omega⟩
    · exact ⟨le_rfl, by dsimp only; omega⟩
    · have := instRanges_within inst
      omega
    · exact ⟨exit, by dsimp only; omega⟩
    · exact ⟨exit, by dsimp only; omega⟩
    · have := ih later
      omega

theorem blockRanges_sorted (bs : List ViewBlock) (prev : Finset Name) (p : Nat) :
    (blockRanges live bs prev p).Pairwise (·.point ≤ ·.point) := by
  induction bs generalizing prev p with
  | nil => exact .nil
  | cons b bs ih =>
    have exit : p ≤ exitPoint b p := by
      dsimp only [exitPoint]
      omega
    have later : ∀ t ∈ blockRanges live bs (live.out b.label) (exitPoint b p + 1), exitPoint b p ≤ t.point :=
      fun t mem => (Nat.le_succ _).trans (blockRanges_within mem).1
    have body : ∀ t ∈ blockRanges live (b :: bs) prev p, p ≤ t.point := fun t mem => (blockRanges_within mem).1
    rw [blockRanges] at body ⊢
    refine .cons (fun t mem => body t (mem_cons_of_mem _ mem)) (.cons (fun t mem => body t ?_) ?_)
    · exact mem_cons_of_mem _ (mem_cons_of_mem _ mem)
    · refine pairwise_append.2 ⟨instRanges_sorted _ _, .cons (fun t mem => ?_) (.cons later (ih _ _)), fun t mem t' mem' => ?_⟩
      · rcases mem_cons.1 mem with rfl | mem
        · exact le_rfl
        · exact later t mem
      · refine (instRanges_within mem).2.trans ?_
        rcases mem_cons.1 mem' with rfl | mem'
        · exact le_rfl
        · rcases mem_cons.1 mem' with rfl | mem'
          · exact le_rfl
          · exact later t' mem'

variable {params : List Param} {blocks : List ViewBlock}

theorem mem_keptTouches {end_ : Nat} : t ∈ keptTouches params end_ ↔
    (∃ p ∈ params, p.cls = .p ∧ p.name = vaSnapshot) ∧ t = ⟨none, {vaSnapshot}, end_⟩ := by
  rw [keptTouches]
  split_ifs with kept <;> simp [kept]

theorem touches_sorted : (touches params blocks live).Pairwise (·.point ≤ ·.point) := by
  refine .cons (fun t _ => Nat.zero_le _) (pairwise_append.2 ⟨blockRanges_sorted _ _ _, ?_, fun t mem t' mem' => ?_⟩)
  · rw [keptTouches]
    split_ifs
    · exact pairwise_singleton ..
    · exact .nil
  · rw [(mem_keptTouches.1 mem').2]
    exact (blockRanges_within mem).2

theorem touch_needed (mem : t ∈ touches params blocks live) (names : n ∈ t.names) : t.point ∈ NeededAt params blocks live n := by
  rcases mem_cons.1 mem with rfl | mem
  · exact .inl ⟨rfl, List.mem_toFinset.1 names⟩
  · rcases mem_append.1 mem with mem | mem
    · exact .inr (.inl (touched_needed mem names))
    · obtain ⟨kept, rfl⟩ := mem_keptTouches.1 mem
      exact .inr (.inr ⟨rfl, Finset.mem_singleton.1 names, kept⟩)

/-- Each pass has a touch of a name at the ends of the points that need it. -/
theorem needed_touched (flowing : ∀ b ∈ blocks, Flowing live b) (needed : q ∈ NeededAt params blocks live n) :
    (∃ t ∈ touches params blocks live, t.Hits .out n ∧ t.point ≤ q) ∧
      ∃ t ∈ touches params blocks live, t.Hits .into n ∧ q ≤ t.point := by
  have inner : ∀ {t}, t ∈ blockRanges live blocks ∅ 1 → t ∈ touches params blocks live := fun mem =>
    mem_cons_of_mem _ (mem_append_left _ mem)
  rcases needed with ⟨rfl, param⟩ | needed | ⟨rfl, rfl, kept⟩
  · have names := List.mem_toFinset.2 param
    exact ⟨⟨_, mem_cons_self, ⟨nofun, names⟩, le_rfl⟩, _, mem_cons_self, ⟨nofun, names⟩, le_rfl⟩
  · obtain ⟨t, mem, hits, before⟩ := first_touched flowing needed (Finset.notMem_empty n)
    obtain ⟨t', mem', hits', after⟩ := @last_touched live n blocks flowing ∅ _ _ needed
    exact ⟨⟨t, inner mem, hits, before⟩, t', inner mem', hits', after⟩
  · have mem : ⟨none, {vaSnapshot}, endPoint blocks 1⟩ ∈ touches params blocks live :=
      mem_cons_of_mem _ (mem_append_right _ (mem_keptTouches.2 ⟨kept, rfl⟩))
    have names := Finset.mem_singleton_self vaSnapshot
    exact ⟨⟨_, mem, ⟨nofun, names⟩, le_rfl⟩, _, mem, ⟨nofun, names⟩, le_rfl⟩

/-! ### The first touches -/

variable {skip : Side} {ts : List Touch}

theorem firstTouches_some (mem : t ∈ ts) (hits : t.Hits skip n) : ∃ p, firstTouches skip ts n = some p := by
  induction ts with
  | nil => cases mem
  | cons t' ts ih =>
    rw [firstTouches]
    split_ifs with first
    · exact ⟨_, rfl⟩
    · rcases mem_cons.1 mem with rfl | mem
      · exact absurd hits first
      · exact ih mem

/-- The first touch comes before all others in the order of the touches. -/
theorem firstTouches_first {R : Nat → Nat → Prop} (refl : ∀ p, R p p) {p : Nat} (sorted : ts.Pairwise (fun t t' => R t.point t'.point))
    (found : firstTouches skip ts n = some p) :
    (∃ t ∈ ts, t.Hits skip n ∧ t.point = p) ∧ ∀ t ∈ ts, t.Hits skip n → R p t.point := by
  induction ts with
  | nil => cases found
  | cons t ts ih =>
    rw [pairwise_cons] at sorted
    rw [firstTouches] at found
    split_ifs at found with first
    · cases found
      refine ⟨⟨t, mem_cons_self, first, rfl⟩, fun t' mem _ => ?_⟩
      rcases mem_cons.1 mem with rfl | mem
      · exact refl _
      · exact sorted.1 t' mem
    · obtain ⟨⟨t', mem, hits, same⟩, least⟩ := ih sorted.2 found
      refine ⟨⟨t', mem_cons_of_mem t mem, hits, same⟩, fun t' mem hits => ?_⟩
      rcases mem_cons.1 mem with rfl | mem
      · exact absurd hits first
      · exact least t' mem hits

/-- A temporary's interval is the hull of the points that need it. -/
theorem tempInterval_hull (flowing : ∀ b ∈ blocks, Flowing live b) {pools : Pools} {d : Name × Cls} {r : Range}
    (found : tempInterval pools (touches params blocks live) d = some r) :
    r.name = d.1 ∧ classPool d.2 pools = some r.pool ∧ IsLeast (NeededAt params blocks live d.1) r.start ∧
      IsGreatest (NeededAt params blocks live d.1) r.stop := by
  simp only [tempInterval, bind_eq_bind, bind_eq_some_iff, Option.pure_def, Option.some.injEq] at found
  obtain ⟨start, first, stop, last, pool, pooled, rfl⟩ := found
  obtain ⟨⟨t, mem, hits, rfl⟩, least⟩ := firstTouches_first le_refl touches_sorted first
  have backwards : (touches params blocks live).reverse.Pairwise (fun t t' => t.point ≥ t'.point) :=
    pairwise_reverse.2 touches_sorted
  obtain ⟨⟨t', mem', hits', rfl⟩, greatest⟩ := @firstTouches_first _ _ _ (· ≥ ·) le_refl _ backwards last
  refine ⟨rfl, pooled, ⟨touch_needed mem hits.2, fun q needed => ?_⟩, touch_needed (mem_reverse.1 mem') hits'.2, fun q needed => ?_⟩
  · obtain ⟨⟨t0, mem0, hits0, before⟩, -⟩ := needed_touched flowing needed
    exact (least t0 mem0 hits0).trans before
  · obtain ⟨-, t0, mem0, hits0, after⟩ := needed_touched flowing needed
    exact after.trans (greatest t0 (mem_reverse.2 mem0) hits0)

theorem tempInterval_total (flowing : ∀ b ∈ blocks, Flowing live b) {pools : Pools} {d : Name × Cls} {pool : Pool}
    (pooled : classPool d.2 pools = some pool) (needed : (NeededAt params blocks live d.1).Nonempty) :
    ∃ r, tempInterval pools (touches params blocks live) d = some r := by
  obtain ⟨q, needed⟩ := needed
  obtain ⟨⟨t, mem, hits, -⟩, t', mem', hits', -⟩ := needed_touched flowing needed
  obtain ⟨start, first⟩ := firstTouches_some mem hits
  obtain ⟨stop, last⟩ := firstTouches_some (mem_reverse.2 mem') hits'
  exact ⟨⟨start, stop, pool, d.1⟩, by rw [tempInterval, first, last, pooled]; rfl⟩

end Nanofil.Framing
