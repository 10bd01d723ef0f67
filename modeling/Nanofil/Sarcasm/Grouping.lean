import Nanofil.Sarcasm.Runs
import Nanofil.Sarcasm.Reuse

/-! `accesses.pl`: the validation of a plan of reads against the operations it is for, and how
operations and plans are executed, as `x86_64.pl` emits them. A load's node stands for its line. -/
namespace Nanofil.Sarcasm
open List Option

/-! ### Validation -/

inductive InvalidPlan
  | unrecognizedStructure
  | emptyReadGroup
  | unsupportedReadWidth (w : Nat)
  | notAnOriginalPrefix (loads : List Load)
  | addressMismatch (node : Nat)
  | unsupportedLoadWidth (node w : Nat)
  | noncontiguous (expected actual : Nat)
  | emptyInterval (start end_ : Nat)
  | wrongExtent (expected actual : Nat)
  | rangeOverflow (offset end_ : Nat)
  | changedOperation (x y : Op)
  | uncoveredLoad (x : Op)
deriving DecidableEq

def Op.isLoad : Op → Bool
  | .load _ => true
  | _ => false

def demand (goal : Prop) [Decidable goal] (reason : InvalidPlan) : Except InvalidPlan Unit :=
  if goal then .ok () else .error reason

def widths : List Nat := [1, 2, 4, 8]

def validateMembers (p i : Value) (scale : Nat) : List Load → Except InvalidPlan Unit
  | [] => .ok ()
  | l :: loads => do
    demand (p = l.pointer ∧ i = l.index ∧ scale = l.scale) (.addressMismatch l.node)
    demand (l.bytes ∈ widths) (.unsupportedLoadWidth l.node l.bytes)
    validateMembers p i scale loads

/-- The end of the ranges that are one after the other. -/
def coverage : List (Nat × Nat) → Nat → Except InvalidPlan Nat
  | [], end_ => .ok end_
  | (start, end_) :: xs, expected => do
    demand (start = expected) (.noncontiguous expected start)
    demand (start < end_) (.emptyInterval start end_)
    coverage xs end_

def checked : List Op → List Op → Except InvalidPlan Unit
  | [], [] => .ok ()
  | ir, .read p i scale offset width loads :: plans => do
    demand (loads ≠ []) .emptyReadGroup
    demand (width ∈ widths) (.unsupportedReadWidth width)
    demand (loads.map Op.load <+: ir) (.notAnOriginalPrefix loads)
    validateMembers p i scale loads
    let end_ ← coverage (loads.map fun l => (l.offset, l.offset + l.bytes)) offset
    demand (end_ = offset + width) (.wrongExtent (offset + width) end_)
    demand (end_ ≤ 18446744073709551616) (.rangeOverflow offset end_)
    checked (ir.drop loads.length) plans
  | x :: xs, y :: plans => do
    demand (x = y) (.changedOperation x y)
    demand (x.isLoad = false) (.uncoveredLoad x)
    checked xs plans
  | _, _ => .error .unrecognizedStructure

/-! ### Execution -/

/-- A capability's bounds: its first byte and the byte after its last. -/
structure Bounds where
  lower : BitVec 64
  upper : BitVec 64

structure Pointer (κ : Type) where
  address : BitVec 64
  capability : κ

structure State (κ : Type) where
  env : Env (Pointer κ)
  bytes : Nat → BitVec 8
  bounds : κ → Bounds

def PTRDIFF_MAX : Nat := 9223372036854775807

section
variable {κ : Type}

/-- `sp_address`: the offset from the pointer, or a trap. -/
def offsetOf (env : Env (Pointer κ)) (i : Value) (scale d : Nat) : Option Nat :=
  let o := env.eval i * scale
  if 2 ^ 64 ≤ o then none
  else if 2 ^ 64 ≤ o + d then none
  else if PTRDIFF_MAX < o + d then none
  else some (o + d)

/-- An access's check: its bytes are inside the bounds. -/
def State.access (s : State κ) (p i : Value) (scale d width : Nat) : Option Nat := do
  let o ← offsetOf s.env i scale d
  let a := ((s.env.pointer p).address.toNat + o) % 2 ^ 64
  let b := s.bounds (s.env.pointer p).capability
  if b.lower.toNat ≤ a ∧ a + width ≤ b.upper.toNat then some a else none

def littleEndian (bytes : Nat → BitVec 8) (a : Nat) : Nat → Nat
  | 0 => 0
  | n + 1 => (bytes a).toNat + 256 * littleEndian bytes (a + 1) n

/-- A node's value, an integer of 64 bits. -/
def State.assign (s : State κ) (n x : Nat) : State κ :=
  { s with env.scalar := Function.update s.env.scalar (.node n) (BitVec.ofNat 64 x) }

def Load.exec (l : Load) (s : State κ) : Option (State κ) := do
  let a ← s.access l.pointer l.index l.scale l.offset l.bytes
  return s.assign l.node (littleEndian s.bytes a l.bytes)

/-- `extract`: a load's value from the bytes of the read, which starts at `o`. -/
def Load.extract (l : Load) (o chunk : Nat) : Nat := chunk / 2 ^ (8 * (l.offset - o)) % 2 ^ (8 * l.bytes)

def readExec (p i : Value) (scale o width : Nat) (loads : List Load) (s : State κ) : Option (State κ) := do
  let a ← s.access p i scale o width
  return loads.foldl (fun s' l => s'.assign l.node (l.extract o (littleEndian s.bytes a width))) s

/-- An operation; those that are not reads do what `other` says, or trap. -/
def Op.exec (other : Op → State κ → Option (State κ)) : Op → State κ → Option (State κ)
  | .load l, s => l.exec s
  | .read p i scale o width loads, s => readExec p i scale o width loads s
  | op, s => other op s

def execute (other : Op → State κ → Option (State κ)) (ops : List Op) (s : State κ) : Option (State κ) :=
  ops.foldlM (fun s op => op.exec other s) s

end

/-! Grouped reads: what the validation accepts, that it accepts what is planned when no range ends past the
address space, and that an accepted plan does what its operations do. -/

open Results

/-! ### Plans -/

/-- Loads of one address, each at the end of the one before. -/
def Contiguous (p i : Value) (scale : Nat) : Nat → List Load → Nat → Prop
  | o, [], end_ => o = end_
  | o, l :: loads, end_ =>
    l.pointer = p ∧ l.index = i ∧ l.scale = scale ∧ l.offset = o ∧ l.bytes ∈ widths ∧ Contiguous p i scale (o + l.bytes) loads end_

def Op.isRead : Op → Bool
  | .read .. => true
  | _ => false

/-- A plan of operations, its reads with ends that fit. -/
inductive Plan (fits : Nat → Prop) : List Op → List Op → Prop
  | nil : Plan fits [] []
  | read {p i : Value} {scale o width : Nat} {loads : List Load} {ops plan : List Op} (some_ : loads ≠ []) (sized : width ∈ widths)
      (covers : Contiguous p i scale o loads (o + width)) (fit : fits (o + width)) (rest : Plan fits ops plan) :
      Plan fits (loads.map .load ++ ops) (.read p i scale o width loads :: plan)
  | other {op : Op} {ops plan : List Op} (load : op.isLoad = false) (read : op.isRead = false) (rest : Plan fits ops plan) :
      Plan fits (op :: ops) (op :: plan)

section
variable {p i : Value} {scale o width end_ : Nat} {loads : List Load} {ops plan rest : List Op} {l : Load} {fits : Nat → Prop}

@[simp] theorem demand_ok {goal : Prop} [Decidable goal] {reason : InvalidPlan} {u : Unit} : demand goal reason = .ok u ↔ goal := by
  rw [demand]
  split_ifs with holds
  · exact iff_of_true rfl holds
  · exact iff_of_false (fun ok => nomatch ok) holds

theorem positive_width (sized : width ∈ widths) : 0 < width := by
  rw [widths] at sized
  simp at sized
  omega

theorem exists_unit {q : Unit → Prop} : (∃ u, q u) ↔ q () := ⟨fun found => found.elim fun _ holds => holds, fun holds => ⟨(), holds⟩⟩

/-- The members and the coverage together say that the loads are contiguous. -/
theorem contiguous_iff : (validateMembers p i scale loads = .ok () ∧
      coverage (loads.map fun l => (l.offset, l.offset + l.bytes)) o = .ok end_) ↔ Contiguous p i scale o loads end_ := by
  induction loads generalizing o with
  | nil =>
    simp only [validateMembers, map_nil, coverage, Contiguous, Except.ok.injEq, true_and]
  | cons l loads ih =>
    simp only [validateMembers, map_cons, coverage, Contiguous, bind_ok, demand_ok, exists_unit]
    rw [← ih]
    constructor
    · rintro ⟨⟨⟨rfl, rfl, rfl⟩, sized, members⟩, rfl, -, covered⟩
      exact ⟨rfl, rfl, rfl, rfl, sized, members, covered⟩
    · rintro ⟨rfl, rfl, rfl, rfl, sized, members, covered⟩
      exact ⟨⟨⟨rfl, rfl, rfl⟩, sized, members⟩, rfl, Nat.lt_add_of_pos_right (positive_width sized), covered⟩

/-- What is checked of a read that is planned for the head of the operations. -/
theorem checked_read : checked ops (.read p i scale o width loads :: plan) = .ok () ↔
    ∃ rest, ops = loads.map .load ++ rest ∧ loads ≠ [] ∧ width ∈ widths ∧ Contiguous p i scale o loads (o + width) ∧
      o + width ≤ 18446744073709551616 ∧ checked rest plan = .ok () := by
  rw [checked]
  simp only [bind_ok, demand_ok, exists_unit]
  constructor
  · rintro ⟨some_, sized, ⟨rest, rfl⟩, members, _, covered, rfl, fit, later⟩
    refine ⟨rest, rfl, some_, sized, contiguous_iff.1 ⟨members, covered⟩, fit, ?_⟩
    rwa [← length_map (f := Op.load), drop_left] at later
  · rintro ⟨rest, rfl, some_, sized, contiguous, fit, later⟩
    obtain ⟨members, covered⟩ := contiguous_iff.2 contiguous
    refine ⟨some_, sized, prefix_append _ _, members, _, covered, rfl, fit, ?_⟩
    rwa [← length_map (f := Op.load), drop_left]

theorem checked_other {x y : Op} (read : y.isRead = false) :
    checked (x :: ops) (y :: plan) = .ok () ↔ x = y ∧ x.isLoad = false ∧ checked ops plan = .ok () := by
  cases y with
  | read => cases read
  | _ =>
    rw [checked]
    · simp only [bind_ok, demand_ok, exists_unit]
    · intro _ _ _ _ _ _ same
      cases same

theorem checked_iff : checked ops plan = .ok () ↔ Plan (· ≤ 18446744073709551616) ops plan := by
  constructor
  · intro ok
    induction plan generalizing ops with
    | nil =>
      cases ops with
      | nil => exact .nil
      | cons => cases ok
    | cons y plan ih =>
      cases read : y.isRead with
      | true =>
        cases y with
        | read p i scale o width loads =>
          obtain ⟨rest, rfl, some_, sized, contiguous, fit, later⟩ := checked_read.1 ok
          exact .read some_ sized contiguous fit (ih later)
        | _ => cases read
      | false =>
        cases ops with
        | nil =>
          cases y with
          | read => cases read
          | _ => cases ok
        | cons x ops =>
          obtain ⟨rfl, load, later⟩ := (checked_other read).1 ok
          exact .other load read (ih later)
  · intro planned
    induction planned with
    | nil => rfl
    | read some_ sized covers fit _ ih => exact checked_read.2 ⟨_, rfl, some_, sized, covers, fit, ih⟩
    | other load read _ ih => exact (checked_other read).2 ⟨rfl, load, ih⟩

/-! ### Planning -/

theorem probe_contiguous {width : Nat} (sized : ∀ l, Op.load l ∈ ops → l.bytes ∈ widths)
    (done : probe p i scale o width ops = some (loads, rest)) : Contiguous p i scale o loads (o + width) := by
  induction ops generalizing o width loads with
  | nil =>
    cases width <;> cases done
    rfl
  | cons op ops ih =>
    cases width with
    | zero =>
      cases done
      rfl
    | succ remaining =>
      cases op with
      | load l =>
        rw [probe] at done
        split_ifs at done with same
        obtain ⟨⟨loads', rest'⟩, found, eq⟩ := map_eq_some_iff.1 done
        cases eq
        obtain ⟨pointer, index, scaled, offset, le⟩ := same
        have later := ih (fun l mem => sized l (mem_cons_of_mem _ mem)) found
        have sum : o + l.bytes + (remaining + 1 - l.bytes) = o + (remaining + 1) := by omega
        rw [sum] at later
        exact ⟨pointer, index, scaled, offset, sized l mem_cons_self, later⟩
      | read | store | pointerLoad | pointerStore | assign | pointerCopy | pointerOffset | binary | compare | flagValues => cases done

theorem choose_contiguous {sizes : List Nat} (sized : ∀ l', Op.load l' ∈ .load l :: ops → l'.bytes ∈ widths)
    (wide : ∀ size ∈ sizes, size ∈ widths) (done : choose l ops sizes = (width, loads, rest)) :
    width ∈ widths ∧ Contiguous l.pointer l.index l.scale l.offset loads (l.offset + width) := by
  induction sizes with
  | nil =>
    cases done
    have here := sized l mem_cons_self
    exact ⟨here, rfl, rfl, rfl, rfl, here, rfl⟩
  | cons size sizes ih =>
    rw [choose] at done
    split at done
    · rename_i found
      cases done
      exact ⟨wide _ mem_cons_self, probe_contiguous sized found⟩
    · exact ih (fun size mem => wide size (mem_cons_of_mem _ mem)) done

/-- Every plan is one of its operations, but that its ranges may end past the address space. -/
theorem planning_plan {on : Bool} {fuel : Nat} (sized : ∀ l, Op.load l ∈ ops → l.bytes ∈ widths) (plain : ∀ op ∈ ops, op.isRead = false)
    (done : planning on fuel ops = some plan) : Plan (fun _ => True) ops plan := by
  induction fuel generalizing ops plan with
  | zero =>
    cases ops with
    | nil =>
      cases done
      exact .nil
    | cons op ops => cases done
  | succ fuel ih =>
    cases ops with
    | nil =>
      cases done
      exact .nil
    | cons op ops =>
      cases op with
      | load l =>
        rw [planning] at done
        have chosen := @chosen_split on l ops
        have covering : ∀ {width : Nat} {loads : List Load} {rest : List Op},
            (if on then choose l ops ([8, 4, 2].filter (l.bytes < ·)) else (l.bytes, [l], ops)) = (width, loads, rest) →
            width ∈ widths ∧ Contiguous l.pointer l.index l.scale l.offset loads (l.offset + width) := by
          intro width loads rest eq
          have here := sized l mem_cons_self
          split_ifs at eq
          · refine choose_contiguous sized (fun size mem => ?_) eq
            have among := mem_of_mem_filter mem
            simp only [mem_cons, not_mem_nil, or_false] at among
            rcases among with rfl | rfl | rfl <;> decide
          · cases eq
            exact ⟨here, rfl, rfl, rfl, rfl, here, rfl⟩
        generalize (if on then choose l ops ([8, 4, 2].filter (l.bytes < ·)) else (l.bytes, [l], ops)) = choice at done chosen covering
        obtain ⟨width, loads, rest⟩ := choice
        obtain ⟨split, some_⟩ := chosen rfl
        obtain ⟨wide, contiguous⟩ := covering rfl
        obtain ⟨planned, later, rfl⟩ := map_eq_some_iff.1 done
        rw [← split] at sized plain ⊢
        refine .read (ne_nil_of_length_pos some_) wide contiguous trivial (ih ?_ ?_ later)
        · exact fun l mem => sized l (mem_append_right _ mem)
        · exact fun op mem => plain op (mem_append_right _ mem)
      | read p i s o w loads => cases plain _ mem_cons_self
      | store | pointerLoad | pointerStore | assign | pointerCopy | pointerOffset | binary | compare | flagValues =>
        obtain ⟨planned, later, rfl⟩ := map_eq_some_iff.1 done
        refine .other rfl rfl (ih ?_ ?_ later)
        · exact fun l mem => sized l (mem_cons_of_mem _ mem)
        · exact fun op mem => plain op (mem_cons_of_mem _ mem)

theorem Contiguous.le (contiguous : Contiguous p i scale o loads end_) (mem : l ∈ loads) : o ≤ l.offset ∧ l.offset + l.bytes ≤ end_ := by
  have upto : ∀ {loads : List Load} {o : Nat}, Contiguous p i scale o loads end_ → o ≤ end_ := by
    intro loads
    induction loads with
    | nil => exact fun same => Nat.le_of_eq same
    | cons l loads ih =>
      intro o ⟨_, _, _, _, _, rest⟩
      exact Nat.le_trans (Nat.le_add_right _ _) (ih rest)
  induction loads generalizing o with
  | nil => cases mem
  | cons l' loads ih =>
    obtain ⟨-, -, -, rfl, -, rest⟩ := contiguous
    rcases mem_cons.1 mem with rfl | mem
    · exact ⟨Nat.le_refl _, upto rest⟩
    · obtain ⟨low, high⟩ := ih rest mem
      exact ⟨by omega, high⟩

/-- The last load ends where the read does. -/
theorem Contiguous.last (contiguous : Contiguous p i scale o loads end_) (some_ : loads ≠ []) : ∃ l ∈ loads, l.offset + l.bytes = end_ := by
  induction loads generalizing o with
  | nil => exact absurd rfl some_
  | cons l loads ih =>
    obtain ⟨-, -, -, rfl, -, rest⟩ := contiguous
    cases loads with
    | nil => exact ⟨l, mem_cons_self, rest⟩
    | cons l' loads =>
      obtain ⟨l, mem, ends⟩ := ih rest (cons_ne_nil _ _)
      exact ⟨l, mem_cons_of_mem _ mem, ends⟩

/-- A plan is accepted when no load ends past the address space. -/
theorem Plan.accepted_iff {m : Nat} (planned : Plan (fun _ => True) ops plan) :
    Plan (· ≤ m) ops plan ↔ ∀ l, Op.load l ∈ ops → l.offset + l.bytes ≤ m := by
  constructor
  · intro accepted l mem
    clear planned
    induction accepted with
    | nil => cases mem
    | read _ _ covers fit _ ih =>
      rcases mem_append.1 mem with mem | mem
      · obtain ⟨l', mem, same⟩ := List.mem_map.1 mem
        cases same
        exact Nat.le_trans (covers.le mem).2 fit
      · exact ih mem
    | other load _ _ ih =>
      rcases mem_cons.1 mem with rfl | mem
      · cases load
      · exact ih mem
  · intro fit
    induction planned with
    | nil => exact .nil
    | read some_ sized covers _ _ ih =>
      obtain ⟨l, mem, ends⟩ := covers.last some_
      refine .read some_ sized covers ?_ (ih fun l mem => fit l (mem_append_right _ mem))
      exact ends ▸ fit l (mem_append_left _ (List.mem_map_of_mem mem))
    | other load read _ ih => exact .other load read (ih fun l mem => fit l (mem_cons_of_mem _ mem))

end

/-! ### Reads -/

section
variable {κ : Type} {s : State κ} {p i : Value} {scale o d width a n x end_ : Nat} {loads : List Load} {ids : List Nat}
  {other : Op → State κ → Option (State κ)}

theorem eval_assign (known : i.Known ids) (fresh : n ∉ ids) : (s.assign n x).env.eval i = s.env.eval i := by
  induction i with
  | node m =>
    have ne : Value.node m ≠ Value.node n := by
      rintro ⟨⟩
      exact fresh known
    show (Function.update s.env.scalar (.node n) (BitVec.ofNat 64 x) (.node m)).toNat = _
    rw [Function.update_of_ne ne]
    rfl
  | view y w ih => exact congrArg (· % 2 ^ w) (ih known)
  | flagValue => cases known
  | literal => rfl
  | arg | param => rfl

theorem access_assign (known : i.Known ids) (fresh : n ∉ ids) : (s.assign n x).access p i scale d width = s.access p i scale d width := by
  have same : offsetOf (s.assign n x).env i scale d = offsetOf s.env i scale d := by
    rw [offsetOf, offsetOf, eval_assign known fresh]
  rw [State.access, State.access, same]
  rfl

/-- An access is where its offset and its bounds say. -/
theorem access_some : s.access p i scale d width = some a ↔
    s.env.eval i * scale + d ≤ PTRDIFF_MAX ∧ a = ((s.env.pointer p).address.toNat + (s.env.eval i * scale + d)) % 2 ^ 64 ∧
      (s.bounds (s.env.pointer p).capability).lower.toNat ≤ a ∧ a + width ≤ (s.bounds (s.env.pointer p).capability).upper.toNat := by
  rw [State.access, offsetOf, PTRDIFF_MAX]
  by_cases near : s.env.eval i * scale + d ≤ 9223372036854775807
  · dsimp only
    rw [if_neg (by omega), if_neg (by omega), if_neg (by omega)]
    simp only [near, bind_eq_bind, bind_some, true_and]
    constructor
    · intro made
      split_ifs at made with inside
      cases made
      exact ⟨rfl, inside⟩
    · rintro ⟨rfl, inside⟩
      exact if_pos inside
  · refine iff_of_false (fun made => ?_) fun made => near made.1
    dsimp only at made
    split_ifs at made with wraps wraps' far
    · cases made
    · cases made
    · cases made
    · omega

theorem execute_cons {op : Op} {ops : List Op} : execute other (op :: ops) s = (op.exec other s).bind (execute other ops) := rfl

/-- A load assigns its node. -/
theorem load_exec {l : Load} (same : l.pointer = p ∧ l.index = i ∧ l.scale = scale) :
    (Op.load l).exec other s = (s.access p i scale l.offset l.bytes).map fun a => s.assign l.node (littleEndian s.bytes a l.bytes) := by
  obtain ⟨rfl, rfl, rfl⟩ := same
  show l.exec s = _
  rw [Load.exec]
  cases s.access l.pointer l.index l.scale l.offset l.bytes <;> rfl

/-- Loads that all may be made are made one after the other. -/
theorem execute_loads (known : i.Known ids) (fresh : ∀ l ∈ loads, l.node ∉ ids) (same : ∀ l ∈ loads, l.pointer = p ∧ l.index = i ∧ l.scale = scale)
    {value : Load → Nat} (allowed : ∀ l ∈ loads, ∃ a, s.access p i scale l.offset l.bytes = some a ∧ littleEndian s.bytes a l.bytes = value l) :
    execute other (loads.map .load) s = some (loads.foldl (fun s' l => s'.assign l.node (value l)) s) := by
  induction loads generalizing s with
  | nil => rfl
  | cons l loads ih =>
    obtain ⟨a, made, is⟩ := allowed l mem_cons_self
    rw [map_cons, execute_cons, load_exec (same l mem_cons_self), made, map_some, bind_some, foldl_cons, is]
    refine ih (fun l mem => fresh l (mem_cons_of_mem _ mem)) (fun l mem => same l (mem_cons_of_mem _ mem)) fun l' mem => ?_
    rw [access_assign known (fresh l mem_cons_self)]
    exact allowed l' (mem_cons_of_mem _ mem)

theorem execute_trap (known : i.Known ids) (fresh : ∀ l ∈ loads, l.node ∉ ids) (same : ∀ l ∈ loads, l.pointer = p ∧ l.index = i ∧ l.scale = scale)
    {l : Load} (mem : l ∈ loads) (trap : s.access p i scale l.offset l.bytes = none) :
    execute other (loads.map .load) s = none := by
  induction loads generalizing s with
  | nil => cases mem
  | cons l' loads ih =>
    rw [map_cons, execute_cons, load_exec (same l' mem_cons_self)]
    rcases mem_cons.1 mem with rfl | mem
    · rw [trap]
      rfl
    · cases made : s.access p i scale l'.offset l'.bytes with
      | none => rfl
      | some a =>
        refine ih (fun l mem => fresh l (mem_cons_of_mem _ mem)) (fun l mem => same l (mem_cons_of_mem _ mem)) mem ?_
        rwa [access_assign known (fresh l' mem_cons_self)]

theorem littleEndian_lt (bytes : Nat → BitVec 8) (w : Nat) : littleEndian bytes a w < 2 ^ (8 * w) := by
  induction w generalizing a with
  | zero => exact Nat.one_pos
  | succ w ih =>
    have later := @ih (a + 1)
    have byte := (bytes a).isLt
    rw [littleEndian, Nat.mul_succ, Nat.pow_add]
    omega

theorem littleEndian_add (bytes : Nat → BitVec 8) (k m : Nat) :
    littleEndian bytes a (k + m) = littleEndian bytes a k + 2 ^ (8 * k) * littleEndian bytes (a + k) m := by
  induction k generalizing a with
  | zero => simp [littleEndian]
  | succ k ih =>
    have place : a + 1 + k = a + (k + 1) := by omega
    rw [Nat.succ_add, littleEndian, ih, littleEndian, place, Nat.mul_succ, Nat.pow_add, Nat.mul_add, ← Nat.add_assoc,
      Nat.mul_left_comm 256, Nat.mul_assoc]

/-- The bytes of a part are a part of the number. -/
theorem littleEndian_part (bytes : Nat → BitVec 8) {k m w : Nat} (within : k + m ≤ w) :
    littleEndian bytes (a + k) m = littleEndian bytes a w / 2 ^ (8 * k) % 2 ^ (8 * m) := by
  obtain ⟨r, rfl⟩ := Nat.exists_eq_add_of_le within
  rw [Nat.add_assoc, littleEndian_add bytes k, littleEndian_add bytes m, Nat.add_mul_div_left _ _ (Nat.two_pow_pos _),
    Nat.div_eq_of_lt (littleEndian_lt bytes k), Nat.zero_add, Nat.add_mul_mod_self_left, Nat.mod_eq_of_lt (littleEndian_lt bytes m)]

/-- What the read may make, each of its loads may, at its place in it. -/
theorem access_part {l : Load} (allowed : s.access p i scale o width = some a) (low : o ≤ l.offset) (high : l.offset + l.bytes ≤ o + width)
    (near : s.env.eval i * scale + l.offset ≤ PTRDIFF_MAX) :
    s.access p i scale l.offset l.bytes = some (a + (l.offset - o)) := by
  obtain ⟨-, at_, lower, upper⟩ := access_some.1 allowed
  have top := (s.bounds (s.env.pointer p).capability).upper.isLt
  exact access_some.2 ⟨near, by omega, by omega, by omega⟩

/-- What all the loads may make, the read may. -/
theorem access_whole (contiguous : Contiguous p i scale o loads end_) (some_ : loads ≠ [])
    (allowed : ∀ l ∈ loads, ∃ a, s.access p i scale l.offset l.bytes = some a) :
    o ≤ end_ ∧ ∃ a, s.access p i scale o (end_ - o) = some a := by
  induction loads generalizing o with
  | nil => exact absurd rfl some_
  | cons l loads ih =>
    obtain ⟨-, -, -, rfl, -, rest⟩ := contiguous
    obtain ⟨a, made⟩ := allowed l mem_cons_self
    cases loads with
    | nil =>
      cases rest
      refine ⟨Nat.le_add_right _ _, a, ?_⟩
      rwa [Nat.add_sub_cancel_left]
    | cons l' loads =>
      obtain ⟨le, a', made'⟩ := ih rest (cons_ne_nil _ _) fun l mem => allowed l (mem_cons_of_mem _ mem)
      obtain ⟨near, at_, lower, upper⟩ := access_some.1 made
      obtain ⟨-, at', -, upper'⟩ := access_some.1 made'
      have top := (s.bounds (s.env.pointer p).capability).upper.isLt
      exact ⟨by omega, a, access_some.2 ⟨near, at_, lower, by omega⟩⟩

theorem Contiguous.same (contiguous : Contiguous p i scale o loads end_) : ∀ l ∈ loads, l.pointer = p ∧ l.index = i ∧ l.scale = scale := by
  induction loads generalizing o with
  | nil => exact fun l mem => nomatch mem
  | cons l' loads ih =>
    obtain ⟨pointer, index, scaled, -, -, rest⟩ := contiguous
    intro l mem
    rcases mem_cons.1 mem with rfl | mem
    · exact ⟨pointer, index, scaled⟩
    · exact ih rest l mem

/-- The read is in bounds, and from a load on its offsets are past `PTRDIFF_MAX`. -/
def Straddles (s : State κ) (p i : Value) (scale o width : Nat) (loads : List Load) : Prop :=
  (∃ a, s.access p i scale o width = some a) ∧ ∃ l ∈ loads, PTRDIFF_MAX < s.env.eval i * scale + l.offset

/-- A read does what its loads do, but where it straddles: there a load traps, and the read does not. -/
theorem read_loads (known : i.Known ids) (fresh : ∀ l ∈ loads, l.node ∉ ids) (some_ : loads ≠ [])
    (contiguous : Contiguous p i scale o loads (o + width)) :
    (¬ Straddles s p i scale o width loads ∧ execute other (loads.map .load) s = readExec p i scale o width loads s) ∨
      Straddles s p i scale o width loads ∧ execute other (loads.map .load) s = none ∧ ∃ s', readExec p i scale o width loads s = some s' := by
  have same := contiguous.same
  cases made : s.access p i scale o width with
  | none =>
    have traps : readExec p i scale o width loads s = none := by
      rw [readExec, made]
      rfl
    refine .inl ⟨fun straddles => ?_, traps ▸ ?_⟩
    · obtain ⟨⟨a, is⟩, -⟩ := straddles
      rw [made] at is
      cases is
    · by_cases allowed : ∀ l ∈ loads, ∃ a, s.access p i scale l.offset l.bytes = some a
      · obtain ⟨-, a, whole⟩ := access_whole contiguous some_ allowed
        rw [Nat.add_sub_cancel_left, made] at whole
        cases whole
      · obtain ⟨l, mem, refused⟩ : ∃ l ∈ loads, ¬ ∃ a, s.access p i scale l.offset l.bytes = some a := by
          simpa only [not_forall, exists_prop] using allowed
        exact execute_trap known fresh same mem (eq_none_iff_forall_ne_some.2 fun a is => refused ⟨a, is⟩)
  | some a =>
    have makes : readExec p i scale o width loads s =
        some (loads.foldl (fun s' l => s'.assign l.node (l.extract o (littleEndian s.bytes a width))) s) := by
      rw [readExec, made]
      rfl
    by_cases far : ∃ l ∈ loads, PTRDIFF_MAX < s.env.eval i * scale + l.offset
    · right
      obtain ⟨l, mem, past⟩ := far
      refine ⟨⟨⟨a, made⟩, l, mem, past⟩, execute_trap known fresh same mem ?_, _, makes⟩
      exact eq_none_iff_forall_ne_some.2 fun a is => absurd (access_some.1 is).1 (Nat.not_le.2 past)
    · refine .inl ⟨fun straddles => far straddles.2, ?_⟩
      rw [makes]
      refine execute_loads known fresh same fun l mem => ?_
      obtain ⟨low, high⟩ := contiguous.le mem
      have near : s.env.eval i * scale + l.offset ≤ PTRDIFF_MAX := Nat.not_lt.1 fun past => far ⟨l, mem, past⟩
      exact ⟨_, access_part made low high near, littleEndian_part s.bytes (by omega)⟩

end

/-! ### Runs of plans -/

section
variable {κ : Type} {s : State κ} {ops plan : List Op} {ids : List Nat} {fits : Nat → Prop} {other : Op → State κ → Option (State κ)}

/-- No read of a plan straddles where it is made. -/
def Steady (other : Op → State κ → Option (State κ)) : List Op → State κ → Prop
  | [], _ => True
  | op :: plan, s =>
    (∀ p i scale o width loads, op = .read p i scale o width loads → ¬ Straddles s p i scale o width loads) ∧
      ∀ s', op.exec other s = some s' → Steady other plan s'

theorem execute_append {xs ys : List Op} : execute other (xs ++ ys) s = (execute other xs s).bind (execute other ys) :=
  foldlM_append

/-- A plan that stays steady does what its operations do. -/
theorem Plan.execute_eq (planned : Plan fits ops plan) (ordered : Ordered ids ops) (fresh : ∀ n ∈ ops.flatMap Op.defs, n ∉ ids)
    (once : (ops.flatMap Op.defs).Nodup) (steady : Steady other plan s) : execute other plan s = execute other ops s := by
  induction planned generalizing ids s with
  | nil => rfl
  | @read p i scale o width loads ops plan some_ sized covers _ _ ih =>
    obtain ⟨here, later⟩ := steady
    rw [ordered_append, loads_defs] at ordered
    rw [flatMap_append, loads_defs] at once fresh
    obtain ⟨-, once_rest, apart⟩ := nodup_append.1 once
    have known : i.Known ids := by
      obtain ⟨l, rest, rfl⟩ := exists_cons_of_ne_nil some_
      have index := (covers.same l mem_cons_self).2.1
      exact index ▸ ordered.1.1.2
    have new : ∀ l ∈ loads, l.node ∉ ids := fun l mem => fresh l.node (mem_append_left _ (List.mem_map_of_mem mem))
    have both : execute other (loads.map .load) s = readExec p i scale o width loads s := by
      rcases @read_loads κ s _ _ _ _ _ _ _ other known new some_ covers with ⟨-, same⟩ | ⟨straddles, -⟩
      · exact same
      · exact absurd straddles (here _ _ _ _ _ _ rfl)
    rw [execute_append, both, execute_cons]
    show (readExec p i scale o width loads s).bind _ = _
    cases read : readExec p i scale o width loads s with
    | none => rfl
    | some s' =>
      refine ih ordered.2 (fun n mem => ?_) once_rest (later s' read)
      rw [mem_append, not_or]
      exact ⟨fresh n (mem_append_right _ mem), fun early => apart n early n mem rfl⟩
  | @other op ops plan load read _ ih =>
    obtain ⟨-, later⟩ := steady
    rw [flatMap_cons] at once fresh
    obtain ⟨-, once_rest, apart⟩ := nodup_append.1 once
    rw [execute_cons, execute_cons]
    cases made : op.exec other s with
    | none => rfl
    | some s' =>
      refine ih ordered.2 (fun n mem => ?_) once_rest (later s' made)
      rw [mem_append, not_or]
      exact ⟨fresh n (mem_append_right _ mem), fun early => apart n early n mem rfl⟩

/-- The operations of a block: loads of a width, and values that are made once, before they are used in an address. -/
structure Lowerable (ops : List Op) : Prop where
  plain : ∀ op ∈ ops, op.isRead = false
  sized : ∀ l, Op.load l ∈ ops → l.bytes ∈ widths ∧ l.offset < 18446744073709551616
  ordered : Ordered [] ops
  once : (ops.flatMap Op.defs).Nodup

/-- In both modes a plan is made, and it is accepted when no load ends past the address space. A plan that is
accepted does what its operations do, values, traps and order, in every run in which no read straddles
`PTRDIFF_MAX`; a read alone does only then what its loads do. -/
theorem grouping_faithful (lowerable : Lowerable ops) :
    (∀ on, ∃ plan, planning on ops.length ops = some plan ∧
      (checked ops plan = .ok () ↔ ∀ l, Op.load l ∈ ops → l.offset + l.bytes ≤ 18446744073709551616)) ∧
    (∀ plan, checked ops plan = .ok () → ∀ (κ : Type) (other : Op → State κ → Option (State κ)) (s : State κ),
      Steady other plan s → execute other plan s = execute other ops s) ∧
    ∀ p i scale o width loads, ops = loads.map .load → checked ops [.read p i scale o width loads] = .ok () →
      ∀ (κ : Type) (other : Op → State κ → Option (State κ)) (s : State κ),
        execute other [.read p i scale o width loads] s = execute other ops s ↔ ¬ Straddles s p i scale o width loads := by
  refine ⟨fun on => ?_, fun plan ok κ other s steady => ?_, fun p i scale o width loads are ok κ other s => ?_⟩
  · obtain ⟨plan, done⟩ := @planning_total on _ _ (Nat.le_refl ops.length)
    have planned := planning_plan (fun l mem => (lowerable.sized l mem).1) lowerable.plain done
    exact ⟨plan, done, checked_iff.trans planned.accepted_iff⟩
  · exact (checked_iff.1 ok).execute_eq lowerable.ordered (fun n _ none => nomatch none) lowerable.once steady
  · obtain ⟨_, -, some_, -, covers, -, -⟩ := checked_read.1 ok
    have alone : execute other [.read p i scale o width loads] s = readExec p i scale o width loads s := by
      rw [execute_cons]
      show (readExec p i scale o width loads s).bind (execute other []) = _
      cases readExec p i scale o width loads s <;> rfl
    have known : i.Known [] := by
      obtain ⟨l, rest, rfl⟩ := exists_cons_of_ne_nil some_
      have ordered := lowerable.ordered
      rw [are] at ordered
      exact (covers.same l mem_cons_self).2.1 ▸ ordered.1.2
    rw [alone, are]
    rcases @read_loads κ s _ _ _ _ _ _ _ other known (fun l _ => not_mem_nil) some_ covers with ⟨not, same⟩ | ⟨straddles, trap, s', makes⟩
    · exact iff_of_true same.symm not
    · refine iff_of_false (fun same => ?_) (not_not.2 straddles)
      rw [trap, makes] at same
      cases same

/-- Two loads and a use of the first. -/
def twoLoads : List Op :=
  [.load ⟨0, .arg 0, .literal 0, 1, 0, 4⟩, .load ⟨1, .arg 0, .literal 0, 1, 4, 4⟩, .assign 2 32 (.node 0)]

theorem twoLoads_grouped : ∃ plan, planning true twoLoads.length twoLoads = some plan ∧ checked twoLoads plan = .ok () := by
  have lowerable : Lowerable twoLoads := by
    refine ⟨by decide, fun l mem => ?_, ?_, by decide⟩
    · simp only [twoLoads, mem_cons, Op.load.injEq, reduceCtorEq, not_mem_nil, or_false] at mem
      rcases mem with rfl | rfl <;> decide
    · simp [twoLoads, Ordered, Op.Addressed, Value.Known]
  obtain ⟨plan, done, accepted⟩ := (grouping_faithful lowerable).1 true
  refine ⟨plan, done, accepted.2 fun l mem => ?_⟩
  simp only [twoLoads, mem_cons, Op.load.injEq, reduceCtorEq, not_mem_nil, or_false] at mem
  rcases mem with rfl | rfl <;> decide

/-- `movq 18446744073709551615(%rdi),%rax` -/
theorem last_byte_refused :
    (planning true 1 [.load ⟨0, .arg 0, .literal 0, 1, 18446744073709551615, 8⟩]).map
        (checked [.load ⟨0, .arg 0, .literal 0, 1, 18446744073709551615, 8⟩]) =
      some (.error (.rangeOverflow 18446744073709551615 18446744073709551623)) ∧
    (planning false 1 [.load ⟨0, .arg 0, .literal 0, 1, 18446744073709551615, 8⟩]).map
        (checked [.load ⟨0, .arg 0, .literal 0, 1, 18446744073709551615, 8⟩]) =
      some (.error (.rangeOverflow 18446744073709551615 18446744073709551623)) := by decide

end

end Nanofil.Sarcasm
