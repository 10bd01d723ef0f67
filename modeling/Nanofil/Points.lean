import Nanofil.Dominance
import Nanofil.Valid

/-! Program points and the definitions before them. A point is a block's label and
an index into its instructions, -1 standing before the phis. -/
namespace Nanofil
open List Option Walks

structure Point where
  label : Name
  index : Int
deriving DecidableEq

inductive PointEdge (bs : List Block) : Point → Point → Prop
  | next {b : Block} {i : Int} : b ∈ bs → -1 ≤ i → i < b.insts.length →
      PointEdge bs ⟨b.label, i⟩ ⟨b.label, i + 1⟩
  | jump {b : Block} {l : Name} : b ∈ bs → l ∈ jumpLabels b.jump →
      PointEdge bs ⟨b.label, b.insts.length⟩ ⟨l, -1⟩

def startPoint (bs : List Block) : Point := ⟨blocksEntry bs, -1⟩

abbrev ReachablePoint (bs : List Block) (pt : Point) : Prop := Reachable (PointEdge bs) (startPoint bs) pt

def Site.Before (bs : List Block) (s : Site) (pt : Point) : Prop :=
  match s with
  | .param => True
  | .at_ l i => StrictDom (PointEdge bs) (startPoint bs) ⟨l, i⟩ pt

/-! ### Blocks by label -/

variable {b : Block} {l : Name}

section Labels
variable {bs : List Block}

theorem find_label (labels : (bs.map (·.label)).Nodup) (mem : b ∈ bs) : bs.find? (fun b' => b'.label = b.label) = some b := by
  induction bs with
  | nil => simp at mem
  | cons c bs ih =>
    simp only [map_cons, nodup_cons, List.mem_map, not_exists, not_and] at labels
    rcases mem_cons.1 mem with rfl | h
    · simp
    · have other : c.label ≠ b.label := fun same => labels.1 b h same.symm
      simpa [other] using ih labels.2 h

theorem label_inj (labels : (bs.map (·.label)).Nodup) {b' : Block} (mem : b ∈ bs) (mem' : b' ∈ bs)
    (same : b.label = b'.label) : b = b' := by
  have found := find_label labels mem
  rw [same, find_label labels mem'] at found
  exact (Option.some.inj found).symm

theorem blockEdge_jump (labels : (bs.map (·.label)).Nodup) (mem : b ∈ bs)
    (target : l ∈ jumpLabels b.jump) : BlockEdge bs b.label l := by
  simp only [BlockEdge, blockSuccs, find_label labels mem]
  exact mem_jumpSuccs.2 target

/-- A walk of points left every point of the blocks its walk of blocks left. -/
theorem pointWalk_blocks (labels : (bs.map (·.label)).Nodup) {p : List Point} {pt : Point}
    (walk : Walk (PointEdge bs) (startPoint bs) p pt) :
    ∃ q, Walk (BlockEdge bs) (blocksEntry bs) q pt.label ∧
      (∀ b ∈ bs, b.label ∈ q → ∀ j : Int, -1 ≤ j → j ≤ b.insts.length → ⟨b.label, j⟩ ∈ p) ∧
      ∀ j : Int, -1 ≤ j → j < pt.index → ⟨pt.label, j⟩ ∈ p := by
  induction walk with
  | start => exact ⟨[], .start, by simp, by simp only [startPoint]; intro j h1 h2; omega⟩
  | @step p a b walk next ih =>
    obtain ⟨q, blocks, all, here⟩ := ih
    cases next with
    | @next blk i mem low high =>
      refine ⟨q, blocks, fun b h left j h1 h2 => mem_cons_of_mem _ (all b h left j h1 h2),
        fun j h1 h2 => ?_⟩
      by_cases same : j = i
      · exact same ▸ mem_cons_self
      · exact mem_cons_of_mem _ (here j h1 (by dsimp only at h2 ⊢; omega))
    | @jump blk l mem target =>
      refine ⟨blk.label :: q, blocks.step (blockEdge_jump labels mem target), fun b h left j h1 h2 => ?_,
        fun j h1 h2 => by dsimp only at h2; omega⟩
      rcases mem_cons.1 left with same | left
      · have := label_inj labels h mem same
        subst this
        by_cases last : j = b.insts.length
        · exact last ▸ mem_cons_self
        · exact mem_cons_of_mem _ (here j h1 (by dsimp only; omega))
      · exact mem_cons_of_mem _ (all b h left j h1 h2)

theorem reachable_block (labels : (bs.map (·.label)).Nodup) {pt : Point} (reached : ReachablePoint bs pt) :
    Reachable (BlockEdge bs) (blocksEntry bs) pt.label := by
  obtain ⟨p, walk⟩ := reached
  obtain ⟨q, blocks, _⟩ := pointWalk_blocks labels walk
  exact ⟨q, blocks⟩

variable {i : Int}

theorem before_same_block (labels : (bs.map (·.label)).Nodup) {j : Int} (low : -1 ≤ j)
    (lt : j < i) : StrictDom (PointEdge bs) (startPoint bs) ⟨l, j⟩ ⟨l, i⟩ := by
  intro p walk
  obtain ⟨_, _, _, here⟩ := pointWalk_blocks labels walk
  exact here j low lt

theorem before_dominating (labels : (bs.map (·.label)).Nodup) {j : Int}
    (mem : b ∈ bs) (dom : StrictDom (BlockEdge bs) (blocksEntry bs) b.label l) (low : -1 ≤ j)
    (high : j ≤ b.insts.length) : StrictDom (PointEdge bs) (startPoint bs) ⟨b.label, j⟩ ⟨l, i⟩ := by
  intro p walk
  obtain ⟨q, blocks, all, _⟩ := pointWalk_blocks labels walk
  exact all b mem (dom q blocks) j low high

/-- A control-flow edge is a way for a run: from a point to the next of the block. -/
theorem reachable_next (mem : b ∈ bs) (low : -1 ≤ i) (high : i < b.insts.length)
    (reached : ReachablePoint bs ⟨b.label, i⟩) : ReachablePoint bs ⟨b.label, i + 1⟩ :=
  reached.step (.next mem low high)

end Labels

/-! ### Definitions and where they are -/

/-- A definition of a temporary: which, and where. -/
structure DefEntry where
  name : Name
  what : Def
  site : Site

def instEntries (l : Name) : List Inst → Int → List DefEntry
  | [], _ => []
  | i :: is, n => (instDefs i).map (fun d => ⟨d, .inst i, .at_ l n⟩) ++ instEntries l is (n + 1)

def blockEntries (b : Block) : List DefEntry :=
  b.phis.map (fun ph => ⟨ph.dst, .phi ph, .at_ b.label (-1)⟩) ++ instEntries b.label b.insts 0

def defEntries (params : List Param) (bs : List Block) : List DefEntry :=
  params.map (fun p => ⟨p.name, .param, .param⟩) ++ bs.flatMap blockEntries

theorem instEntries_defs (l : Name) (is : List Inst) : ∀ n, (instEntries l is n).map (fun e => (e.name, e.what)) =
    is.flatMap (fun i => (instDefs i).map (fun d => (d, Def.inst i))) := by
  induction is with
  | nil => intro n; rfl
  | cons i is ih => intro n; simp [instEntries, ih, Function.comp_def]

theorem instEntries_sites (l : Name) (is : List Inst) : ∀ n, (instEntries l is n).map (fun e => (e.name, e.site)) =
    instSites l is n := by
  induction is with
  | nil => intro n; rfl
  | cons i is ih => intro n; simp [instEntries, instSites, ih, Function.comp_def]

theorem defEntries_defs (params : List Param) (bs : List Block) :
    (defEntries params bs).map (fun e => (e.name, e.what)) = tempDefs params bs := by
  have blocks : ∀ b, (blockEntries b).map (fun e => (e.name, e.what)) = blockDefs b := by
    intro b
    simp [blockEntries, blockDefs, instEntries_defs, Function.comp_def]
  simp [defEntries, tempDefs, map_flatMap, blocks, Function.comp_def]

theorem defEntries_sites (params : List Param) (bs : List Block) :
    (defEntries params bs).map (fun e => (e.name, e.site)) = defSites params bs := by
  have blocks : ∀ b, (blockEntries b).map (fun e => (e.name, e.site)) = blockSites b := by
    intro b
    simp [blockEntries, blockSites, instEntries_sites, Function.comp_def]
  simp [defEntries, defSites, map_flatMap, blocks, Function.comp_def]

/-- A single definition is the only one: every other entry of its name is itself. -/
theorem once_unique {params : List Param} {bs : List Block} {n : Name} {d : Def}
    (once : singleDefinitions params bs n = some d) :
    ∃ e ∈ defEntries params bs, e.name = n ∧ e.what = d ∧
      ∀ e' ∈ defEntries params bs, e'.name = n → e' = e := by
  unfold singleDefinitions at once
  split at once
  · rename_i nd filtered
    cases once
    have mapped : ((defEntries params bs).filter (fun e => e.name = n)).map (fun e => (e.name, e.what)) = [nd] := by
      rw [← filtered, ← defEntries_defs, List.filter_map]
      rfl
    obtain ⟨e, single, rfl⟩ := map_eq_singleton_iff.1 mapped
    have mem : e ∈ (defEntries params bs).filter (fun e => e.name = n) := by rw [single]; exact mem_singleton.2 rfl
    obtain ⟨mem', named⟩ := mem_filter.1 mem
    refine ⟨e, mem', by simpa using named, rfl, fun e' h same => ?_⟩
    have : e' ∈ (defEntries params bs).filter (fun e => e.name = n) := mem_filter.2 ⟨h, by simpa using same⟩
    rw [single] at this
    exact mem_singleton.1 this
  · cases once

theorem mem_instEntries {is : List Inst} {e : DefEntry} : ∀ {n : Int}, e ∈ instEntries l is n ↔
    ∃ (j : Nat) (i : Inst), is[j]? = some i ∧ e.name ∈ instDefs i ∧ e.what = .inst i ∧ e.site = .at_ l (n + j) := by
  induction is with
  | nil => intro n; simp [instEntries]
  | cons i is ih =>
    intro n
    simp only [instEntries, mem_append, List.mem_map, ih]
    constructor
    · rintro (⟨d, h, rfl⟩ | ⟨j, i', at_, def_, what, site⟩)
      · exact ⟨0, i, by simp, h, rfl, by simp⟩
      · exact ⟨j + 1, i', by simpa using at_, def_, what, by rw [site]; congr 1; push_cast; omega⟩
    · rintro ⟨j, i', at_, def_, what, site⟩
      cases j with
      | zero =>
        simp only [getElem?_cons_zero, Option.some.injEq] at at_
        subst at_
        refine .inl ⟨e.name, def_, ?_⟩
        cases e
        simp_all
      | succ j =>
        exact .inr ⟨j, i', by simpa using at_, def_, what, by rw [site]; congr 1; push_cast; omega⟩

theorem inst_entry {params : List Param} {bs : List Block} {j : Nat} {i : Inst} {n : Name}
    (mem : b ∈ bs) (at_ : b.insts[j]? = some i) (def_ : n ∈ instDefs i) :
    ⟨n, .inst i, .at_ b.label j⟩ ∈ defEntries params bs := by
  simp only [defEntries, mem_append, mem_flatMap]
  refine .inr ⟨b, mem, ?_⟩
  simp only [blockEntries, mem_append]
  exact .inr (mem_instEntries.2 ⟨j, i, at_, def_, rfl, by simp⟩)

theorem phi_entry {params : List Param} {bs : List Block} {ph : Phi} (mem : b ∈ bs)
    (phi : ph ∈ b.phis) : ⟨ph.dst, .phi ph, .at_ b.label (-1)⟩ ∈ defEntries params bs := by
  simp only [defEntries, mem_append, mem_flatMap]
  refine .inr ⟨b, mem, ?_⟩
  simp only [blockEntries, mem_append, List.mem_map]
  exact .inl ⟨ph, phi, rfl⟩

/-- An entry is a parameter's, a phi's or an instruction's. -/
theorem entry_cases {params : List Param} {bs : List Block} {e : DefEntry} (mem : e ∈ defEntries params bs) :
    (e.what = .param ∧ e.site = .param ∧ ∃ p ∈ params, p.name = e.name) ∨
    (∃ b ∈ bs, ∃ ph ∈ b.phis, e.name = ph.dst ∧ e.what = .phi ph ∧ e.site = .at_ b.label (-1)) ∨
    ∃ b ∈ bs, ∃ (j : Nat) (i : Inst), b.insts[j]? = some i ∧ e.name ∈ instDefs i ∧ e.what = .inst i ∧
      e.site = .at_ b.label j := by
  simp only [defEntries, mem_append, mem_flatMap, List.mem_map] at mem
  rcases mem with ⟨p, h, rfl⟩ | ⟨b, h, inBlock⟩
  · exact .inl ⟨rfl, rfl, p, h, rfl⟩
  · simp only [blockEntries, mem_append, List.mem_map] at inBlock
    rcases inBlock with ⟨ph, phi, rfl⟩ | inst
    · exact .inr (.inl ⟨b, h, ph, phi, rfl, rfl, rfl⟩)
    · obtain ⟨j, i, at_, def_, what, site⟩ := mem_instEntries.1 inst
      exact .inr (.inr ⟨b, h, j, i, at_, def_, what, by simpa using site⟩)

end Nanofil
