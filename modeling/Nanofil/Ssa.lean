import Nanofil.Points

/-! What `definitions_dominate/3` promises of single definitions: at a point past
one, what it read is past too, and no step from there defines either again. -/
namespace Nanofil
open List Walks

/-- The facts of a valid function that its definitions' order rests on. -/
structure Ssa (params : List Param) (bs : List Block) : Prop where
  labels : (bs.map (·.label)).Nodup
  entry : noEntryJump bs = true
  dominate : definitionsDominate params bs = true

/-- Some definition of `n` comes before the point on every way to it. -/
def Established (params : List Param) (bs : List Block) (n : Name) (pt : Point) : Prop :=
  ∃ e ∈ defEntries params bs, e.name = n ∧ e.site.Before bs pt

section
variable {params : List Param} {bs : List Block}

theorem noEntryJump_preds (entry : noEntryJump bs = true) : blockPreds bs (blocksEntry bs) = [] := by
  cases bs with
  | nil => rfl
  | cons b bs =>
    simp only [noEntryJump, all_eq_true, decide_eq_true_eq] at entry
    rw [eq_nil_iff_forall_not_mem]
    intro l pred
    simp only [blockPreds, mem_sortNames, mem_map, mem_filter, decide_eq_true_eq] at pred
    obtain ⟨b', ⟨mem, jumps⟩, _⟩ := pred
    exact entry b' mem (mem_jumpSuccs.1 jumps)

variable {n l : Name} {iv : Intervals} {d : Def} {pt : Point} {b : Block} {i : Inst} {ph : Phi}

theorem mem_defSites {s : Site} (mem : (n, s) ∈ defSites params bs) : ∃ e ∈ defEntries params bs, e.name = n ∧ e.site = s := by
  rw [← defEntries_sites] at mem
  obtain ⟨e, h, same⟩ := mem_map.1 mem
  simp only [Prod.mk.injEq] at same
  exact ⟨e, h, same.1, same.2⟩

/-- Where an entry is, in a block or as a parameter. -/
theorem entry_site {e : DefEntry} (mem : e ∈ defEntries params bs) :
    e.site = .param ∨ ∃ b ∈ bs, ∃ j : Int, e.site = .at_ b.label j ∧ -1 ≤ j ∧ j < b.insts.length := by
  rcases entry_cases mem with ⟨_, site, _⟩ | ⟨b, h, ph, _, _, _, site⟩ | ⟨b, h, j, i, at_, _, _, site⟩
  · exact .inl site
  · exact .inr ⟨b, h, -1, site, by omega, by omega⟩
  · have := (List.getElem?_eq_some_iff.1 at_).1
    exact .inr ⟨b, h, j, site, by omega, by omega⟩

theorem dominatedInsts_use {is : List Inst} : ∀ {n : Int},
    dominatedInsts (defSites params bs) iv l is n = true → ∀ {k : Nat} {i : Inst}, is[k]? = some i →
      ∀ x ∈ instUses i, dominatedUse (defSites params bs) iv l (n + k) x = true := by
  induction is with
  | nil => intro n _ k i at_; simp at at_
  | cons i0 is ih =>
    intro n all k i at_ x use
    simp only [dominatedInsts, Bool.and_eq_true, all_eq_true] at all
    cases k with
    | zero =>
      simp only [getElem?_cons_zero, Option.some.injEq] at at_
      subst at_
      simpa using all.1 x use
    | succ k =>
      have := ih all.2 (by simpa using at_) x use
      rw [show n + (k + 1 : Nat) = n + 1 + k by push_cast; omega]
      exact this

/-! ### Single definitions -/

/-- The one site of a single definition decides where its name is established. -/
theorem established_once (once : singleDefinitions params bs n = some d)
    {e : DefEntry} (mem : e ∈ defEntries params bs) (named : e.name = n) :
    Established params bs n pt ↔ e.site.Before bs pt := by
  obtain ⟨e0, _, _, _, unique⟩ := once_unique once
  constructor
  · rintro ⟨e', mem', named', before⟩
    rw [unique e mem named, ← unique e' mem' named']
    exact before
  · exact fun before => ⟨e, mem, named, before⟩

theorem once_inst (once : singleDefinitions params bs n = some d)
    (mem : b ∈ bs) {k : Nat} (at_ : b.insts[k]? = some i) (def_ : n ∈ instDefs i) : d = .inst i := by
  obtain ⟨e0, _, _, what, unique⟩ := once_unique once
  rw [← what, ← unique _ (inst_entry mem at_ def_) rfl]

theorem once_phi (once : singleDefinitions params bs n = some d)
    (mem : b ∈ bs) (phi : ph ∈ b.phis) (named : ph.dst = n) : d = .phi ph := by
  obtain ⟨e0, _, _, what, unique⟩ := once_unique once
  rw [← what, ← unique _ (phi_entry mem phi) named]

theorem once_param (once : singleDefinitions params bs n = some d) {p : Param}
    (mem : p ∈ params) (named : p.name = n) : d = .param := by
  obtain ⟨e0, _, _, what, unique⟩ := once_unique once
  have entry : (⟨p.name, .param, .param⟩ : DefEntry) ∈ defEntries params bs := by
    simp only [defEntries, mem_append, mem_map]
    exact .inl ⟨p, mem, rfl⟩
  rw [← what, ← unique _ entry named]

/-- Nothing but a parameter is established at the start. -/
theorem established_start (est : Established params bs n (startPoint bs)) : ∃ p ∈ params, p.name = n := by
  obtain ⟨e, h, named, before⟩ := est
  rcases entry_cases h with ⟨_, _, p, mem, same⟩ | ⟨b, _, ph, _, _, _, site⟩ | ⟨b, _, j, i, _, _, _, site⟩
  · exact ⟨p, mem, same.trans named⟩
  · rw [site] at before
    exact absurd before StrictDom.not_root
  · rw [site] at before
    exact absurd before StrictDom.not_root

/-- A step never defines a single-definition name that is already established. -/
theorem established_kept (once : singleDefinitions params bs n = some d) (mem : b ∈ bs) {k : Nat} (at_ : b.insts[k]? = some i)
    (reached : ReachablePoint bs ⟨b.label, k⟩) (est : Established params bs n ⟨b.label, k⟩) :
    n ∉ instDefs i := by
  intro def_
  have before := (established_once once (inst_entry mem at_ def_) rfl).1 est
  exact StrictDom.irrefl reached before

theorem established_phi (once : singleDefinitions params bs n = some d)
    (mem : b ∈ bs) (phi : ph ∈ b.phis) (reached : ReachablePoint bs ⟨b.label, -1⟩)
    (est : Established params bs n ⟨b.label, -1⟩) : ph.dst ≠ n := by
  intro named
  have before := (established_once once (phi_entry mem phi) named).1 est
  exact StrictDom.irrefl reached before

variable (ssa : Ssa params bs)
include ssa

theorem dominate_table : ∃ iv, DomTable bs iv ∧ ∀ b ∈ bs, dominatedBlock (defSites params bs) iv bs b = true := by
  have dominate := ssa.dominate
  unfold definitionsDominate at dominate
  split at dominate
  · rename_i iv built
    exact ⟨iv, blockIntervals_table built (noEntryJump_preds ssa.entry), all_eq_true.1 dominate⟩
  · cases dominate

theorem dominatedUse_established (table : DomTable bs iv) {i : Int}
    (used : dominatedUse (defSites params bs) iv l i n = true) : Established params bs n ⟨l, i⟩ := by
  simp only [dominatedUse, any_eq_true, Bool.and_eq_true, decide_eq_true_eq] at used
  obtain ⟨⟨_, s⟩, mem, rfl, dom⟩ := used
  obtain ⟨e, h, named, rfl⟩ := mem_defSites mem
  refine ⟨e, h, named, ?_⟩
  rcases entry_site h with site | ⟨b, mem, j, site, low, high⟩
  · rw [site]
    trivial
  · rw [site] at dom ⊢
    simp only [siteDominates] at dom
    split at dom
    · rename_i same
      subst same
      exact before_same_block ssa.labels low (by simpa using dom)
    · rename_i other
      exact before_dominating ssa.labels mem (table.sound _ _ dom other) low (by omega)

theorem known_label (table : DomTable bs iv) (reached : ReachablePoint bs pt) : (iv pt.label).isNone = false := by
  have known := table.known pt.label (reachable_block ssa.labels reached)
  cases h : iv pt.label <;> simp_all

/-- What an instruction reads is established where it stands. -/
theorem inst_use (mem : b ∈ bs) {k : Nat} (at_ : b.insts[k]? = some i)
    (reached : ReachablePoint bs ⟨b.label, k⟩) (use : n ∈ instUses i) :
    Established params bs n ⟨b.label, k⟩ := by
  obtain ⟨iv, table, all⟩ := dominate_table ssa
  have block := all b mem
  have known := known_label ssa table reached
  simp only [dominatedBlock, Bool.or_eq_true, Bool.and_eq_true] at block
  rcases block with h | ⟨⟨insts, _⟩, _⟩
  · rw [h] at known
    cases known
  · have := dominatedInsts_use insts at_ n use
    exact dominatedUse_established ssa table (by simpa using this)

theorem jump_use (mem : b ∈ bs) (reached : ReachablePoint bs ⟨b.label, b.insts.length⟩)
    (use : n ∈ jumpUses b.jump) : Established params bs n ⟨b.label, b.insts.length⟩ := by
  obtain ⟨iv, table, all⟩ := dominate_table ssa
  have block := all b mem
  have known := known_label ssa table reached
  simp only [dominatedBlock, Bool.or_eq_true, Bool.and_eq_true, all_eq_true] at block
  rcases block with h | ⟨⟨_, jump⟩, _⟩
  · rw [h] at known
    cases known
  · exact dominatedUse_established ssa table (jump n use)

theorem phi_use {pred : Block} (mem : b ∈ bs) (memPred : pred ∈ bs)
    (reached : ReachablePoint bs ⟨b.label, -1⟩) (reachedPred : ReachablePoint bs ⟨pred.label, pred.insts.length⟩) (phi : ph ∈ b.phis) (pair : (pred.label, .tmp n) ∈ ph.pairs) :
    Established params bs n ⟨pred.label, pred.insts.length⟩ := by
  obtain ⟨iv, table, all⟩ := dominate_table ssa
  have block := all b mem
  have known := known_label ssa table reached
  have knownPred := known_label ssa table reachedPred
  simp only [dominatedBlock, Bool.or_eq_true, Bool.and_eq_true, all_eq_true] at block
  rcases block with h | ⟨_, phis⟩
  · rw [h] at known
    cases known
  · have operand := all_eq_true.1 (phis ph phi) _ pair
    simp only [Bool.or_eq_true] at operand
    rcases operand with h | used
    · rw [h] at knownPred
      cases knownPred
    · rw [blockEnd, find_label ssa.labels memPred] at used
      exact dominatedUse_established ssa table used

/-! ### Steps -/

/-- What is established before an instruction is so past it. -/
theorem Established.next {n : Name} {l : Name} {k : Nat} (est : Established params bs n ⟨l, k⟩) :
    Established params bs n ⟨l, k + 1⟩ := by
  obtain ⟨e, h, named, before⟩ := est
  refine ⟨e, h, named, ?_⟩
  cases site : e.site with
  | param => trivial
  | at_ l' j =>
    rw [site] at before
    exact StrictDom.trans before (before_same_block ssa.labels (by omega) (by omega))

/-- Past an instruction, what was not established before it is what it defines. -/
theorem established_next (mem : b ∈ bs) {k : Nat} (at_ : b.insts[k]? = some i) (est : Established params bs n ⟨b.label, k + 1⟩) :
    Established params bs n ⟨b.label, k⟩ ∨ n ∈ instDefs i := by
  obtain ⟨e, h, named, before⟩ := est
  have inside := (List.getElem?_eq_some_iff.1 at_).1
  cases site : e.site with
  | param => exact .inl ⟨e, h, named, by rw [site]; trivial⟩
  | at_ l j =>
    rw [site] at before
    have next : PointEdge bs ⟨b.label, k⟩ ⟨b.label, k + 1⟩ := .next mem (by omega) (by omega)
    rcases before.back next with here | before
    · right
      simp only [Point.mk.injEq] at here
      obtain ⟨rfl, rfl⟩ := here
      rcases entry_cases h with ⟨_, s, _⟩ | ⟨b', _, ph, _, _, _, s⟩ | ⟨b', h', j, i', at', def_, _, s⟩
      · rw [site] at s; cases s
      · rw [site] at s; simp only [Site.at_.injEq] at s; omega
      · rw [site] at s
        simp only [Site.at_.injEq, Nat.cast_inj] at s
        have := label_inj ssa.labels mem h' s.1
        subst this
        rw [← s.2, at_] at at'
        cases at'
        exact named ▸ def_
    · exact .inl ⟨e, h, named, by rw [site]; exact before⟩

theorem established_phis (mem : b ∈ bs) (est : Established params bs n ⟨b.label, 0⟩) :
    Established params bs n ⟨b.label, -1⟩ ∨ ∃ ph ∈ b.phis, ph.dst = n := by
  obtain ⟨e, h, named, before⟩ := est
  cases site : e.site with
  | param => exact .inl ⟨e, h, named, by rw [site]; trivial⟩
  | at_ l j =>
    rw [site] at before
    rcases Nat.eq_zero_or_pos b.insts.length with empty | _
    all_goals
      have next : PointEdge bs ⟨b.label, -1⟩ ⟨b.label, 0⟩ := .next mem (by omega) (by omega)
      rcases before.back next with here | before
      · right
        simp only [Point.mk.injEq] at here
        obtain ⟨rfl, rfl⟩ := here
        rcases entry_cases h with ⟨_, s, _⟩ | ⟨b', h', ph, phi, named', _, s⟩ | ⟨b', h', j, i', at', def_, _, s⟩
        · rw [site] at s; cases s
        · rw [site] at s
          simp only [Site.at_.injEq, and_true] at s
          have := label_inj ssa.labels mem h' s
          subst this
          exact ⟨ph, phi, named' ▸ named⟩
        · rw [site] at s; simp only [Site.at_.injEq] at s; omega
      · exact .inl ⟨e, h, named, by rw [site]; exact before⟩

/-- What is established past an edge was so before it. -/
theorem established_edge (mem : b ∈ bs) (target : l ∈ jumpLabels b.jump)
    (est : Established params bs n ⟨l, -1⟩) : Established params bs n ⟨b.label, b.insts.length⟩ := by
  obtain ⟨e, h, named, before⟩ := est
  refine ⟨e, h, named, ?_⟩
  rcases entry_site h with site | ⟨b', mem', j, site, low, high⟩
  · rw [site]
    trivial
  · rw [site] at before ⊢
    rcases before.back (.jump mem target) with here | before
    · simp only [Point.mk.injEq] at here
      have := label_inj ssa.labels mem' mem here.1
      subst this
      omega
    · exact before

/-- What an established single definition read is established too. -/
theorem established_operand {x : Name} (onceX : singleDefinitions params bs x = some (.inst i))
    (use : n ∈ instUses i) (reached : ReachablePoint bs pt) (est : Established params bs x pt) :
    Established params bs n pt := by
  obtain ⟨e, h, named, what, _⟩ := once_unique onceX
  have before := (established_once onceX h named).1 est
  rcases entry_cases h with ⟨w, _, _⟩ | ⟨_, _, ph, _, _, w, _⟩ | ⟨b, mem, j, i', at_, _, w, site⟩
  · rw [what] at w; cases w
  · rw [what] at w; cases w
  · rw [what] at w
    cases w
    rw [site] at before
    obtain ⟨p, walk⟩ := reached
    obtain ⟨q, cut, _, _⟩ := walk.cut (before p walk)
    obtain ⟨e', h', named', before'⟩ := inst_use ssa mem at_ ⟨q, cut⟩ use
    refine ⟨e', h', named', ?_⟩
    cases site' : e'.site with
    | param => trivial
    | at_ l k =>
      rw [site'] at before'
      exact StrictDom.trans before' before

end

end Nanofil
