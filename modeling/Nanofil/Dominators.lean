import Nanofil.Points
import Nanofil.Lib.Results

/-! The tables of `cfg.pl` miss no dominator: what every walk to a block passes has an
interval around the block's. -/
namespace Nanofil
open Results List Option Walks

/-! ### Nested intervals -/

variable {n : Nat} {b : Name} {ls : List Name}

section Nesting
variable {parent : Idom} {kids : Name → List Name}

/-- Below `l` the walk numbers each label from `pre` on, within its ancestors' intervals. -/
structure Nested (parent : Idom) (l : Name) (pre : Nat) (r : Nat × Intervals) : Prop where
  placed : ∀ x, Ancestor parent l x → ∃ p q, r.2 x = some (p, q) ∧ pre ≤ p ∧ p < r.1 ∧ q < r.1
  around : ∀ a b, Ancestor parent l a → Ancestor parent a b → ∀ pa qa pb qb, r.2 a = some (pa, qa) →
    r.2 b = some (pb, qb) → pa ≤ pb ∧ pb ≤ qa

/-- The walk of a label outside a subtree leaves the subtree's numbers as they were. -/
theorem Nested.kept {root k k' : Name} {pre pre' : Nat} {r r' : Nat × Intervals} (noParent : parent root = none)
    (nested : Nested parent k pre r) (le : r.1 ≤ r'.1) (changed : Renumbered parent k' pre' r.2 r'.2)
    {l : Name} (rooted : Ancestor parent root l) (up : parent k = some l) (up' : parent k' = some l)
    (ne : k ≠ k') : Nested parent k pre r' := by
  have apart : ∀ {a b : Name}, parent a = some l → parent b = some l → Ancestor parent a b → a = b := by
    intro a b upA upB anc
    cases anc with
    | self => rfl
    | child above up =>
      rw [upB] at up
      cases up
      exact absurd above (Ancestor.not_parent noParent (rooted.child upA) upA)
  have same : ∀ x, Ancestor parent k x → r'.2 x = r.2 x := by
    intro x anc
    rcases changed x with h | ⟨_, _, _, _, anc'⟩
    · exact h
    · rcases anc.comparable anc' with h | h
      · exact absurd (apart up up' h) ne
      · exact absurd (apart up' up h).symm ne
  constructor
  · intro x anc
    obtain ⟨p, q, h, low, high, last⟩ := nested.placed x anc
    exact ⟨p, q, (same x anc).trans h, low, by omega, by omega⟩
  · intro a b anc below pa qa pb qb ha hb
    rw [same a anc] at ha
    rw [same b (anc.trans below)] at hb
    exact nested.around a b anc below pa qa pb qb ha hb

/-- The children of `l` one after the other, each in its own range. -/
theorem kids_nested {root l : Name} (noParent : parent root = none) (rooted : Ancestor parent root l)
    {f : Name → Nat → Intervals → Option (Nat × Intervals)} {ks : List Name}
    (walked : ∀ k ∈ ks, ∀ pre iv r, Numbered parent iv pre → f k pre iv = some r →
      Walked parent k pre iv r ∧ Nested parent k pre r)
    (child : ∀ k ∈ ks, parent k = some l) : ∀ {acc r : Nat × Intervals} (done : List Name) {first : Nat},
      Numbered parent acc.2 acc.1 → (∀ k ∈ done, parent k = some l ∧ Nested parent k first acc) → first ≤ acc.1 →
      ks.foldlM (fun acc k => f k acc.1 acc.2) acc = some r →
      ∀ k, k ∈ done ∨ k ∈ ks → Nested parent k first r := by
  induction ks with
  | nil =>
    intro acc r done first _ nested _ folded
    simp only [foldlM_nil, pure_found] at folded
    subst folded
    exact fun k h => (nested k (h.resolve_right not_mem_nil)).2
  | cons k ks ih =>
    intro acc r done first numbered nested le folded
    simp only [foldlM_cons, bind_found] at folded
    obtain ⟨acc', here, folded⟩ := folded
    obtain ⟨w, inner⟩ := walked k mem_cons_self acc.1 acc.2 acc' numbered here
    have later := w.later
    have up := child k mem_cons_self
    have ranged : Nested parent k first acc' := by
      refine ⟨fun x anc => ?_, inner.around⟩
      obtain ⟨p, q, h, low, high⟩ := inner.placed x anc
      exact ⟨p, q, h, by omega, high⟩
    have nested' : ∀ k' ∈ k :: done, parent k' = some l ∧ Nested parent k' first acc' := by
      intro k' mem
      by_cases same : k' = k
      · exact same ▸ ⟨up, ranged⟩
      · have old := nested k' ((mem_cons.1 mem).resolve_left same)
        exact ⟨old.1, old.2.kept noParent (by omega) w.changed rooted old.1 up same⟩
    intro k' mem
    refine ih (fun k' h => walked k' (mem_cons_of_mem _ h)) (fun k' h => child k' (mem_cons_of_mem _ h))
      (k :: done) w.numbered nested' (by omega) folded k' ?_
    simp only [mem_cons] at mem ⊢
    tauto

theorem subtreeIntervals_nested (children : ∀ l k, k ∈ kids l ↔ parent k = some l) {root : Name}
    (noParent : parent root = none) : ∀ {l : Name} {pre : Nat} {iv : Intervals} {r : Nat × Intervals},
      Numbered parent iv pre → Ancestor parent root l → subtreeIntervals kids n l pre iv = some r →
        Nested parent l pre r := by
  induction n with
  | zero => intro l pre iv r _ _ done; simp [subtreeIntervals] at done
  | succ n ih =>
    intro l pre iv r before rooted done
    have later := (subtreeIntervals_walked children before done).later
    simp only [subtreeIntervals, bind_found, Option.pure_def,
      Option.some.injEq] at done
    obtain ⟨r', folded, rfl⟩ := done
    dsimp only at later
    have below : ∀ k, parent k = some l → Nested parent k (pre + 1) r' := fun k up =>
      kids_nested noParent rooted (fun k mem pre iv r numbered walk =>
          ⟨subtreeIntervals_walked children numbered walk,
            ih numbered (rooted.child ((children l k).1 mem)) walk⟩)
        (fun k mem => (children l k).1 mem) [] ⟨fun x p q h => ⟨(before.below x p q h).1,
          Nat.lt_succ_of_lt (before.below x p q h).2⟩, before.inside⟩ (by simp) (Nat.le_refl _) folded k
        (.inr ((children l k).2 up))
    have other : ∀ {k x}, parent k = some l → Ancestor parent k x → x ≠ l := by
      rintro k x up anc rfl
      cases anc with
      | self => exact Ancestor.not_parent noParent rooted up (.self _)
      | child anc up' => exact Ancestor.not_parent noParent rooted up' (((Ancestor.self _).child up).trans anc)
    constructor
    · intro x anc
      rcases anc.head with rfl | ⟨k, up, anc⟩
      · exact ⟨pre, r'.1 - 1, by simp [setInterval], Nat.le_refl _, later, by omega⟩
      · obtain ⟨p, q, h, low, high⟩ := (below k up).placed x anc
        exact ⟨p, q, by simpa [setInterval, other up anc] using h, by omega, high⟩
    · intro a b anc belowA pa qa pb qb ha hb
      rcases anc.head with rfl | ⟨k, up, ancA⟩
      · obtain ⟨rfl, rfl⟩ : pre = pa ∧ r'.1 - 1 = qa := by simpa [setInterval] using ha
        rcases belowA.head with rfl | ⟨k, up, ancB⟩
        · obtain ⟨rfl, -⟩ : pre = pb ∧ r'.1 - 1 = qb := by simpa [setInterval] using hb
          omega
        · obtain ⟨p, q, h, low, high, _⟩ := (below k up).placed b ancB
          have : r'.2 b = some (pb, qb) := by simpa [setInterval, other up ancB] using hb
          rw [this] at h
          cases h
          omega
      · have ancB := ancA.trans belowA
        exact (below k up).around a b ancA belowA pa qa pb qb (by simpa [setInterval, other up ancA] using ha)
          (by simpa [setInterval, other up ancB] using hb)

end Nesting

/-! ### Closest dominators -/

theorem blockPreds_edge {bs : List Block} (labels : (bs.map (·.label)).Nodup) {a : Name}
    (pred : a ∈ blockPreds bs b) : BlockEdge bs a b := by
  simp only [blockPreds, mem_sortNames, List.mem_map, mem_filter, decide_eq_true_eq] at pred
  obtain ⟨blk, ⟨mem, jumps⟩, rfl⟩ := pred
  exact blockEdge_jump labels mem (mem_jumpSuccs.1 jumps)

section Closest
variable {bs : List Block} {entry : Name} {num : Name → Nat}

/-- Dominance that holds of a block itself. -/
def Dom (bs : List Block) (entry a b : Name) : Prop := a = b ∨ StrictDom (BlockEdge bs) entry a b

/-- A strict dominator comes earlier in the order. -/
def Ordered (bs : List Block) (entry : Name) (num : Name → Nat) (ls : List Name) : Prop :=
  ∀ a, ∀ b ∈ ls, StrictDom (BlockEdge bs) entry a b → num a < num b

/-- A table's dominator of a block is below all others. -/
def Closest (bs : List Block) (entry : Name) (ls : List Name) (idom : Idom) : Prop :=
  ∀ b d, idom b = some d → b ∈ ls ∧ d ∈ ls ∧ (b = entry ∧ d = entry ∨ ∀ a, StrictDom (BlockEdge bs) entry a b → Dom bs entry a d)

variable {idom : Idom}

/-- What dominates both survives each climb to where they meet. -/
theorem commonDominator_closest (ordered : Ordered bs entry num ls)
    (closest : Closest bs entry ls idom) : ∀ {a b d : Name}, a ∈ ls → b ∈ ls →
      commonDominator num idom n a b = some d →
      d ∈ ls ∧ ∀ x, Dom bs entry x a → Dom bs entry x b → Dom bs entry x d := by
  induction n with
  | zero => intro a b d _ _ met; simp [commonDominator] at met
  | succ n ih =>
    intro a b d mem_a mem_b met
    -- what dominates the later of the two is not itself, so it dominates its table entry
    have climb : ∀ {u v u' : Name}, v ∈ ls → u ≠ v → ¬ num u < num v → idom u = some u' →
        u' ∈ ls ∧ ∀ x, Dom bs entry x u → Dom bs entry x v → Dom bs entry x u' := by
      intro u v u' mem_v ne late up
      obtain ⟨_, mem_u', near⟩ := closest u u' up
      refine ⟨mem_u', fun x domU domV => ?_⟩
      rcases near with ⟨rfl, rfl⟩ | near
      · exact domU
      · rcases domU with rfl | strict
        · rcases domV with same | strict
          · exact absurd same ne
          · exact absurd (ordered _ _ mem_v strict) late
        · exact near x strict
    simp only [commonDominator] at met
    split at met
    · cases met
      exact ⟨mem_a, fun x domA _ => domA⟩
    · rename_i ne
      split at met
      · simp only [bind_found] at met
        obtain ⟨a', up, met⟩ := met
        obtain ⟨mem', dom'⟩ := climb mem_b ne (by omega) up
        obtain ⟨mem_d, domD⟩ := ih mem' mem_b met
        exact ⟨mem_d, fun x domA domB => domD x (dom' x domA domB) domB⟩
      · simp only [bind_found] at met
        obtain ⟨b', up, met⟩ := met
        obtain ⟨mem', dom'⟩ := climb mem_a (Ne.symm ne) (by omega) up
        obtain ⟨mem_d, domD⟩ := ih mem_a mem' met
        exact ⟨mem_d, fun x domA domB => domD x domA (dom' x domB domA)⟩

theorem foldCommon_closest (ordered : Ordered bs entry num ls)
    (closest : Closest bs entry ls idom) {others : List Name} : ∀ {first d : Name},
      (∀ p ∈ first :: others, p ∈ ls) →
      others.foldlM (fun a p => commonDominator num idom n p a) first = some d →
      d ∈ ls ∧ ∀ x, (∀ p ∈ first :: others, Dom bs entry x p) → Dom bs entry x d := by
  induction others with
  | nil =>
    intro first d mem met
    simp only [foldlM_nil, pure_found] at met
    subst met
    exact ⟨mem first mem_cons_self, fun x dom => dom first mem_cons_self⟩
  | cons p others ih =>
    intro first d mem met
    simp only [foldlM_cons, bind_found] at met
    obtain ⟨c, common, met⟩ := met
    have next : p ∈ first :: p :: others := mem_cons_of_mem _ mem_cons_self
    obtain ⟨mem_c, domC⟩ := commonDominator_closest ordered closest (mem p next) (mem first mem_cons_self) common
    have rest : ∀ {P : Name → Prop}, P c → (∀ q ∈ first :: p :: others, P q) → ∀ q ∈ c :: others, P q := by
      intro P here all q h
      rcases mem_cons.1 h with rfl | h
      · exact here
      · exact all q (mem_cons_of_mem _ (mem_cons_of_mem _ h))
    obtain ⟨mem_d, domD⟩ := ih (rest mem_c mem) met
    exact ⟨mem_d, fun x dom => domD x (rest (domC x (dom p next) (dom first mem_cons_self)) dom)⟩

variable {cfg : Cfg}

/-- A block's new table entry is below all that strictly dominates the block. -/
theorem newIdom_closest (preds : cfg.preds = blockPreds bs) (labels : (bs.map (·.label)).Nodup)
    (ordered : Ordered bs entry (fun l => cfg.rpo.idxOf l) cfg.rpo)
    (closest : Closest bs entry cfg.rpo idom) {d : Name} (new : newIdom cfg idom b = some d) :
    d ∈ cfg.rpo ∧ ∀ a, StrictDom (BlockEdge bs) entry a b → Dom bs entry a d := by
  have pred : ∀ p ∈ (cfg.preds b).filter (fun p => (idom p).isSome), p ∈ cfg.rpo ∧ BlockEdge bs p b := by
    intro p mem
    rw [preds] at mem
    obtain ⟨mem, known⟩ := mem_filter.1 mem
    obtain ⟨d, up⟩ := isSome_iff_exists.1 known
    exact ⟨(closest p d up).1, blockPreds_edge labels mem⟩
  unfold newIdom at new
  split at new
  · cases new
  · rename_i first others processed
    rw [processed] at pred
    obtain ⟨mem, dom⟩ := foldCommon_closest ordered closest (fun p h => (pred p h).1) new
    exact ⟨mem, fun a strict => dom a fun p h => strict.back (pred p h).2⟩

theorem sweep_closest (preds : cfg.preds = blockPreds bs) (labels : (bs.map (·.label)).Nodup)
    (ordered : Ordered bs entry (fun l => cfg.rpo.idxOf l) cfg.rpo) : ∀ {st st' : Idom × Bool},
      (∀ l ∈ ls, l ∈ cfg.rpo) → Closest bs entry cfg.rpo st.1 → ls.foldlM (labelIdoms cfg) st = some st' →
      Closest bs entry cfg.rpo st'.1 := by
  induction ls with
  | nil =>
    intro st st' _ closest done
    simp only [foldlM_nil, pure_found] at done
    exact done ▸ closest
  | cons b ls ih =>
    intro st st' sub closest done
    simp only [foldlM_cons, bind_found, labelIdoms,
      pure_found] at done
    obtain ⟨st1, ⟨d, new, rfl⟩, done⟩ := done
    refine ih (fun l h => sub l (mem_cons_of_mem _ h)) ?_ done
    split
    · exact closest
    · obtain ⟨mem, dom⟩ := newIdom_closest preds labels ordered closest new
      intro l d' up
      simp only [setIdom] at up
      split at up
      · rename_i same
        cases up
        exact same ▸ ⟨sub b mem_cons_self, mem, .inr dom⟩
      · exact closest l d' up

theorem idomFixpoint_closest (preds : cfg.preds = blockPreds bs) (labels : (bs.map (·.label)).Nodup)
    (ordered : Ordered bs entry (fun l => cfg.rpo.idxOf l) cfg.rpo)
    (sub : ∀ l ∈ ls, l ∈ cfg.rpo) : ∀ {idom idom' : Idom}, Closest bs entry cfg.rpo idom →
      idomFixpoint cfg ls n idom = some idom' → Closest bs entry cfg.rpo idom' := by
  induction n with
  | zero => intro idom idom' _ done; simp [idomFixpoint] at done
  | succ n ih =>
    intro idom idom' closest done
    simp only [idomFixpoint, bind_found] at done
    obtain ⟨r, swept, done⟩ := done
    have closest' := sweep_closest preds labels ordered sub closest swept
    split at done
    · exact ih closest' done
    · cases done
      exact closest'

/-! ### The order -/

/-- A sweep reaches each block past a predecessor of it. -/
theorem sweep_preds (preds : cfg.preds = blockPreds bs) : ∀ {st st' : Idom × Bool} {seen : List Name},
    (∀ l, (st.1 l).isSome → l ∈ seen) → ls.foldlM (labelIdoms cfg) st = some st' →
    ∀ before b after, ls = before ++ b :: after → ∃ p ∈ blockPreds bs b, p ∈ seen ++ before := by
  induction ls with
  | nil => intro st st' seen _ _ before b after cut; simp at cut
  | cons c ls ih =>
    intro st st' seen known done before b after cut
    simp only [foldlM_cons, bind_found, labelIdoms,
      pure_found] at done
    obtain ⟨st1, ⟨d, new, rfl⟩, done⟩ := done
    cases before with
    | nil =>
      obtain ⟨rfl, rfl⟩ : c = b ∧ ls = after := by simpa using cut
      unfold newIdom at new
      split at new
      · cases new
      · rename_i first others processed
        have mem : first ∈ (cfg.preds c).filter (fun p => (st.1 p).isSome) := by
          rw [processed]
          exact mem_cons_self
        obtain ⟨mem, processed⟩ := mem_filter.1 mem
        exact ⟨first, preds ▸ mem, by simpa using known first processed⟩
    | cons c' before =>
      obtain ⟨rfl, rest⟩ : c = c' ∧ ls = before ++ b :: after := by simpa using cut
      have known' : ∀ l, ((if st.1 c = some d then st else (setIdom st.1 c d, true)).1 l).isSome → l ∈ seen ++ [c] := by
        intro l some_
        rw [mem_append, mem_singleton]
        split at some_
        · exact .inl (known l some_)
        · simp only [setIdom] at some_
          split at some_
          · exact .inr ‹_›
          · exact .inl (known l some_)
      obtain ⟨p, pred, mem⟩ := ih known' done before b after rest
      exact ⟨p, pred, by simpa using mem⟩

end Closest

/-- An order in which each block but the first is past a predecessor is the dominators'. -/
theorem ordered_of_preds {bs : List Block} {entry : Name} {num : Name → Nat}
    (earlier : ∀ b ∈ ls, b ≠ entry → ∃ p ∈ ls, BlockEdge bs p b ∧ num p < num b) : Ordered bs entry num ls := by
  have below : ∀ n, ∀ b ∈ ls, num b = n → ∀ a, StrictDom (BlockEdge bs) entry a b → num a < num b := by
    intro n
    induction n using Nat.strong_induction_on with
    | _ n ih =>
      rintro b mem rfl a dom
      by_cases start : b = entry
      · exact absurd (start ▸ dom) StrictDom.not_root
      · obtain ⟨p, mem_p, edge, lt⟩ := earlier b mem start
        rcases dom.back edge with rfl | dom
        · exact lt
        · exact lt_trans (ih (num p) lt p mem_p rfl a dom) lt
  exact fun a b mem dom => below (num b) b mem rfl a dom

theorem idxOf_append_lt {rest : List Name} {p : Name} (mem : p ∈ ls) (not : b ∉ ls) :
    (ls ++ b :: rest).idxOf p < (ls ++ b :: rest).idxOf b := by
  rw [idxOf_append_of_mem mem, idxOf_append_of_notMem not]
  have := idxOf_lt_length_of_mem mem
  omega

/-- Each block of the order but the entry is past a predecessor. -/
theorem rpo_earlier {bs : List Block} {cfg : Cfg} {parent : Idom} (labels : (bs.map (·.label)).Nodup)
    (built : funcCfg bs = some cfg) (tree : cfgIdoms cfg = some parent) : ∀ b ∈ cfg.rpo, b ≠ cfg.entry →
      ∃ p ∈ cfg.rpo, BlockEdge bs p b ∧ cfg.rpo.idxOf p < cfg.rpo.idxOf b := by
  obtain ⟨_, _, hpreds, ⟨rest, hrpo⟩, _⟩ := funcCfg_spec built
  simp only [cfgIdoms, bind_found, Option.pure_def,
    Option.some.injEq] at tree
  obtain ⟨idom, fixpoint, -⟩ := tree
  obtain ⟨r, swept⟩ : ∃ r, cfg.rpo.tail.foldlM (labelIdoms cfg)
      (setIdom (fun _ => none) cfg.entry cfg.entry, false) = some r := by
    simp only [idomFixpoint, bind_found] at fixpoint
    exact ⟨fixpoint.choose, fixpoint.choose_spec.1⟩
  intro b mem ne
  rw [hrpo] at mem
  obtain ⟨before, after, cut, first⟩ := eq_append_cons_of_mem ((mem_cons.1 mem).resolve_left ne)
  have known : ∀ l, (setIdom (fun _ => none) cfg.entry cfg.entry l).isSome → l ∈ [cfg.entry] := by
    intro l some_
    simp only [setIdom] at some_
    split at some_
    · exact mem_singleton.2 ‹_›
    · cases some_
  obtain ⟨p, pred, seen⟩ := sweep_preds hpreds known swept before b after (by rw [hrpo]; exact cut)
  have order : cfg.rpo = ([cfg.entry] ++ before) ++ b :: after := by rw [hrpo, cut]; simp
  have other : b ∉ [cfg.entry] ++ before := by simp [ne, first]
  refine ⟨p, order ▸ mem_append_left _ seen, blockPreds_edge labels pred, ?_⟩
  rw [order]
  exact idxOf_append_lt seen other

theorem rpo_reachable {bs : List Block} {cfg : Cfg} {parent : Idom} (labels : (bs.map (·.label)).Nodup)
    (built : funcCfg bs = some cfg) (tree : cfgIdoms cfg = some parent) (mem : b ∈ cfg.rpo) :
    Reachable (BlockEdge bs) cfg.entry b := by
  induction h : cfg.rpo.idxOf b using Nat.strong_induction_on generalizing b with
  | _ n ih =>
    by_cases start : b = cfg.entry
    · exact start ▸ .start
    · obtain ⟨p, mem_p, edge, lt⟩ := rpo_earlier labels built tree b mem start
      exact (ih _ (h ▸ lt) mem_p rfl).step edge

/-- A dominator of a reachable block is above it in the tree. -/
theorem cfgIdoms_closest {bs : List Block} {cfg : Cfg} {parent : Idom} (labels : (bs.map (·.label)).Nodup)
    (built : funcCfg bs = some cfg) (tree : cfgIdoms cfg = some parent) {a : Name}
    (dom : StrictDom (BlockEdge bs) cfg.entry a b) (above : Ancestor parent cfg.entry b) : Ancestor parent a b := by
  obtain ⟨_, _, hpreds, ⟨rest, hrpo⟩, _⟩ := funcCfg_spec built
  have ordered := ordered_of_preds (rpo_earlier labels built tree)
  simp only [cfgIdoms, bind_found, Option.pure_def,
    Option.some.injEq] at tree
  obtain ⟨idom, fixpoint, rfl⟩ := tree
  have start : Closest bs cfg.entry cfg.rpo (setIdom (fun _ => none) cfg.entry cfg.entry) := by
    intro l d up
    simp only [setIdom] at up
    split at up
    · cases up
      rename_i same
      subst same
      have mem : cfg.entry ∈ cfg.rpo := by rw [hrpo]; exact mem_cons_self
      exact ⟨mem, mem, .inl ⟨rfl, rfl⟩⟩
    · cases up
  have closest := idomFixpoint_closest hpreds labels ordered (fun l h => mem_of_mem_tail h) start fixpoint
  induction above with
  | self => exact absurd dom StrictDom.not_root
  | @child d b above up ih =>
    have up' := up
    split at up
    · cases up
    · rename_i ne
      obtain ⟨_, _, ⟨same, _⟩ | near⟩ := closest b d up
      · exact absurd same ne
      · rcases near a dom with rfl | strict
        · exact (Ancestor.self _).child up'
        · exact (ih strict).child up'

/-! ### Points -/

section
variable {bs : List Block}

end

end Nanofil
