import Mathlib.Data.List.Dedup
import Nanofil.Cfg
import Nanofil.Lib.Walks
import Nanofil.Lib.Results

/-! The tables of `cfg.pl` are what their names say: an interval inside another is
a node that every walk from the entry passes. -/
namespace Nanofil
open Results List Option Walks

/-- The edges of the control-flow graph, as the table of successors has them. -/
def BlockEdge (bs : List Block) (a b : Name) : Prop := b ∈ blockSuccs bs a

variable {l : Name} {bs : List Block} {n : Nat} {idom : Idom} {cfg : Cfg} {iv : Intervals}

theorem mem_sortNames {ls : List Name} : l ∈ sortNames ls ↔ l ∈ ls := by
  simp [sortNames, mem_insertionSort]

theorem mem_jumpSuccs {j : Jump} : l ∈ jumpSuccs j ↔ l ∈ jumpLabels j := by
  simp [jumpSuccs, mem_sortNames]

theorem mem_blockPreds {a b : Name} (edge : BlockEdge bs a b) : a ∈ blockPreds bs b := by
  unfold BlockEdge blockSuccs at edge
  split at edge
  · rename_i blk found
    have labelled : blk.label = a := by simpa using find?_some found
    simp only [blockPreds, mem_sortNames, List.mem_map, mem_filter, decide_eq_true_eq]
    exact ⟨blk, ⟨mem_of_find?_eq_some found, edge⟩, labelled⟩
  · simp at edge

/-! ### Reverse postorder -/

section Postorder
variable {succs : Name → List Name}

/-- Every label seen is in the order, or was seen before, and the order is closed. -/
structure Explored (succs : Name → List Name) (seen post seen' post' : List Name) : Prop where
  kept : ∀ l ∈ seen, l ∈ seen'
  keptPost : ∀ l ∈ post, l ∈ post'
  placed : ∀ l ∈ seen', l ∈ seen ∨ l ∈ post'
  closed : ∀ l ∈ post', l ∈ post ∨ ∀ l' ∈ succs l, l' ∈ seen'

theorem reversePostorder_explored : ∀ {ls seen post seen' post' : List Name},
    reversePostorder succs n ls seen post = some (seen', post') →
    Explored succs seen post seen' post' ∧ ∀ l ∈ ls, l ∈ seen' := by
  induction n with
  | zero =>
    intro ls seen post seen' post' done
    cases ls with
    | nil =>
      simp only [reversePostorder, Option.some.injEq, Prod.mk.injEq] at done
      obtain ⟨rfl, rfl⟩ := done
      exact ⟨⟨fun _ h => h, fun _ h => h, fun _ h => .inl h, fun _ h => .inl h⟩, by simp⟩
    | cons l ls => simp [reversePostorder] at done
  | succ n ih =>
    intro ls seen post seen' post' done
    cases ls with
    | nil =>
      simp only [reversePostorder, Option.some.injEq, Prod.mk.injEq] at done
      obtain ⟨rfl, rfl⟩ := done
      exact ⟨⟨fun _ h => h, fun _ h => h, fun _ h => .inl h, fun _ h => .inl h⟩, by simp⟩
    | cons l ls =>
      simp only [reversePostorder] at done
      split at done
      · rename_i already
        obtain ⟨explored, all⟩ := ih done
        refine ⟨explored, fun x h => ?_⟩
        rcases mem_cons.1 h with rfl | h
        · exact explored.kept _ already
        · exact all x h
      · simp only [bind_found] at done
        obtain ⟨r, below, rest⟩ := done
        obtain ⟨inner, innerAll⟩ := ih below
        obtain ⟨outer, outerAll⟩ := ih rest
        have here : l ∈ seen' := outer.kept _ (inner.kept _ mem_cons_self)
        refine ⟨⟨?_, ?_, ?_, ?_⟩, ?_⟩
        · exact fun x h => outer.kept x (inner.kept x (mem_cons_of_mem _ h))
        · exact fun x h => outer.keptPost x (mem_cons_of_mem _ (inner.keptPost x h))
        · intro x h
          rcases outer.placed x h with h | h
          · rcases inner.placed x h with h | h
            · rcases mem_cons.1 h with rfl | h
              · exact .inr (outer.keptPost _ mem_cons_self)
              · exact .inl h
            · exact .inr (outer.keptPost x (mem_cons_of_mem _ h))
          · exact .inr h
        · intro x h
          rcases outer.closed x h with h | h
          · rcases mem_cons.1 h with rfl | h
            · exact .inr (fun y hy => outer.kept y (innerAll y hy))
            · rcases inner.closed x h with h | h
              · exact .inl h
              · exact .inr (fun y hy => outer.kept y (h y hy))
          · exact .inr h
        · intro x h
          rcases mem_cons.1 h with rfl | h
          · exact here
          · exact outerAll x h

/-- From the entry alone, the order starts with it and holds all it reaches. -/
theorem reversePostorder_entry {entry : Name} {seen post : List Name}
    (done : reversePostorder succs (n + 1) [entry] [] [] = some (seen, post)) :
    (∃ rest, post = entry :: rest) ∧ ∀ l ∈ post, ∀ l' ∈ succs l, l' ∈ post := by
  obtain ⟨explored, _⟩ := reversePostorder_explored done
  constructor
  · simp only [reversePostorder, not_mem_nil, if_false, bind_eq_bind,
      bind_eq_some_iff] at done
    obtain ⟨r, _, rest⟩ := done
    simp only [Option.some.injEq, Prod.mk.injEq] at rest
    exact ⟨r.2, rest.2.symm⟩
  · intro l h l' next
    rcases explored.closed l h with h | h
    · simp at h
    · rcases explored.placed l' (h l' next) with h | h
      · simp at h
      · exact h

end Postorder

/-! ### The dominator tree -/

theorem commonDominator_ancestor {num : Name → Nat} : ∀ {a b d : Name},
    commonDominator num idom n a b = some d → Ancestor idom d a ∧ Ancestor idom d b := by
  induction n with
  | zero => intro a b d met; simp [commonDominator] at met
  | succ n ih =>
    intro a b d met
    simp only [commonDominator] at met
    split at met
    · rename_i same
      cases met
      exact ⟨.self _, same ▸ .self _⟩
    · split at met
      · simp only [bind_found] at met
        obtain ⟨a', up, met⟩ := met
        exact ⟨(ih met).1.child up, (ih met).2⟩
      · simp only [bind_found] at met
        obtain ⟨b', up, met⟩ := met
        exact ⟨(ih met).1, (ih met).2.child up⟩

theorem foldCommon_ancestor {num : Name → Nat} {others : List Name} :
    ∀ {first d : Name}, others.foldlM (fun a p => commonDominator num idom n p a) first = some d →
      Ancestor idom d first ∧ ∀ p ∈ others, Ancestor idom d p := by
  induction others with
  | nil =>
    intro first d met
    simp only [foldlM_nil, pure_found] at met
    exact ⟨met ▸ .self _, by simp⟩
  | cons p others ih =>
    intro first d met
    simp only [foldlM_cons, bind_found] at met
    obtain ⟨c, common, met⟩ := met
    have both := commonDominator_ancestor common
    obtain ⟨above, rest⟩ := ih met
    refine ⟨above.trans both.2, fun q h => ?_⟩
    rcases mem_cons.1 h with rfl | h
    · exact above.trans both.1
    · exact rest q h

theorem newIdom_ancestor {b d p : Name} (new : newIdom cfg idom b = some d)
    (pred : p ∈ cfg.preds b) (known : (idom p).isSome) : Ancestor idom d p := by
  have processed : p ∈ (cfg.preds b).filter (fun p => (idom p).isSome) := mem_filter.2 ⟨pred, known⟩
  unfold newIdom at new
  split at new
  · rename_i none
    rw [none] at processed
    simp at processed
  · rename_i first others some
    rw [some] at processed
    obtain ⟨above, rest⟩ := foldCommon_ancestor new
    rcases mem_cons.1 processed with rfl | h
    · exact above
    · exact rest p h

/-- A sweep that changes nothing found each label's table entry again. -/
theorem sweep_unchanged {labels : List Name} : ∀ {idom idom' : Idom} {changed : Bool},
    labels.foldlM (labelIdoms cfg) (idom, changed) = some (idom', false) →
    changed = false ∧ idom' = idom ∧ ∀ b ∈ labels, ∃ d, newIdom cfg idom b = some d ∧ idom b = some d := by
  induction labels with
  | nil =>
    intro idom idom' changed done
    simp only [foldlM_nil, pure_found, Prod.mk.injEq] at done
    exact ⟨done.2, done.1.symm, by simp⟩
  | cons b labels ih =>
    intro idom idom' changed done
    simp only [foldlM_cons, bind_found, labelIdoms,
      pure_found] at done
    obtain ⟨st, ⟨d, new, rfl⟩, done⟩ := done
    split at done
    · rename_i same
      obtain ⟨quiet, same', all⟩ := ih done
      refine ⟨quiet, same', fun x h => ?_⟩
      rcases mem_cons.1 h with rfl | h
      · exact ⟨d, new, same⟩
      · exact all x h
    · obtain ⟨quiet, _⟩ := ih done
      cases quiet

/-- What every sweep keeps: the entry is its own dominator, and only labels have one. -/
structure Rooted (cfg : Cfg) (labels : List Name) (idom : Idom) : Prop where
  entry : idom cfg.entry = some cfg.entry
  known : ∀ l d, idom l = some d → l = cfg.entry ∨ l ∈ labels

theorem sweep_rooted {all : List Name} (noPreds : cfg.preds cfg.entry = []) {labels : List Name} :
    ∀ {st st' : Idom × Bool}, (∀ l ∈ labels, l ∈ all) → Rooted cfg all st.1 →
      labels.foldlM (labelIdoms cfg) st = some st' → Rooted cfg all st'.1 := by
  induction labels with
  | nil =>
    intro st st' _ rooted done
    simp only [foldlM_nil, pure_found] at done
    exact done ▸ rooted
  | cons b labels ih =>
    intro st st' sub rooted done
    simp only [foldlM_cons, bind_found, labelIdoms,
      pure_found] at done
    obtain ⟨st1, ⟨d, new, rfl⟩, done⟩ := done
    refine ih (fun l h => sub l (mem_cons_of_mem _ h)) ?_ done
    split
    · exact rooted
    · have other : b ≠ cfg.entry := by
        rintro rfl
        simp [newIdom, noPreds] at new
      refine ⟨?_, fun l d' h => ?_⟩
      · simpa [setIdom, other.symm] using rooted.entry
      · by_cases same : l = b
        · exact .inr (same ▸ sub b mem_cons_self)
        · exact rooted.known l d' (by simpa [setIdom, same] using h)

theorem idomFixpoint_spec {labels : List Name} (noPreds : cfg.preds cfg.entry = []) :
    ∀ {idom idom' : Idom}, Rooted cfg labels idom → idomFixpoint cfg labels n idom = some idom' →
      Rooted cfg labels idom' ∧
        ∀ b ∈ labels, ∃ d, newIdom cfg idom' b = some d ∧ idom' b = some d := by
  induction n with
  | zero => intro idom idom' _ done; simp [idomFixpoint] at done
  | succ n ih =>
    intro idom idom' rooted done
    simp only [idomFixpoint, bind_found] at done
    obtain ⟨r, swept, done⟩ := done
    have rooted' := sweep_rooted noPreds (fun _ h => h) rooted swept
    split at done
    · exact ih rooted' done
    · rename_i quiet
      cases done
      have swept' : labels.foldlM (labelIdoms cfg) (idom, false) = some (r.1, false) := by
        rw [swept, ← Bool.eq_false_of_not_eq_true quiet]
      obtain ⟨_, same, all⟩ := sweep_unchanged swept'
      exact ⟨rooted', same ▸ all⟩

/-- What `cfg_idoms/2` tells of the graph: each label but the entry has a parent,
which is an ancestor of every reachable predecessor. -/
structure DomTree (edge : Name → Name → Prop) (entry : Name) (parent : Idom) : Prop where
  root : parent entry = none
  hasParent : ∀ a b, Reachable edge entry a → edge a b → (parent b).isSome
  common : ∀ a b, Reachable edge entry a → edge a b → ∀ d, parent b = some d → Ancestor parent d a

theorem Rooted.ancestor {labels : List Name} (rooted : Rooted cfg labels idom) {d a : Name} (above : Ancestor idom d a) :
    Ancestor (fun l => if l = cfg.entry then none else idom l) d a := by
  induction above with
  | self => exact .self _
  | @child b c _ up ih =>
    by_cases entry : c = cfg.entry
    · subst entry
      rw [rooted.entry] at up
      cases up
      exact ih
    · exact ih.child (by simpa [entry] using up)

theorem reachable_mem {edge : Name → Name → Prop} {entry : Name} {ls : List Name} (start : entry ∈ ls)
    (closed : ∀ a ∈ ls, ∀ b, edge a b → b ∈ ls) (reached : Reachable edge entry l) : l ∈ ls := by
  obtain ⟨p, walk⟩ := reached
  exact walk.induct start (fun a b h next => closed a h b next)

/-- All that the entry reaches is in its tree. -/
theorem DomTree.reachable {edge : Name → Name → Prop} {entry : Name} {parent : Idom}
    (tree : DomTree edge entry parent) (reached : Reachable edge entry l) :
    Ancestor parent entry l := by
  obtain ⟨p, walk⟩ := reached
  induction walk with
  | start => exact .self _
  | @step p a b walk next ih =>
    obtain ⟨d, up⟩ := isSome_iff_exists.1 (tree.hasParent a b walk.reachable next)
    exact (Ancestor.linear tree.root (tree.common a b walk.reachable next d up) ih).child up

/-! ### Preorder intervals -/

/-- An interval holds the numbers of its label's descendants, all below `next`. -/
structure Numbered (parent : Idom) (iv : Intervals) (next : Nat) : Prop where
  below : ∀ l p q, iv l = some (p, q) → p ≤ q ∧ q < next
  inside : ∀ a b pa qa pb qb, iv a = some (pa, qa) → iv b = some (pb, qb) → pa ≤ pb → pb ≤ qa →
    Ancestor parent a b

/-- What the walk of a subtree changes: only descendants, numbered from `pre` on. -/
def Renumbered (parent : Idom) (l : Name) (pre : Nat) (iv iv' : Intervals) : Prop :=
  ∀ x, iv' x = iv x ∨ ∃ p q, iv' x = some (p, q) ∧ pre ≤ p ∧ Ancestor parent l x

theorem Renumbered.trans {parent : Idom} {pre pre' : Nat} {iv' iv'' : Intervals}
    (first : Renumbered parent l pre iv iv') (second : Renumbered parent l pre' iv' iv'') (le : pre ≤ pre') :
    Renumbered parent l pre iv iv'' := by
  intro x
  rcases second x with h | ⟨p, q, h, le', anc⟩
  · rw [h]
    exact first x
  · exact .inr ⟨p, q, h, by omega, anc⟩

section Subtrees
variable {parent : Idom} {kids : Name → List Name}

/-- The walk of one label's subtree: what it is sure to number, and how. -/
structure Walked (parent : Idom) (l : Name) (pre : Nat) (iv : Intervals) (r : Nat × Intervals) : Prop where
  later : pre < r.1
  numbered : Numbered parent r.2 r.1
  changed : Renumbered parent l pre iv r.2
  kept : ∀ x, (iv x).isSome → (r.2 x).isSome
  all : ∀ x, Ancestor parent l x → (r.2 x).isSome

/-- The children of `l` one after the other. -/
theorem kids_walked {f : Name → Nat → Intervals → Option (Nat × Intervals)} {ks : List Name}
    (walked : ∀ k ∈ ks, ∀ pre iv r, Numbered parent iv pre → f k pre iv = some r → Walked parent k pre iv r)
    (child : ∀ k ∈ ks, parent k = some l) : ∀ {acc r : Nat × Intervals}, Numbered parent acc.2 acc.1 →
      ks.foldlM (fun acc k => f k acc.1 acc.2) acc = some r →
      acc.1 ≤ r.1 ∧ Numbered parent r.2 r.1 ∧ Renumbered parent l acc.1 acc.2 r.2 ∧
        (∀ x, (acc.2 x).isSome → (r.2 x).isSome) ∧
        ∀ k ∈ ks, ∀ x, Ancestor parent k x → (r.2 x).isSome := by
  induction ks with
  | nil =>
    intro acc r numbered done
    simp only [foldlM_nil, pure_found] at done
    subst done
    exact ⟨Nat.le_refl _, numbered, fun x => .inl rfl, fun x h => h, by simp⟩
  | cons k ks ih =>
    intro acc r numbered done
    simp only [foldlM_cons, bind_found] at done
    obtain ⟨acc', first, done⟩ := done
    have w := walked k mem_cons_self acc.1 acc.2 acc' numbered first
    obtain ⟨le, numbered', changed, kept, all⟩ :=
      ih (fun k' h => walked k' (mem_cons_of_mem _ h)) (fun k' h => child k' (mem_cons_of_mem _ h))
        w.numbered done
    have below : Renumbered parent l acc.1 acc.2 acc'.2 := by
      intro x
      rcases w.changed x with h | ⟨p, q, h, le, anc⟩
      · exact .inl h
      · exact .inr ⟨p, q, h, le, ((Ancestor.self l).child (child k mem_cons_self)).trans anc⟩
    refine ⟨by have := w.later; omega, numbered', below.trans changed (by have := w.later; omega),
      fun x h => kept x (w.kept x h), fun k' h x anc => ?_⟩
    rcases mem_cons.1 h with rfl | h
    · exact kept x (w.all x anc)
    · exact all k' h x anc

/-- The label itself takes the numbers from `pre` to the last of its subtree. -/
theorem numbered_self {pre : Nat} {r : Nat × Intervals}
    (before : Numbered parent iv pre) (le : pre + 1 ≤ r.1) (numbered : Numbered parent r.2 r.1)
    (changed : Renumbered parent l (pre + 1) iv r.2) :
    Numbered parent (setInterval r.2 l (pre, r.1 - 1)) r.1 := by
  constructor
  · intro x p q h
    simp only [setInterval] at h
    split at h
    · cases h; omega
    · exact numbered.below x p q h
  · intro a b pa qa pb qb ha hb le1 le2
    simp only [setInterval] at ha hb
    split at ha <;> split at hb
    · rename_i sameA sameB
      rw [sameA, sameB]
      exact .self _
    · rename_i sameA _
      rw [sameA]
      cases ha
      rcases changed b with h | ⟨p, q, _, _, anc⟩
      · rw [h] at hb
        have := before.below b pb qb hb
        omega
      · exact anc
    · rename_i _ sameB
      cases hb
      rcases changed a with h | ⟨p, q, h, lower, _⟩
      · rw [h] at ha
        have := before.below a pa qa ha
        omega
      · rw [h] at ha
        cases ha
        omega
    · exact numbered.inside a b pa qa pb qb ha hb le1 le2

theorem subtreeIntervals_walked (children : ∀ l k, k ∈ kids l ↔ parent k = some l) :
    ∀ {l : Name} {pre : Nat} {iv : Intervals} {r : Nat × Intervals}, Numbered parent iv pre →
      subtreeIntervals kids n l pre iv = some r → Walked parent l pre iv r := by
  induction n with
  | zero => intro l pre iv r _ done; simp [subtreeIntervals] at done
  | succ n ih =>
    intro l pre iv r before done
    simp only [subtreeIntervals, bind_found, Option.pure_def,
      Option.some.injEq] at done
    obtain ⟨r', done, rfl⟩ := done
    have before' : Numbered parent iv (pre + 1) :=
      ⟨fun x p q h => ⟨(before.below x p q h).1, Nat.lt_succ_of_lt (before.below x p q h).2⟩, before.inside⟩
    obtain ⟨le, numbered, changed, kept, all⟩ :=
      kids_walked (fun k _ pre iv r h done => ih h done) (fun k h => (children l k).1 h) before' done
    refine ⟨le, numbered_self before le numbered changed, fun x => ?_, fun x h => ?_, fun x anc => ?_⟩
    · simp only [setInterval]
      split
      · rename_i same
        exact .inr ⟨pre, r'.1 - 1, rfl, Nat.le_refl _, same ▸ .self _⟩
      · rcases changed x with h | ⟨p, q, h, le, anc⟩
        · exact .inl h
        · exact .inr ⟨p, q, h, by omega, anc⟩
    · simp only [setInterval]
      split
      · rfl
      · exact kept x h
    · simp only [setInterval]
      split
      · rfl
      · rename_i other
        rcases anc.head with same | ⟨k, first, anc⟩
        · exact absurd same.symm other
        · exact all k ((children l k).2 first) x anc

end Subtrees

/-! ### The tables of a function's blocks -/

def blocksEntry (bs : List Block) : Name := (bs.head?.map (·.label)).getD ""

/-- What the validator may conclude from a function's intervals. -/
structure DomTable (bs : List Block) (iv : Intervals) : Prop where
  known : ∀ l, Reachable (BlockEdge bs) (blocksEntry bs) l → (iv l).isSome
  sound : ∀ a b, dominatesByInterval iv a b = true → a ≠ b →
    StrictDom (BlockEdge bs) (blocksEntry bs) a b

theorem funcCfg_spec (built : funcCfg bs = some cfg) :
    cfg.entry = blocksEntry bs ∧ cfg.succs = blockSuccs bs ∧ cfg.preds = blockPreds bs ∧
      (∃ rest, cfg.rpo = cfg.entry :: rest) ∧ ∀ l ∈ cfg.rpo, ∀ l' ∈ blockSuccs bs l, l' ∈ cfg.rpo := by
  unfold funcCfg at built
  split at built
  · cases built
  · rename_i entry bs'
    split at built
    · simp only [bind_found, pure_found] at built
      obtain ⟨r, done, rfl⟩ := built
      exact ⟨rfl, rfl, rfl, reversePostorder_entry done⟩
    · cases built

theorem cfgIdoms_tree {parent : Idom} (built : funcCfg bs = some cfg)
    (noPreds : blockPreds bs (blocksEntry bs) = []) (tree : cfgIdoms cfg = some parent) :
    DomTree (BlockEdge bs) cfg.entry parent ∧ ∀ l d, parent l = some d → l ∈ cfg.rpo := by
  obtain ⟨hentry, _, hpreds, ⟨rest, hrpo⟩, closed⟩ := funcCfg_spec built
  have noPreds' : cfg.preds cfg.entry = [] := by rw [hpreds, hentry]; exact noPreds
  simp only [cfgIdoms, bind_found, Option.pure_def,
    Option.some.injEq] at tree
  obtain ⟨idom, fixpoint, rfl⟩ := tree
  have rooted : Rooted cfg cfg.rpo.tail (setIdom (fun _ => none) cfg.entry cfg.entry) := by
    refine ⟨by simp [setIdom], fun l d h => ?_⟩
    simp only [setIdom] at h
    split at h
    · exact .inl ‹_›
    · cases h
  obtain ⟨rooted', stable⟩ := idomFixpoint_spec noPreds' rooted fixpoint
  have notEntry : ∀ a b, BlockEdge bs a b → b ≠ cfg.entry := by
    rintro a b edge rfl
    have pred := mem_blockPreds edge
    rw [hentry, noPreds] at pred
    simp at pred
  have inOrder : ∀ l, Reachable (BlockEdge bs) cfg.entry l → l ∈ cfg.rpo := fun l reached =>
    reachable_mem (by rw [hrpo]; exact mem_cons_self) (fun a h b next => closed a h b next) reached
  have inTail : ∀ l, l ∈ cfg.rpo → l ≠ cfg.entry → l ∈ cfg.rpo.tail := by
    intro l h ne
    rw [hrpo] at h ⊢
    exact (mem_cons.1 h).resolve_left ne
  have known : ∀ l, Reachable (BlockEdge bs) cfg.entry l → (idom l).isSome := by
    intro l reached
    by_cases entry : l = cfg.entry
    · rw [entry, rooted'.entry]; rfl
    · obtain ⟨d, _, h⟩ := stable l (inTail l (inOrder l reached) entry)
      rw [h]; rfl
  refine ⟨⟨by simp, fun a b reached edge => ?_, fun a b reached edge d up => ?_⟩, fun l d up => ?_⟩
  · simp only [if_neg (notEntry a b edge)]
    exact known b (reached.step edge)
  · simp only [if_neg (notEntry a b edge)] at up
    obtain ⟨d', new, h⟩ := stable b (inTail b (inOrder b (reached.step edge)) (notEntry a b edge))
    rw [h] at up
    cases up
    exact rooted'.ancestor (newIdom_ancestor new (hpreds ▸ mem_blockPreds edge) (known a reached))
  · dsimp only at up
    split at up
    · cases up
    · rcases rooted'.known l d up with h | h
      · contradiction
      · exact mem_of_mem_tail h

theorem domChildren_parent {parent : Idom} (inOrder : ∀ l d, parent l = some d → l ∈ cfg.rpo) (l k : Name) :
    k ∈ domChildren cfg parent l ↔ parent k = some l := by
  simp only [domChildren, mem_filter, decide_eq_true_eq]
  exact ⟨fun h => h.2, fun h => ⟨inOrder k l h, h⟩⟩

/-- The intervals that the validator compares speak of every walk from the entry. -/
theorem blockIntervals_table (built : blockIntervals bs = some iv)
    (noPreds : blockPreds bs (blocksEntry bs) = []) : DomTable bs iv := by
  simp only [blockIntervals, bind_found] at built
  obtain ⟨cfg, hcfg, parent, hidom, hiv⟩ := built
  obtain ⟨tree, inOrder⟩ := cfgIdoms_tree hcfg noPreds hidom
  have hentry := (funcCfg_spec hcfg).1
  simp only [domIntervals, bind_found, Option.pure_def,
    Option.some.injEq] at hiv
  obtain ⟨r, done, rfl⟩ := hiv
  have walked := subtreeIntervals_walked (domChildren_parent inOrder) ⟨by simp, by simp⟩ done
  rw [hentry] at walked tree
  refine ⟨fun l reached => walked.all l (tree.reachable reached), fun a b inside ne => ?_⟩
  unfold dominatesByInterval at inside
  split at inside
  · rename_i pa qa pb qb ha hb
    simp only [decide_eq_true_eq] at inside
    exact (walked.numbered.inside a b pa qa pb qb ha hb inside.1 inside.2).strictDom tree.root tree.common ne
  · cases inside

end Nanofil
