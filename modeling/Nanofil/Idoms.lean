import Mathlib.Algebra.Order.BigOperators.Group.List
import Mathlib.Data.Finset.Card
import Nanofil.Dominators
import Nanofil.Lib.Results

/-! The dominators of `cfg.pl` on every graph: the order, the sweeps over it and the numbering
of the tree end, each sweep only raises what the table has, and where no sweep changes it the
table is the tree of immediate dominators. -/
namespace Nanofil
open Results List Option Walks

/-! ### Reverse postorder -/

variable {n : Nat} {a b d : Name}

section Postorder
variable {succs : Name → List Name}

/-- The walk ends: each label is expanded once. -/
theorem reversePostorder_ends {labels : List Name} (closed : ∀ l ∈ labels, ∀ l' ∈ succs l, l' ∈ labels)
    (few : ∀ l, (succs l).length ≤ 2) : ∀ {ls seen post : List Name}, (∀ l ∈ ls, l ∈ labels) →
      ls.length + 3 * (labels.toFinset \ seen.toFinset).card ≤ n → ∃ r, reversePostorder succs n ls seen post = some r := by
  induction n with
  | zero =>
    intro ls seen post sub enough
    cases ls with
    | nil => exact ⟨_, rfl⟩
    | cons l ls => simp at enough
  | succ n ih =>
    intro ls seen post sub enough
    cases ls with
    | nil => exact ⟨_, rfl⟩
    | cons l ls =>
      have subs : ∀ x ∈ ls, x ∈ labels := fun x h => sub x (mem_cons_of_mem _ h)
      simp only [length_cons] at enough
      simp only [reversePostorder]
      split
      · exact ih subs (by omega)
      · rename_i new
        have here := sub l mem_cons_self
        have fewer : (labels.toFinset \ (l :: seen).toFinset).card < (labels.toFinset \ seen.toFinset).card := by
          refine Finset.card_lt_card ⟨fun x h => ?_, fun h => ?_⟩
          · simp only [toFinset_cons, Finset.mem_sdiff, List.mem_toFinset, Finset.mem_insert, not_or] at h ⊢
            exact ⟨h.1, h.2.2⟩
          · have old : l ∈ labels.toFinset \ seen.toFinset := by simp [here, new]
            have := h old
            simp at this
        obtain ⟨r, below⟩ : ∃ r, reversePostorder succs n (succs l) (l :: seen) post = some r :=
          ih (closed l here) (by have := few l; omega)
        obtain ⟨explored, -⟩ := reversePostorder_explored below
        have le : (labels.toFinset \ r.1.toFinset).card ≤ (labels.toFinset \ (l :: seen).toFinset).card := by
          refine Finset.card_le_card fun x h => ?_
          simp only [Finset.mem_sdiff, List.mem_toFinset] at h ⊢
          exact ⟨h.1, fun m => h.2 (explored.kept x m)⟩
        obtain ⟨r', rest⟩ : ∃ r', reversePostorder succs n ls r.1 (l :: r.2) = some r' := ih subs (by omega)
        exact ⟨r', by simp only [below, bind_eq_bind, bind_some, rest]⟩

/-- What a walk puts before the order: labels not seen before it, each the walk's own or past a predecessor. -/
structure Prepended (succs : Name → List Name) (ls seen seen' new : List Name) : Prop where
  nodup : new.Nodup
  fresh : ∀ x ∈ new, x ∉ seen
  reached : ∀ x ∈ new, x ∈ seen'
  past : ∀ x ∈ new, x ∈ ls ∨ ∃ a p c, new = a ++ p :: c ∧ x ∈ c ∧ x ∈ succs p

theorem reversePostorder_placed : ∀ {ls seen post seen' post' : List Name},
    reversePostorder succs n ls seen post = some (seen', post') → ∃ new, post' = new ++ post ∧ Prepended succs ls seen seen' new := by
  have nothing : ∀ {ls seen : List Name}, Prepended succs ls seen seen [] :=
    ⟨nodup_nil, (fun _ h => by cases h), (fun _ h => by cases h), fun _ h => by cases h⟩
  induction n with
  | zero =>
    intro ls seen post seen' post' done
    cases ls with
    | nil =>
      cases done
      exact ⟨[], rfl, nothing⟩
    | cons l ls => cases done
  | succ n ih =>
    intro ls seen post seen' post' done
    cases ls with
    | nil =>
      cases done
      exact ⟨[], rfl, nothing⟩
    | cons l ls =>
      simp only [reversePostorder] at done
      split at done
      · obtain ⟨new, rfl, placed⟩ := ih done
        exact ⟨new, rfl, placed.nodup, placed.fresh, placed.reached, fun x h => (placed.past x h).imp_left (mem_cons_of_mem _)⟩
      · rename_i unseen
        simp only [bind_found] at done
        obtain ⟨r, below, rest⟩ := done
        obtain ⟨new1, same1, inner⟩ := ih below
        obtain ⟨new2, rfl, outer⟩ := ih rest
        have kept := (reversePostorder_explored below).1.kept
        have later := (reversePostorder_explored rest).1.kept
        refine ⟨new2 ++ l :: new1, by rw [same1]; simp, ?_, ?_, ?_, ?_⟩
        · refine nodup_append.2 ⟨outer.nodup, nodup_cons.2 ⟨fun h => inner.fresh l h mem_cons_self, inner.nodup⟩, ?_⟩
          rintro x h y h' rfl
          rcases mem_cons.1 h' with rfl | h'
          · exact outer.fresh x h (kept x mem_cons_self)
          · exact outer.fresh x h (inner.reached x h')
        · intro x h seen_x
          rcases mem_append.1 h with h | h
          · exact outer.fresh x h (kept x (mem_cons_of_mem _ seen_x))
          · rcases mem_cons.1 h with rfl | h
            · exact unseen seen_x
            · exact inner.fresh x h (mem_cons_of_mem _ seen_x)
        · intro x h
          rcases mem_append.1 h with h | h
          · exact outer.reached x h
          · rcases mem_cons.1 h with rfl | h
            · exact later x (kept x mem_cons_self)
            · exact later x (inner.reached x h)
        · intro x h
          rcases mem_append.1 h with h | h
          · rcases outer.past x h with first | ⟨a, p, c, rfl, after, edge⟩
            · exact .inl (mem_cons_of_mem _ first)
            · exact .inr ⟨a, p, c ++ l :: new1, by simp, mem_append_left _ after, edge⟩
          · rcases mem_cons.1 h with rfl | h
            · exact .inl mem_cons_self
            · rcases inner.past x h with edge | ⟨a, p, c, rfl, after, edge⟩
              · exact .inr ⟨new2, l, new1, rfl, h, edge⟩
              · exact .inr ⟨new2 ++ l :: a, p, c, by simp, after, edge⟩

end Postorder

theorem jumpSuccs_few (j : Jump) : (jumpSuccs j).length ≤ 2 := by
  have le : (jumpSuccs j).length ≤ (jumpLabels j).length := by
    simp only [jumpSuccs, sortNames, length_insertionSort]
    exact (dedup_sublist _).length_le
  refine le.trans ?_
  cases j <;> simp [jumpLabels, jumpTargets]

theorem blockSuccs_few (bs : List Block) (l : Name) : (blockSuccs bs l).length ≤ 2 := by
  unfold blockSuccs
  split
  · exact jumpSuccs_few _
  · simp

theorem succs_exist {bs : List Block} (exist : labelsExist bs = true) {l s : Name} (next : s ∈ blockSuccs bs l) : s ∈ bs.map (·.label) := by
  unfold blockSuccs at next
  split at next
  · rename_i b found
    have jumps := List.all_eq_true.1 (List.all_eq_true.1 exist b (mem_of_find?_eq_some found)) s (mem_jumpSuccs.1 next)
    obtain ⟨b', mem, named⟩ := List.any_eq_true.1 jumps
    exact List.mem_map.2 ⟨b', mem, by simpa using named⟩
  · cases next

/-- A function whose jumps name blocks has a graph. -/
theorem funcCfg_ends {bs : List Block} (some_ : bs ≠ []) (exist : labelsExist bs = true) : ∃ cfg, funcCfg bs = some cfg := by
  obtain ⟨entry, rest, rfl⟩ := exists_cons_of_ne_nil some_
  obtain ⟨r, done⟩ : ∃ r, reversePostorder (blockSuccs (entry :: rest)) (3 * (entry :: rest).length + 2) [entry.label] [] [] = some r := by
    refine reversePostorder_ends (fun _ _ _ next => succs_exist exist next) (blockSuccs_few _) (fun l h => ?_) ?_
    · rw [mem_singleton.1 h]
      exact List.mem_map.2 ⟨entry, mem_cons_self, rfl⟩
    · have le := toFinset_card_le ((entry :: rest).map (·.label))
      simp only [length_map] at le
      simp only [toFinset_nil, Finset.sdiff_empty, length_singleton]
      omega
  simp only [funcCfg, exist, if_true, done, bind_eq_bind, bind_some, Option.pure_def]
  exact ⟨_, rfl⟩

/-! ### The sweeps -/

def Cfg.num (cfg : Cfg) (l : Name) : Nat := cfg.rpo.idxOf l

/-- The order of a graph: it starts with the entry, and each other label comes after a predecessor, `up`. -/
structure Order (cfg : Cfg) (up : Name → Name) : Prop where
  nodup : cfg.rpo.Nodup
  first : ∃ rest, cfg.rpo = cfg.entry :: rest
  earlier : ∀ b ∈ cfg.rpo, b ≠ cfg.entry → up b ∈ cfg.rpo ∧ up b ∈ cfg.preds b ∧ cfg.num (up b) < cfg.num b

theorem funcCfg_order {bs : List Block} {cfg : Cfg} (built : funcCfg bs = some cfg) : ∃ up, Order cfg up := by
  obtain ⟨hentry, hsuccs, hpreds, first, _⟩ := funcCfg_spec built
  have placed : ∃ seen, Prepended (blockSuccs bs) [cfg.entry] [] seen cfg.rpo := by
    unfold funcCfg at built
    split at built
    · cases built
    · split at built
      · simp only [bind_found, pure_found] at built
        obtain ⟨r, done, rfl⟩ := built
        obtain ⟨new, same, placed⟩ := reversePostorder_placed (show _ = some (r.1, r.2) from done)
        rw [append_nil] at same
        exact ⟨r.1, same ▸ placed⟩
      · cases built
  obtain ⟨seen, placed⟩ := placed
  have earlier : ∀ b, ∃ p, b ∈ cfg.rpo → b ≠ cfg.entry → p ∈ cfg.rpo ∧ p ∈ cfg.preds b ∧ cfg.num p < cfg.num b := by
    intro b
    by_cases mem : b ∈ cfg.rpo
    · rcases placed.past b mem with same | ⟨a, p, c, cut, after, edge⟩
      · exact ⟨b, fun _ ne => absurd (mem_singleton.1 same) ne⟩
      · obtain ⟨c1, c2, rfl⟩ := append_of_mem after
        have order : cfg.rpo = (a ++ p :: c1) ++ b :: c2 := by rw [cut]; simp
        have other : b ∉ a ++ p :: c1 := by
          intro h
          have nodup := placed.nodup
          rw [order] at nodup
          exact (nodup_append.1 nodup).2.2 b h b mem_cons_self rfl
        refine ⟨p, fun _ _ => ⟨by rw [cut]; simp, hpreds ▸ mem_blockPreds edge, ?_⟩⟩
        unfold Cfg.num
        rw [order]
        exact idxOf_append_lt (by simp) other
    · exact ⟨b, fun h => absurd h mem⟩
  choose up past using earlier
  exact ⟨up, placed.nodup, first, past⟩

/-- The tree of the predecessors that come before. -/
def aboveOf (cfg : Cfg) (up : Name → Name) : Idom := fun b => if b ∈ cfg.rpo ∧ b ≠ cfg.entry then some (up b) else none

/-- What a table is where a sweep has come to the label numbered `i`. -/
structure Swept (cfg : Cfg) (up : Name → Name) (i : Nat) (idom : Idom) : Prop where
  entry : idom cfg.entry = some cfg.entry
  known : ∀ b d, idom b = some d → b ∈ cfg.rpo ∧ (idom d).isSome
  all : ∀ b ∈ cfg.rpo, cfg.num b < i → (idom b).isSome
  tree : ∀ b d, idom b = some d → b ≠ cfg.entry → Ancestor (aboveOf cfg up) d (up b)
  highest : ∀ b d x, idom b = some d → b ≠ cfg.entry → (∀ p ∈ cfg.preds b, (idom p).isSome → Ancestor idom x p) → cfg.num x ≤ cfg.num d
  follows : ∀ b ∈ cfg.rpo, cfg.num b < i → b ≠ cfg.entry → ∀ x, Ancestor idom x b → x = b ∨ Ancestor idom x (up b)

section Sweeps
variable {cfg : Cfg} {up : Name → Name} (order : Order cfg up)
include order

theorem Order.num_entry : cfg.num cfg.entry = 0 := by
  obtain ⟨rest, first⟩ := order.first
  simp [Cfg.num, first]

theorem Order.entry_mem : cfg.entry ∈ cfg.rpo := by
  obtain ⟨rest, first⟩ := order.first
  rw [first]
  exact mem_cons_self

theorem Order.mem_tail : b ∈ cfg.rpo.tail ↔ b ∈ cfg.rpo ∧ b ≠ cfg.entry := by
  obtain ⟨rest, first⟩ := order.first
  have nodup := order.nodup
  rw [first] at nodup ⊢
  rw [tail_cons, mem_cons]
  constructor
  · exact fun h => ⟨.inr h, fun same => (nodup_cons.1 nodup).1 (same ▸ h)⟩
  · exact fun h => h.1.resolve_left h.2

omit order in
theorem num_inj (mem : a ∈ cfg.rpo) (same : cfg.num a = cfg.num b) : a = b := (idxOf_inj mem).1 same

theorem Order.above_le (above : Ancestor (aboveOf cfg up) a b) : cfg.num a ≤ cfg.num b := by
  induction above with
  | self => exact le_rfl
  | @child y c _ step ih =>
    unfold aboveOf at step
    split at step
    · rename_i inside
      cases step
      exact ih.trans (order.earlier c inside.1 inside.2).2.2.le
    · cases step

variable {i : Nat} {idom : Idom} (swept : Swept cfg up i idom)
include swept

theorem Swept.parent_lt (parent : idom b = some d) (ne : b ≠ cfg.entry) : cfg.num d < cfg.num b :=
  lt_of_le_of_lt (order.above_le (swept.tree b d parent ne)) (order.earlier b (swept.known b d parent).1 ne).2.2

theorem Swept.parent_le (parent : idom b = some d) : cfg.num d ≤ cfg.num b := by
  by_cases start : b = cfg.entry
  · subst start
    rw [swept.entry] at parent
    cases parent
    exact le_rfl
  · exact (swept.parent_lt order parent start).le

variable {v x : Name}

omit order in
theorem Swept.above (anc : Ancestor idom x v) : Ancestor (aboveOf cfg up) x v := by
  induction anc with
  | self => exact .self _
  | @child y c _ parent ih =>
    by_cases start : c = cfg.entry
    · subst start
      rw [swept.entry] at parent
      cases parent
      exact ih
    · have step : aboveOf cfg up c = some (up c) := if_pos ⟨(swept.known c y parent).1, start⟩
      exact (ih.trans (swept.tree c y parent start)).child step

theorem Swept.num_le (anc : Ancestor idom x v) : cfg.num x ≤ cfg.num v := order.above_le (swept.above anc)

omit order in
theorem Swept.mem (known : (idom v).isSome) : v ∈ cfg.rpo := by
  obtain ⟨d, parent⟩ := isSome_iff_exists.1 known
  exact (swept.known v d parent).1

/-- Two labels of the table meet, below all that is above both. -/
theorem Swept.common : ∀ {a b : Name}, (idom a).isSome → (idom b).isSome → cfg.num a + cfg.num b < n →
    ∃ d, commonDominator cfg.num idom n a b = some d ∧ (idom d).isSome ∧
      ∀ x, Ancestor idom x a → Ancestor idom x b → Ancestor idom x d := by
  induction n with
  | zero => intro a b _ _ fuel; omega
  | succ n ih =>
    intro a b knownA knownB fuel
    have climb : ∀ {u v : Name}, (idom u).isSome → cfg.num v < cfg.num u → ∃ u', idom u = some u' ∧ (idom u').isSome ∧
        cfg.num u' < cfg.num u ∧ ∀ x, Ancestor idom x u → Ancestor idom x v → Ancestor idom x u' := by
      intro u v known late
      obtain ⟨u', parent⟩ := isSome_iff_exists.1 known
      have ne : u ≠ cfg.entry := by
        rintro rfl
        rw [order.num_entry] at late
        omega
      refine ⟨u', parent, (swept.known u u' parent).2, swept.parent_lt order parent ne, fun x ancU ancV => ?_⟩
      cases ancU with
      | self => exact absurd (swept.num_le order ancV) (by omega)
      | child anc parent' =>
        rw [parent] at parent'
        cases parent'
        exact anc
    simp only [commonDominator]
    split
    · rename_i same
      subst same
      exact ⟨a, rfl, knownA, fun x anc _ => anc⟩
    · rename_i ne
      split
      · rename_i late
        obtain ⟨a', parent, known, less, below⟩ := climb (v := b) knownA late
        obtain ⟨d, met, knownD, all⟩ := ih known knownB (by omega)
        exact ⟨d, by rw [parent]; exact met, knownD, fun x ancA ancB => all x (below x ancA ancB) ancB⟩
      · rename_i early
        have late : cfg.num a < cfg.num b :=
          lt_of_le_of_ne (by omega) fun same => ne (num_inj (swept.mem knownA) same)
        obtain ⟨b', parent, known, less, below⟩ := climb (v := a) knownB late
        obtain ⟨d, met, knownD, all⟩ := ih knownA known (by omega)
        exact ⟨d, by rw [parent]; exact met, knownD, fun x ancA ancB => all x ancA (below x ancB ancA)⟩

theorem Swept.folded {others : List Name} : ∀ {first : Name}, (∀ p ∈ first :: others, (idom p).isSome) →
    ∃ d, others.foldlM (fun a p => commonDominator cfg.num idom (2 * cfg.rpo.length + 2) p a) first = some d ∧ (idom d).isSome ∧
      ∀ x, (∀ p ∈ first :: others, Ancestor idom x p) → Ancestor idom x d := by
  induction others with
  | nil => exact fun {first} known => ⟨first, rfl, known first mem_cons_self, fun x all => all first mem_cons_self⟩
  | cons p others ih =>
    intro first known
    have next : p ∈ first :: p :: others := mem_cons_of_mem _ mem_cons_self
    have inside : ∀ q ∈ first :: p :: others, cfg.num q < cfg.rpo.length := fun q h => idxOf_lt_length_of_mem (swept.mem (known q h))
    obtain ⟨c, met, knownC, below⟩ : ∃ c, commonDominator cfg.num idom (2 * cfg.rpo.length + 2) p first = some c ∧ (idom c).isSome ∧
        ∀ x, Ancestor idom x p → Ancestor idom x first → Ancestor idom x c := by
      refine swept.common order (known p next) (known first mem_cons_self) ?_
      have := inside p next
      have := inside first mem_cons_self
      omega
    have rest : ∀ {P : Name → Prop}, P c → (∀ q ∈ first :: p :: others, P q) → ∀ q ∈ c :: others, P q := by
      intro P here all q h
      rcases mem_cons.1 h with rfl | h
      · exact here
      · exact all q (mem_cons_of_mem _ (mem_cons_of_mem _ h))
    obtain ⟨d, done, knownD, all⟩ := ih (rest knownC known)
    refine ⟨d, ?_, knownD, fun x anc => all x (rest (below x (anc p next) (anc first mem_cons_self)) anc)⟩
    rw [foldlM_cons, met]
    exact done

/-- A label past a label of the table has a new entry, below all that is above its predecessors of the table. -/
theorem Swept.new (mem : b ∈ cfg.rpo) (here : cfg.num b = i) (ne : b ≠ cfg.entry) :
    ∃ n, newIdom cfg idom b = some n ∧ (idom n).isSome ∧
      ∀ x, (∀ p ∈ cfg.preds b, (idom p).isSome → Ancestor idom x p) → Ancestor idom x n := by
  obtain ⟨memUp, pred, less⟩ := order.earlier b mem ne
  have processed : up b ∈ (cfg.preds b).filter (fun p => (idom p).isSome) :=
    mem_filter.2 ⟨pred, swept.all _ memUp (here ▸ less)⟩
  unfold newIdom
  split
  · rename_i none
    rw [none] at processed
    cases processed
  · rename_i first others some
    have known : ∀ p ∈ first :: others, p ∈ cfg.preds b ∧ (idom p).isSome := fun p h => mem_filter.1 (some ▸ h)
    obtain ⟨d, done, knownD, all⟩ := swept.folded order fun p h => (known p h).2
    exact ⟨d, done, knownD, fun x anc => all x fun p h => anc p (known p h).1 (known p h).2⟩

/-- What a label's predecessors have in common is above its old entry. -/
theorem Swept.raised {n : Name} (mem : b ∈ cfg.rpo) (here : cfg.num b = i) (old : idom b = some d) (ne : b ≠ cfg.entry)
    (common : ∀ p ∈ cfg.preds b, (idom p).isSome → Ancestor idom n p) : Ancestor idom n d := by
  have le := swept.highest b d n old ne common
  obtain ⟨memUp, pred, less⟩ := order.earlier b mem ne
  have climb : ∀ {w : Name}, Ancestor (aboveOf cfg up) d w → cfg.num w < i → Ancestor idom n w → Ancestor idom n d := by
    intro w above
    induction above with
    | self => exact fun _ anc => anc
    | @child y w above step ih =>
      intro low anc
      unfold aboveOf at step
      split at step
      · rename_i inside
        cases step
        have lt := (order.earlier w inside.1 inside.2).2.2
        rcases swept.follows w inside.1 low inside.2 n anc with rfl | anc
        · have := order.above_le above
          omega
        · exact ih (lt.trans low) anc
      · cases step
  exact climb (swept.tree b d old ne) (here ▸ less) (common (up b) pred (swept.all _ memUp (here ▸ less)))

omit order in
/-- A raised entry only takes ancestors away. -/
theorem Swept.shrinks {n : Name} (known : (idom n).isSome) (raised : ∀ d, idom b = some d → Ancestor idom n d)
    (anc : Ancestor (setIdom idom b n) x v) (knownV : (idom v).isSome) : Ancestor idom x v := by
  induction anc with
  | self => exact .self _
  | @child y c _ parent ih =>
    simp only [setIdom] at parent
    split at parent
    · rename_i same
      cases parent
      subst same
      obtain ⟨d, old⟩ := isSome_iff_exists.1 knownV
      exact ((ih known).trans (raised d old)).child old
    · exact (ih (swept.known c y parent).2).child parent

/-- Below the label that changes, ancestors stay. -/
theorem Swept.agrees {n : Name} (low : cfg.num v < cfg.num b) : Ancestor (setIdom idom b n) x v ↔ Ancestor idom x v := by
  have other : ∀ c, cfg.num c < cfg.num b → setIdom idom b n c = idom c := by
    intro c less
    refine if_neg ?_
    rintro rfl
    exact lt_irrefl _ less
  constructor
  · intro anc
    induction anc with
    | self => exact .self _
    | @child y c _ parent ih =>
      rw [other c low] at parent
      exact (ih (lt_of_le_of_lt (swept.parent_le order parent) low)).child parent
  · intro anc
    induction anc with
    | self => exact .self _
    | @child y c _ parent ih =>
      exact (ih (lt_of_le_of_lt (swept.parent_le order parent) low)).child ((other c low).trans parent)

/-- One label's new entry takes the sweep past it. -/
theorem Swept.step {b n : Name} (mem : b ∈ cfg.rpo) (here : cfg.num b = i) (ne : b ≠ cfg.entry) (known : (idom n).isSome)
    (common : ∀ p ∈ cfg.preds b, (idom p).isSome → Ancestor idom n p)
    (lowest : ∀ x, (∀ p ∈ cfg.preds b, (idom p).isSome → Ancestor idom x p) → Ancestor idom x n) :
    Swept cfg up (i + 1) (setIdom idom b n) := by
  obtain ⟨memUp, pred, less⟩ := order.earlier b mem ne
  have knownUp := swept.all _ memUp (here ▸ less)
  have aboveUp := common _ pred knownUp
  have raised : ∀ d, idom b = some d → Ancestor idom n d := fun d old => swept.raised order mem here old ne common
  have shrinks : ∀ {x v : Name}, Ancestor (setIdom idom b n) x v → (idom v).isSome → Ancestor idom x v :=
    fun anc known' => swept.shrinks known raised anc known'
  have kept : ∀ v, (idom v).isSome → (setIdom idom b n v).isSome := by
    intro v some_
    simp only [setIdom]
    split <;> first | rfl | exact some_
  have other : ∀ c, c ≠ b → setIdom idom b n c = idom c := fun c ne => if_neg ne
  have self : setIdom idom b n b = some n := if_pos rfl
  refine ⟨(other _ (Ne.symm ne)).trans swept.entry, fun c d parent => ?_, fun c mem' low => ?_, fun c d parent ne' => ?_,
    fun c d x parent ne' above => ?_, fun c mem' low ne' x anc => ?_⟩
  · by_cases same : c = b
    · subst same
      rw [self] at parent
      cases parent
      exact ⟨mem, kept _ known⟩
    · rw [other c same] at parent
      exact ⟨(swept.known c d parent).1, kept _ (swept.known c d parent).2⟩
  · by_cases same : c = b
    · rw [same, self]
      rfl
    · have ne' : cfg.num c ≠ cfg.num b := fun eq => same (num_inj mem' eq)
      exact kept _ (swept.all c mem' (by omega))
  · by_cases same : c = b
    · subst same
      rw [self] at parent
      cases parent
      exact swept.above aboveUp
    · exact swept.tree c d ((other c same).symm.trans parent) ne'
  · have older : ∀ p ∈ cfg.preds c, (idom p).isSome → Ancestor idom x p := fun p h some_ => shrinks (above p h (kept p some_)) some_
    by_cases same : c = b
    · subst same
      rw [self] at parent
      cases parent
      exact swept.num_le order (lowest x older)
    · exact swept.highest c d x ((other c same).symm.trans parent) ne' older
  · by_cases same : c = b
    · subst same
      cases anc with
      | self => exact .inl rfl
      | child anc parent =>
        rw [self] at parent
        cases parent
        have lowN : cfg.num n < cfg.num c := lt_of_le_of_lt (swept.num_le order aboveUp) less
        have anc := ((swept.agrees order lowN).1 anc).trans aboveUp
        exact .inr ((swept.agrees order less).2 anc)
    · have ne'' : cfg.num c ≠ cfg.num b := fun eq => same (num_inj mem' eq)
      have lowC : cfg.num c < cfg.num b := by omega
      obtain ⟨_, _, lessC⟩ := order.earlier c mem' ne'
      rcases swept.follows c mem' (by omega) ne' x ((swept.agrees order lowC).1 anc) with same | anc
      · exact .inl same
      · exact .inr ((swept.agrees order (lessC.trans lowC)).2 anc)

/-- How far the entries may still rise. -/
def weight (cfg : Cfg) (idom : Idom) : Nat := (cfg.rpo.tail.map fun b => (idom b).elim cfg.rpo.length cfg.num).sum

/-- A label's turn in the sweep: its entry stays or rises. -/
theorem Swept.turn (mem : b ∈ cfg.rpo) (here : cfg.num b = i) (ne : b ≠ cfg.entry) (changed : Bool) :
    ∃ st, labelIdoms cfg (idom, changed) b = some st ∧ Swept cfg up (i + 1) st.1 ∧ weight cfg st.1 ≤ weight cfg idom ∧
      (st.2 = true → changed = true ∨ weight cfg st.1 < weight cfg idom) := by
  obtain ⟨n, new, known, lowest⟩ := swept.new order mem here ne
  have common : ∀ p ∈ cfg.preds b, (idom p).isSome → Ancestor idom n p := fun p pred known => newIdom_ancestor new pred known
  have next := swept.step order mem here ne known common lowest
  simp only [labelIdoms, new, bind_eq_bind, bind_some, pure_found, exists_eq_left']
  split
  · rename_i same
    have unchanged : setIdom idom b n = idom := by
      funext l
      simp only [setIdom]
      split
      · rename_i eq
        rw [eq, same]
      · rfl
    rw [unchanged] at next
    exact ⟨next, le_rfl, fun h => .inl h⟩
  · rename_i differs
    have lower : ∀ c ∈ cfg.rpo.tail, ((setIdom idom b n c).elim cfg.rpo.length cfg.num) ≤ (idom c).elim cfg.rpo.length cfg.num ∧
        (c = b → ((setIdom idom b n c).elim cfg.rpo.length cfg.num) < (idom c).elim cfg.rpo.length cfg.num) := by
      intro c _
      by_cases same : c = b
      · subst same
        have rises : cfg.num n < (idom c).elim cfg.rpo.length cfg.num := by
          cases old : idom c with
          | none => exact idxOf_lt_length_of_mem (swept.mem known)
          | some d =>
            refine lt_of_le_of_ne (swept.highest c d n old ne common) fun same => ?_
            exact differs (old.trans (congrArg some (num_inj (swept.mem known) same).symm))
        simp only [setIdom, if_true, elim_some]
        exact ⟨rises.le, fun _ => rises⟩
      · simp [setIdom, same]
    have strict : weight cfg (setIdom idom b n) < weight cfg idom :=
      sum_lt_sum _ _ (fun c h => (lower c h).1) ⟨b, (order.mem_tail).2 ⟨mem, ne⟩, (lower b ((order.mem_tail).2 ⟨mem, ne⟩)).2 rfl⟩
    exact ⟨next, strict.le, fun _ => .inr strict⟩

omit swept in
/-- A sweep from a label on. -/
theorem Order.sweep {ls : List Name} : ∀ {before : List Name} {idom : Idom} (changed : Bool), cfg.rpo = before ++ ls → before ≠ [] →
    Swept cfg up before.length idom → ∃ st, ls.foldlM (labelIdoms cfg) (idom, changed) = some st ∧ Swept cfg up cfg.rpo.length st.1 ∧
      weight cfg st.1 ≤ weight cfg idom ∧ (st.2 = true → changed = true ∨ weight cfg st.1 < weight cfg idom) := by
  induction ls with
  | nil =>
    intro before idom changed cut _ swept
    rw [append_nil] at cut
    exact ⟨_, rfl, cut ▸ swept, le_rfl, .inl⟩
  | cons b ls ih =>
    intro before idom changed cut some_ swept
    have mem : b ∈ cfg.rpo := by rw [cut]; simp
    have other : b ∉ before := by
      intro h
      have nodup := order.nodup
      rw [cut] at nodup
      exact (nodup_append.1 nodup).2.2 b h b mem_cons_self rfl
    have here : cfg.num b = before.length := by
      simp only [Cfg.num]
      rw [cut, idxOf_append_of_notMem other, idxOf_cons_self, Nat.add_zero]
    have ne : b ≠ cfg.entry := by
      rintro rfl
      rw [order.num_entry] at here
      exact some_ (length_eq_zero_iff.1 here.symm)
    obtain ⟨st, turn, next, le, quiet⟩ := swept.turn order mem here ne changed
    have cut' : cfg.rpo = (before ++ [b]) ++ ls := by rw [cut]; simp
    have next' : Swept cfg up (before ++ [b]).length st.1 := by simpa using next
    obtain ⟨st', done, last, le', quiet'⟩ := ih st.2 cut' (by simp) next'
    refine ⟨st', ?_, last, le'.trans le, fun h => ?_⟩
    · rw [foldlM_cons, turn]
      exact done
    · rcases quiet' h with h | less
      · rcases quiet h with h | less
        · exact .inl h
        · exact .inr (lt_of_le_of_lt le' less)
      · exact .inr (lt_of_lt_of_le less le)

omit swept in
/-- The sweeps end, where one changes nothing. -/
theorem Order.fixpoint : ∀ {idom : Idom}, Swept cfg up 1 idom → weight cfg idom < n →
    ∃ idom', idomFixpoint cfg cfg.rpo.tail n idom = some idom' ∧ Swept cfg up cfg.rpo.length idom' ∧
      ∀ b ∈ cfg.rpo.tail, ∃ d, newIdom cfg idom' b = some d ∧ idom' b = some d := by
  induction n with
  | zero => intro idom _ fuel; omega
  | succ n ih =>
    intro idom swept fuel
    obtain ⟨rest, first⟩ := order.first
    have cut : cfg.rpo = [cfg.entry] ++ cfg.rpo.tail := by rw [first]; rfl
    obtain ⟨st, done, last, le, quiet⟩ := order.sweep false cut (by simp) swept
    simp only [idomFixpoint, done, bind_eq_bind, bind_some]
    split
    · rename_i moved
      have less := (quiet moved).resolve_left (by simp)
      have one : 1 ≤ cfg.rpo.length := by rw [first]; simp
      refine ih ⟨last.entry, last.known, fun b h low => last.all b h (by omega), last.tree, last.highest, fun b h low => ?_⟩ (by omega)
      exact last.follows b h (by omega)
    · rename_i still
      have unchanged : cfg.rpo.tail.foldlM (labelIdoms cfg) (idom, false) = some (st.1, false) := by
        rw [done, ← Bool.eq_false_of_not_eq_true still]
      obtain ⟨-, same, all⟩ := sweep_unchanged unchanged
      exact ⟨st.1, rfl, last, same ▸ all⟩

end Sweeps

/-! ### The tree of immediate dominators -/

/-- `d` dominates `b`, and all that dominates `b` dominates `d`. -/
def Immediate (bs : List Block) (entry d b : Name) : Prop :=
  StrictDom (BlockEdge bs) entry d b ∧ ∀ a, StrictDom (BlockEdge bs) entry a b → Dom bs entry a d

/-- A block has one immediate dominator at most. -/
theorem Immediate.unique {bs : List Block} {entry d' : Name} (reached : Reachable (BlockEdge bs) entry b) (first : Immediate bs entry d b)
    (second : Immediate bs entry d' b) : d = d' := by
  rcases second.2 d first.1 with same | below
  · exact same
  · rcases first.2 d' second.1 with same | above
    · exact same.symm
    · obtain ⟨p, walk⟩ := reached
      obtain ⟨q, cut, -⟩ := walk.cut (second.1 p walk)
      exact absurd (above.trans below) (StrictDom.irrefl ⟨q, cut⟩)

/-- A block dominates what no walk from the entry reaches without passing it. -/
theorem dom_walks {bs : List Block} {entry : Name} : Dom bs entry a b ↔ ∀ p, Walk (BlockEdge bs) entry p b → a ∈ b :: p := by
  constructor
  · rintro (rfl | dom) p walk
    · exact mem_cons_self
    · exact mem_cons_of_mem _ (dom p walk)
  · intro all
    by_cases same : a = b
    · exact .inl same
    · exact .inr fun p walk => (mem_cons.1 (all p walk)).resolve_left same

theorem entry_dom {bs : List Block} {entry : Name} : Dom bs entry entry b := by
  refine dom_walks.2 fun p walk => ?_
  induction walk with
  | start => exact mem_cons_self
  | step _ _ ih => exact mem_cons_of_mem _ ih

/-- What `cfg_idoms/2` yields for a graph. -/
structure Tree (bs : List Block) (cfg : Cfg) (parent : Idom) : Prop where
  inside : ∀ l, l ∈ cfg.rpo ↔ Reachable (BlockEdge bs) cfg.entry l
  parents : ∀ b ∈ cfg.rpo, b ≠ cfg.entry → ∃ d, parent b = some d
  descends : ∀ b d, parent b = some d → b ∈ cfg.rpo ∧ b ≠ cfg.entry ∧ d ∈ cfg.rpo ∧ cfg.num d < cfg.num b
  ancestors : ∀ a b, b ∈ cfg.rpo → (Ancestor parent a b ↔ Dom bs cfg.entry a b)

/-- The table is found, and is that tree. -/
theorem cfgIdoms_ends {bs : List Block} {cfg : Cfg} (labels : (bs.map (·.label)).Nodup) (built : funcCfg bs = some cfg) :
    ∃ parent, cfgIdoms cfg = some parent ∧ Tree bs cfg parent := by
  obtain ⟨up, order⟩ := funcCfg_order built
  obtain ⟨hentry, hsuccs, hpreds, first, closed⟩ := funcCfg_spec built
  have start : Swept cfg up 1 (setIdom (fun _ => none) cfg.entry cfg.entry) := by
    have only : ∀ b d, setIdom (fun _ => none) cfg.entry cfg.entry b = some d → b = cfg.entry ∧ d = cfg.entry := by
      intro b d parent
      simp only [setIdom] at parent
      split at parent
      · rename_i same
        cases parent
        exact ⟨same, rfl⟩
      · cases parent
    have zero : ∀ b ∈ cfg.rpo, cfg.num b < 1 → b = cfg.entry := fun b mem low =>
      num_inj mem (by rw [order.num_entry]; omega)
    refine ⟨if_pos rfl, fun b d parent => ?_, fun b mem low => ?_, fun b d parent ne => absurd (only b d parent).1 ne,
      fun b d x parent ne => absurd (only b d parent).1 ne, fun b mem low ne => absurd (zero b mem low) ne⟩
    · obtain ⟨rfl, rfl⟩ := only b d parent
      exact ⟨order.entry_mem, by simp [setIdom]⟩
    · simp [setIdom, zero b mem low]
  have fuel : weight cfg (setIdom (fun _ => none) cfg.entry cfg.entry) < cfg.rpo.length * cfg.rpo.length + 2 := by
    have le : weight cfg (setIdom (fun _ => none) cfg.entry cfg.entry) ≤ cfg.rpo.tail.length • cfg.rpo.length := by
      rw [← length_map (fun b => (setIdom (fun _ => none) cfg.entry cfg.entry b).elim cfg.rpo.length cfg.num)]
      refine sum_le_card_nsmul _ _ fun x h => ?_
      obtain ⟨b, -, rfl⟩ := List.mem_map.1 h
      simp only [setIdom]
      split
      · exact (idxOf_lt_length_of_mem order.entry_mem).le
      · exact le_rfl
    have tail : cfg.rpo.tail.length * cfg.rpo.length ≤ cfg.rpo.length * cfg.rpo.length :=
      Nat.mul_le_mul_right _ (by rw [length_tail]; omega)
    simp only [nsmul_eq_mul, Nat.cast_id] at le
    omega
  obtain ⟨idom, fixpoint, swept, stable⟩ := order.fixpoint start fuel
  have known : ∀ b ∈ cfg.rpo, (idom b).isSome := fun b mem => swept.all b mem (idxOf_lt_length_of_mem mem)
  refine ⟨fun l => if l = cfg.entry then none else idom l, by simp only [cfgIdoms, fixpoint, bind_eq_bind, bind_some, Option.pure_def], ?_⟩
  have tree : cfgIdoms cfg = some (fun l => if l = cfg.entry then none else idom l) := by
    simp only [cfgIdoms, fixpoint, bind_eq_bind, bind_some, Option.pure_def]
  have descends : ∀ b d, (if b = cfg.entry then none else idom b) = some d → b ∈ cfg.rpo ∧ b ≠ cfg.entry ∧ d ∈ cfg.rpo ∧ cfg.num d < cfg.num b := by
    intro b d parent
    split at parent
    · cases parent
    · rename_i ne
      exact ⟨(swept.known b d parent).1, ne, swept.mem (swept.known b d parent).2, swept.parent_lt order parent ne⟩
  have inside : ∀ l, l ∈ cfg.rpo ↔ Reachable (BlockEdge bs) cfg.entry l := fun l =>
    ⟨rpo_reachable labels built tree, reachable_mem order.entry_mem fun a h b next => closed a h b next⟩
  have rooted : Rooted cfg cfg.rpo.tail idom := by
    refine ⟨swept.entry, fun l d parent => ?_⟩
    by_cases same : l = cfg.entry
    · exact .inl same
    · exact .inr (order.mem_tail.2 ⟨(swept.known l d parent).1, same⟩)
  have above : ∀ b ∈ cfg.rpo, Ancestor (fun l => if l = cfg.entry then none else idom l) cfg.entry b := by
    intro b mem
    induction num : cfg.num b using Nat.strong_induction_on generalizing b with
    | _ n ih =>
      by_cases same : b = cfg.entry
      · exact same ▸ .self _
      · obtain ⟨d, parent⟩ := isSome_iff_exists.1 (known b mem)
        have step : (fun l => if l = cfg.entry then none else idom l) b = some d := (if_neg same).trans parent
        obtain ⟨_, _, memD, less⟩ := descends b d step
        exact (ih _ (num ▸ less) d memD rfl).child step
  have common : ∀ a b, Reachable (BlockEdge bs) cfg.entry a → BlockEdge bs a b → ∀ d, (if b = cfg.entry then none else idom b) = some d →
      Ancestor (fun l => if l = cfg.entry then none else idom l) d a := by
    intro a b reached edge d parent
    split at parent
    · cases parent
    · rename_i ne
      have memA := (inside a).2 reached
      obtain ⟨d', new, old⟩ := stable b (order.mem_tail.2 ⟨closed a memA b edge, ne⟩)
      rw [old] at parent
      cases parent
      exact rooted.ancestor (newIdom_ancestor new (hpreds ▸ mem_blockPreds edge) (known a memA))
  refine ⟨inside, fun b mem ne => ?_, descends, fun a b mem => ⟨fun anc => ?_, fun dom => ?_⟩⟩
  · obtain ⟨d, parent⟩ := isSome_iff_exists.1 (known b mem)
    exact ⟨d, (if_neg ne).trans parent⟩
  · by_cases same : a = b
    · exact .inl same
    · have root : (fun l => if l = cfg.entry then none else idom l) cfg.entry = none := if_pos rfl
      exact .inr (anc.strictDom root common same)
  · rcases dom with rfl | dom
    · exact .self _
    · exact cfgIdoms_closest labels built tree dom (above b mem)

section Trees
variable {bs : List Block} {cfg : Cfg} {parent : Idom} (tree : Tree bs cfg parent)
include tree

theorem Tree.root : parent cfg.entry = none := by
  cases up : parent cfg.entry with
  | none => rfl
  | some d => exact absurd rfl (tree.descends _ _ up).2.1

theorem Tree.immediate (up : parent b = some d) : Immediate bs cfg.entry d b := by
  obtain ⟨mem, _, memD, less⟩ := tree.descends b d up
  refine ⟨((tree.ancestors d b mem).1 ((Ancestor.self d).child up)).resolve_left ?_, fun a dom => ?_⟩
  · rintro rfl
    exact lt_irrefl _ less
  · have anc := (tree.ancestors a b mem).2 (.inr dom)
    cases anc with
    | self => exact absurd dom (StrictDom.irrefl ((tree.inside _).1 mem))
    | child anc up' =>
      rw [up] at up'
      cases up'
      exact (tree.ancestors a d memD).1 anc

theorem Tree.inOrder (l d : Name) (up : parent l = some d) : l ∈ cfg.rpo := (tree.descends l d up).1

/-! ### Dominance by the tree -/

omit tree in
/-- `dominates/3`; the number bounds the blocks climbed. -/
def dominates (idom : Idom) : Nat → Name → Name → Option Bool
  | 0, _, _ => none
  | n + 1, a, b =>
    if a = b then some true
    else
      match idom b with
      | none => some false
      | some d => dominates idom n a d

theorem Tree.dominates_ends : ∀ {b : Name}, b ∈ cfg.rpo → cfg.num b < n →
    ∃ r, dominates parent n a b = some r ∧ (r = true ↔ Ancestor parent a b) := by
  induction n with
  | zero => intro b _ fuel; omega
  | succ n ih =>
    intro b mem fuel
    simp only [dominates]
    split
    · rename_i same
      exact ⟨true, rfl, iff_of_true rfl (same ▸ .self _)⟩
    · rename_i ne
      cases up : parent b with
      | none =>
        refine ⟨false, rfl, iff_of_false Bool.false_ne_true fun anc => ?_⟩
        cases anc with
        | self => exact ne rfl
        | child _ up' => rw [up] at up'; cases up'
      | some d =>
        obtain ⟨_, _, memD, less⟩ := tree.descends b d up
        obtain ⟨r, done, iff⟩ := ih memD (by omega)
        refine ⟨r, done, iff.trans ⟨fun anc => anc.child up, fun anc => ?_⟩⟩
        cases anc with
        | self => exact absurd rfl ne
        | child anc up' =>
          rw [up] at up'
          cases up'
          exact anc

omit tree in
theorem subtreeIntervals_ends {kids : Name → List Name} {num : Name → Nat} {top : Nat} (deeper : ∀ l, ∀ k ∈ kids l, num l < num k ∧ num k < top) : ∀ {l : Name} {pre : Nat} {iv : Intervals}, num l < top → top ≤ num l + n → ∃ r, subtreeIntervals kids n l pre iv = some r := by
  induction n with
  | zero => intro l pre iv low fuel; omega
  | succ n ih =>
    intro l pre iv _ fuel
    have walked : ∀ (ks : List Name), (∀ k ∈ ks, num l < num k ∧ num k < top) → ∀ acc : Nat × Intervals,
        ∃ r, ks.foldlM (fun acc k => subtreeIntervals kids n k acc.1 acc.2) acc = some r := by
      intro ks
      induction ks with
      | nil => exact fun _ acc => ⟨acc, rfl⟩
      | cons k ks ihk =>
        intro all acc
        have here := all k mem_cons_self
        obtain ⟨r, first⟩ : ∃ r, subtreeIntervals kids n k acc.1 acc.2 = some r := ih here.2 (by omega)
        obtain ⟨r', rest⟩ := ihk (fun k h => all k (mem_cons_of_mem _ h)) r
        exact ⟨r', by rw [foldlM_cons, first]; exact rest⟩
    obtain ⟨r, done⟩ := walked (kids l) (deeper l) (pre + 1, iv)
    exact ⟨_, by simp only [subtreeIntervals, done, bind_eq_bind, bind_some, Option.pure_def]; rfl⟩

/-- The tree is numbered, and an interval is inside another where dominance holds. -/
theorem Tree.intervals_end : ∃ iv, domIntervals cfg parent = some iv ∧ (∀ l, (iv l).isSome ↔ l ∈ cfg.rpo) ∧
    ∀ a b, a ∈ cfg.rpo → b ∈ cfg.rpo → (dominatesByInterval iv a b = true ↔ Ancestor parent a b) := by
  have children := domChildren_parent tree.inOrder
  have reached : ∀ b ∈ cfg.rpo, Ancestor parent cfg.entry b := fun b mem => (tree.ancestors _ b mem).2 entry_dom
  have entry_mem : cfg.entry ∈ cfg.rpo := (tree.inside _).2 .start
  obtain ⟨r, done⟩ : ∃ r, subtreeIntervals (domChildren cfg parent) (cfg.rpo.length + 1) cfg.entry 0 (fun _ => none) = some r := by
    have deeper : ∀ l, ∀ k ∈ domChildren cfg parent l, cfg.num l < cfg.num k ∧ cfg.num k < cfg.rpo.length := by
      intro l k h
      obtain ⟨mem, _, _, less⟩ := tree.descends k l ((children l k).1 h)
      exact ⟨less, idxOf_lt_length_of_mem mem⟩
    exact subtreeIntervals_ends deeper (idxOf_lt_length_of_mem entry_mem) (by omega)
  have walked := subtreeIntervals_walked children ⟨by simp, by simp⟩ done
  have nested := subtreeIntervals_nested children tree.root ⟨by simp, by simp⟩ (.self _) done
  refine ⟨r.2, by simp only [domIntervals, done, bind_eq_bind, bind_some, Option.pure_def], fun l => ⟨fun known => ?_, fun mem => ?_⟩,
    fun a b memA memB => ⟨fun inside => ?_, fun anc => ?_⟩⟩
  · rcases walked.changed l with none_ | ⟨p, q, _, _, anc⟩
    · rw [none_] at known
      cases known
    · cases anc with
      | self => exact entry_mem
      | child _ up => exact tree.inOrder _ _ up
  · exact walked.all l (reached l mem)
  · unfold dominatesByInterval at inside
    split at inside
    · rename_i pa qa pb qb ha hb
      simp only [decide_eq_true_eq] at inside
      exact walked.numbered.inside a b pa qa pb qb ha hb inside.1 inside.2
    · cases inside
  · obtain ⟨pa, qa, ha, _⟩ := nested.placed a (reached a memA)
    obtain ⟨pb, qb, hb, _⟩ := nested.placed b (reached b memB)
    have inside := nested.around a b (reached a memA) anc pa qa pb qb ha hb
    simp [dominatesByInterval, ha, hb, inside]

end Trees

/-- On every graph the analysis ends, finds each reachable block's one immediate dominator,
and both of its tests hold where every walk to one block passes the other. -/
theorem dominators_exact (entry : Block) (rest : List Block) (labels : ((entry :: rest).map (·.label)).Nodup)
    (exist : labelsExist (entry :: rest) = true) :
    ∃ cfg idom iv, funcCfg (entry :: rest) = some cfg ∧ cfgIdoms cfg = some idom ∧ domIntervals cfg idom = some iv ∧
      (∀ b, Reachable (BlockEdge (entry :: rest)) entry.label b → b ≠ entry.label →
        ∃ d, idom b = some d ∧ Immediate (entry :: rest) entry.label d b ∧ ∀ d', Immediate (entry :: rest) entry.label d' b → d' = d) ∧
      ∀ a b, Reachable (BlockEdge (entry :: rest)) entry.label a → Reachable (BlockEdge (entry :: rest)) entry.label b →
        (∃ r, dominates idom (cfg.rpo.length + 1) a b = some r ∧
          (r = true ↔ ∀ p, Walk (BlockEdge (entry :: rest)) entry.label p b → a ∈ b :: p)) ∧
        (dominatesByInterval iv a b = true ↔ ∀ p, Walk (BlockEdge (entry :: rest)) entry.label p b → a ∈ b :: p) := by
  obtain ⟨cfg, built⟩ := funcCfg_ends (cons_ne_nil _ _) exist
  obtain ⟨idom, found, tree⟩ := cfgIdoms_ends labels built
  obtain ⟨iv, numbered, _, inside⟩ := tree.intervals_end
  have start : cfg.entry = entry.label := (funcCfg_spec built).1
  rw [← start]
  refine ⟨cfg, idom, iv, built, found, numbered, fun b reached ne => ?_, fun a b reachedA reachedB => ?_⟩
  · obtain ⟨d, up⟩ := tree.parents b ((tree.inside b).2 reached) ne
    exact ⟨d, up, tree.immediate up, fun d' other => Immediate.unique reached other (tree.immediate up)⟩
  · have memA := (tree.inside a).2 reachedA
    have memB := (tree.inside b).2 reachedB
    have exact := (tree.ancestors a b memB).trans dom_walks
    obtain ⟨r, done, iff⟩ := tree.dominates_ends memB (Nat.lt_succ_of_lt (idxOf_lt_length_of_mem memB))
    exact ⟨⟨r, done, iff.trans exact⟩, (inside a b memA memB).trans exact⟩

/-- A cycle with two ways in, an edge back to the entry, and a block that nothing reaches. -/
def tangled : List Block :=
  [⟨"b", [], [], .goto (.label "c")⟩, ⟨"c", [], [], .branch (.tmp "v") (.label "b") (.label "a")⟩, ⟨"d", [], [], .goto (.poll "c")⟩]

def tangledEntry : Block := ⟨"a", [], [], .branch (.tmp "u") (.label "b") (.label "c")⟩

theorem dominators_tangled : ∃ cfg idom, funcCfg (tangledEntry :: tangled) = some cfg ∧ cfgIdoms cfg = some idom ∧
    ∃ d, idom "b" = some d ∧ Immediate (tangledEntry :: tangled) "a" d "b" := by
  obtain ⟨cfg, idom, iv, built, found, -, parents, -⟩ := dominators_exact tangledEntry tangled (by decide) (by decide)
  have edge : "b" ∈ blockSuccs (tangledEntry :: tangled) "a" := by decide +kernel
  obtain ⟨d, up, immediate, -⟩ := parents "b" (Reachable.start.step edge) (by decide)
  exact ⟨cfg, idom, built, found, d, up, immediate⟩

end Nanofil
