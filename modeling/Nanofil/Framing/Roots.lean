import Nanofil.Framing.Lowers
import Nanofil.Ssa
import Nanofil.Lib.Results

/-! `lower_roots.pl`: the pointers that share the entry of their lower root. Each
candidate is pointed at the root that its rule gives until nothing changes. -/
namespace Nanofil.Framing
open Results List Option Walks

/-- Each derived name's parent. -/
abbrev Parents := Name → Option Name

inductive Candidate
  | flight (d p : Name)
  | phi (d l : Name) (vs : List Name)
deriving DecidableEq, Repr

def Candidate.name : Candidate → Name
  | .flight d _ => d
  | .phi d _ _ => d

/-- A name's root, following parents, at most 64 of them. -/
def rootFrom (ps : Parents) : Nat → Name → Name
  | 0, n => n
  | depth + 1, n =>
    match ps n with
    | some p => rootFrom ps depth p
    | none => n

def root (ps : Parents) (n : Name) : Name := rootFrom ps 64 n

def setParent (ps : Parents) (d r : Name) : Parents := Function.update ps d (if d = r then none else some r)

/-- The block that defines a name of one definition, `param` where a parameter does. -/
def defBlock (params : List Param) (bs : List Block) (once : List Name) : List (Name × Name) :=
  (params.map (fun p => (p.name, "param")) ++
    bs.flatMap (fun b => (b.phis.map (·.dst) ++ b.insts.flatMap instDefs).map (·, b.label))).filter (fun nb => nb.1 ∈ once)

def rootFits (places : List (Name × Name)) (iv : Intervals) (l c : Name) : Bool :=
  match places.lookup c with
  | some cb => cb = "param" || (cb ≠ l && dominatesByInterval iv cb l)
  | none => false

def candRoot (places : List (Name × Name)) (iv : Intervals) (ps : Parents) : Candidate → Parents
  | .flight d p => setParent ps d (root ps p)
  | .phi d l vs =>
    match ((vs.map (root ps)).filter (· ≠ d)).dedup with
    | [c] => if rootFits places iv l c then setParent ps d c else setParent ps d d
    | _ => setParent ps d d

/-- One pass over the candidates until they stay, in fewer than `rounds` passes. -/
def settle (places : List (Name × Name)) (iv : Intervals) (cands : List Candidate) : Nat → Parents → Option Parents
  | 0, _ => none
  | rounds + 1, ps =>
    let next := cands.foldl (candRoot places iv) ps
    if cands.all (fun c => next c.name = ps c.name) then some next else settle places iv cands rounds next

/-- Names defined once. -/
def onceNames (defs : List (Name × Cls)) : List Name :=
  (defs.map (·.1)).filter (fun n => (defs.map (·.1)).count n = 1)

def flightCandidate (once : List Name) : Inst → Option Candidate
  | .flight d _ _ (.lower (.tmp p)) => if d ∈ once ∧ p ∈ once then some (.flight d p) else none
  | _ => none

def phiCandidate (once : List Name) (l : Name) (ph : Phi) : Option Candidate :=
  if ph.cls = .p ∧ ph.dst ∈ once ∧ ph.pairs.all (fun pv => match pv.2 with
      | .tmp n => n ∈ once
      | _ => false) then
    some (.phi ph.dst l (sortNames (temps (ph.pairs.map (·.2))).dedup))
  else none

def blockCandidates (once : List Name) (b : Block) : List Candidate :=
  b.insts.filterMap (flightCandidate once) ++ b.phis.filterMap (phiCandidate once b.label)

def candidates (bs : List Block) (once : List Name) (rpo : List Name) : List Candidate :=
  rpo.flatMap (fun l => ((bs.find? (·.label = l)).map (blockCandidates once)).getD [])

/-- The candidates whose root is another name, and has no parent of its own. -/
def sharing (cands : List Candidate) (ps : Parents) : List (Name × Name) :=
  (cands.map (fun c => (c.name, root ps c.name))).filter (fun dr => dr.2 ≠ dr.1 && (ps dr.2).isNone)

def derivedLowers (params : List Param) (blocks : List ViewBlock) : Option (List (Name × Name)) :=
  let bare := blocks.map ViewBlock.bare
  if bare.any (fun b => b.insts.any setjmpLet) then some []
  else do
    let once := onceNames (tempClasses params bare)
    let cfg ← funcCfg bare
    let idom ← cfgIdoms cfg
    let iv ← domIntervals cfg idom
    let cands := candidates bare once cfg.rpo
    match settle (defBlock params bare once) iv cands 32 (fun _ => none) with
    | some ps => return sharing cands ps
    | none => return []

/-! ### Names defined once -/

variable {params : List Param} {bs : List Block}

theorem tempDefs_names : (tempDefs params bs).map (·.1) = (tempClasses params bs).map (·.1) := by
  have phis : ∀ b : Block, (blockDefs b).map (·.1) = b.phis.map (·.dst) ++ b.insts.flatMap instDefs := by
    intro b
    simp [blockDefs, map_flatMap, Function.comp_def]
  have insts : ∀ is : List Inst, (is.flatMap instTempDefs).map (·.1) = is.flatMap instDefs := by
    intro is
    rw [map_flatMap]
    rfl
  simp [tempDefs, tempClasses, map_flatMap, phis, insts, Function.comp_def]

variable {n d r : Name} {c : Candidate} {ps : Parents} {iv : Intervals} {cands : List Candidate}

theorem once_single (once : n ∈ onceNames (tempClasses params bs)) : ∃ d, singleDefinitions params bs n = some d := by
  obtain ⟨-, count⟩ := mem_filter.1 once
  rw [decide_eq_true_iff, ← tempDefs_names, count_eq_length_filter, List.filter_map, length_map] at count
  have same : (tempDefs params bs).filter ((fun x => x == n) ∘ (·.1)) = (tempDefs params bs).filter (fun nd => nd.1 = n) := by
    refine filter_congr fun nd _ => ?_
    rw [Function.comp_apply, Bool.eq_iff_iff, beq_iff_eq, decide_eq_true_iff]
  rw [same] at count
  obtain ⟨nd, only⟩ := length_eq_one_iff.1 count
  refine ⟨nd.2, ?_⟩
  rw [singleDefinitions, only]

/-! ### The candidates -/

theorem flightCandidate_some {once : List Name} {i : Inst} (found : flightCandidate once i = some c) :
    ∃ d p, c = .flight d p ∧ d ∈ once ∧ p ∈ once ∧ instDefs i = [d] ∧ ∃ op args, i = .flight d op args (.lower (.tmp p)) := by
  unfold flightCandidate at found
  split at found
  · split_ifs at found with both
    cases found
    exact ⟨_, _, rfl, both.1, both.2, rfl, _, _, rfl⟩
  · cases found

theorem phiCandidate_some {once : List Name} {l : Name} {ph : Phi} (found : phiCandidate once l ph = some c) :
    ∃ vs, c = .phi ph.dst l vs ∧ ph.cls = .p ∧ ph.dst ∈ once ∧
      ∀ pv ∈ ph.pairs, ∃ n, pv.2 = .tmp n ∧ n ∈ once ∧ n ∈ vs := by
  unfold phiCandidate at found
  split_ifs at found with all
  cases found
  refine ⟨_, rfl, all.1, all.2.1, fun pv there => ?_⟩
  have temp := List.all_eq_true.1 all.2.2 pv there
  obtain ⟨l', v⟩ := pv
  cases v with
  | tmp n =>
    refine ⟨n, rfl, by simpa using temp, ?_⟩
    rw [sortNames, mem_insertionSort, mem_dedup, mem_temps]
    exact List.mem_map.2 ⟨_, there, rfl⟩
  | const k => cases temp
  | global g => cases temp

/-- A candidate is a flight or a phi of a block in the order. -/
theorem mem_candidates {once rpo : List Name} (there : c ∈ candidates bs once rpo) :
    ∃ l ∈ rpo, ∃ b ∈ bs, b.label = l ∧ c ∈ blockCandidates once b := by
  obtain ⟨l, reached, there⟩ := mem_flatMap.1 there
  cases found : bs.find? (·.label = l) with
  | none =>
    rw [found] at there
    cases there
  | some b =>
    rw [found] at there
    exact ⟨l, reached, b, mem_of_find?_eq_some found, by simpa using find?_some found, there⟩

theorem blockCandidates_names {once : List Name} {b : Block} :
    ((blockCandidates once b).map Candidate.name).count n ≤ (b.phis.map (·.dst) ++ b.insts.flatMap instDefs).count n := by
  have flights : ∀ is : List Inst, ((is.filterMap (flightCandidate once)).map Candidate.name).count n ≤
      (is.flatMap instDefs).count n := by
    intro is
    induction is with
    | nil => rfl
    | cons i is ih =>
      rw [flatMap_cons, count_append]
      cases found : flightCandidate once i with
      | none =>
        rw [filterMap_cons_none found]
        omega
      | some c =>
        obtain ⟨d, p, rfl, -, -, defs, -⟩ := flightCandidate_some found
        rw [filterMap_cons_some found, map_cons, defs, ← singleton_append, count_append]
        exact Nat.add_le_add (Nat.le_refl _) ih
  have phis : ∀ phs : List Phi, ((phs.filterMap (phiCandidate once b.label)).map Candidate.name).count n ≤
      (phs.map (·.dst)).count n := by
    intro phs
    induction phs with
    | nil => rfl
    | cons ph phs ih =>
      rw [map_cons, ← singleton_append (l := phs.map (·.dst)), count_append]
      cases found : phiCandidate once b.label ph with
      | none =>
        rw [filterMap_cons_none found]
        omega
      | some c =>
        obtain ⟨vs, rfl, -, -, -⟩ := phiCandidate_some found
        rw [filterMap_cons_some found, map_cons, ← singleton_append, count_append]
        exact Nat.add_le_add (Nat.le_refl _) ih
  rw [blockCandidates, map_append, count_append, count_append]
  have := flights b.insts
  have := phis b.phis
  omega

/-- The order is grown by labels that were not seen, each once. -/
theorem reversePostorder_once {succs : Name → List Name} {n : Nat} {ls seen post seen' post' : List Name}
    (done : reversePostorder succs n ls seen post = some (seen', post')) (sub : ∀ l ∈ post, l ∈ seen)
    (once : post.Nodup) :
    post'.Nodup ∧ (∀ l ∈ post', l ∈ seen') ∧ (∀ l ∈ seen, l ∈ seen') ∧ ∀ l ∈ post', l ∈ post ∨ l ∉ seen := by
  induction n generalizing ls seen post seen' post' with
  | zero =>
    cases ls with
    | nil =>
      cases done
      exact ⟨once, sub, fun _ h => h, fun _ h => .inl h⟩
    | cons l ls => cases done
  | succ n ih =>
    cases ls with
    | nil =>
      cases done
      exact ⟨once, sub, fun _ h => h, fun _ h => .inl h⟩
    | cons l ls =>
      rw [reversePostorder] at done
      split_ifs at done with already
      · exact ih done sub once
      · simp only [bind_found] at done
        obtain ⟨⟨seen1, post1⟩, below, done⟩ := done
        obtain ⟨once1, sub1, kept1, new1⟩ := ih below (fun l' h => mem_cons_of_mem l (sub l' h)) once
        have here : l ∉ post1 := by
          intro there
          rcases new1 l there with old | new
          · exact already (sub l old)
          · exact new mem_cons_self
        have sub2 : ∀ l' ∈ l :: post1, l' ∈ seen1 := by
          intro l' there
          rcases mem_cons.1 there with rfl | there
          · exact kept1 _ mem_cons_self
          · exact sub1 l' there
        obtain ⟨once2, sub', kept2, new2⟩ := ih done sub2 (nodup_cons.2 ⟨here, once1⟩)
        refine ⟨once2, sub', fun l' h => kept2 l' (kept1 l' (mem_cons_of_mem l h)), fun l' there => ?_⟩
        rcases new2 l' there with old | new
        · rcases mem_cons.1 old with rfl | old
          · exact .inr already
          · exact (new1 l' old).imp_right fun new h => new (mem_cons_of_mem l h)
        · exact .inr fun h => new (kept1 l' (mem_cons_of_mem l h))

theorem rpo_once {cfg : Cfg} (built : funcCfg bs = some cfg) : cfg.rpo.Nodup := by
  unfold funcCfg at built
  split at built
  · cases built
  · split_ifs at built
    · simp only [bind_found, pure_found] at built
      obtain ⟨⟨seen, post⟩, done, rfl⟩ := built
      exact (reversePostorder_once done (by simp) nodup_nil).1

/-- Where a candidate's name is defined. -/
theorem candidate_defined {once : List Name} {b : Block} (here : b ∈ bs) {c : Candidate}
    (there : c ∈ blockCandidates once b) :
    c.name ∈ once ∧ ∃ e ∈ defEntries params bs, e.name = c.name ∧ ∃ j, e.site = .at_ b.label j := by
  rcases mem_append.1 there with flight | phi
  · obtain ⟨i, inst, found⟩ := mem_filterMap.1 flight
    obtain ⟨d, p, rfl, once_, -, defs, -⟩ := flightCandidate_some found
    obtain ⟨k, at_⟩ := mem_iff_getElem?.1 inst
    exact ⟨once_, _, inst_entry here at_ (defs ▸ mem_singleton_self d), rfl, _, rfl⟩
  · obtain ⟨ph, of_block, found⟩ := mem_filterMap.1 phi
    obtain ⟨vs, rfl, -, once_, -⟩ := phiCandidate_some found
    exact ⟨once_, _, phi_entry here of_block, rfl, _, rfl⟩

theorem candidates_once {cfg : Cfg} (built : funcCfg bs = some cfg) :
    ((candidates bs (onceNames (tempClasses params bs)) cfg.rpo).map Candidate.name).Nodup := by
  rw [candidates, map_flatMap, nodup_flatMap]
  constructor
  · intro l _
    cases found : bs.find? (·.label = l) with
    | none => exact nodup_nil
    | some b =>
      have here := mem_of_find?_eq_some found
      rw [map_some, getD_some, nodup_iff_count_le_one]
      intro n
      by_cases there : n ∈ (blockCandidates (onceNames (tempClasses params bs)) b).map Candidate.name
      · obtain ⟨c, cand, rfl⟩ := List.mem_map.1 there
        obtain ⟨-, count⟩ := mem_filter.1 (@candidate_defined params bs _ _ here _ cand).1
        rw [decide_eq_true_iff, ← tempDefs_names] at count
        refine (blockCandidates_names).trans (le_trans ?_ count.le)
        obtain ⟨before, after, split_⟩ := append_of_mem here
        have defs : (blockDefs b).map (·.1) = b.phis.map (·.dst) ++ b.insts.flatMap instDefs := by
          simp [blockDefs, map_flatMap, Function.comp_def]
        rw [tempDefs, split_, flatMap_append, flatMap_cons]
        simp only [map_append, defs, count_append]
        omega
      · rw [count_eq_zero_of_not_mem there]
        exact Nat.zero_le 1
  · refine (rpo_once built).imp ?_
    intro l l' apart n there there'
    have label : ∀ {l : Name}, n ∈ (((bs.find? (·.label = l)).map (blockCandidates
        (onceNames (tempClasses params bs)))).getD []).map Candidate.name → n ∈ onceNames (tempClasses params bs) ∧
          ∃ e ∈ defEntries params bs, e.name = n ∧ ∃ j, e.site = .at_ l j := by
      intro l there
      cases found : bs.find? (·.label = l) with
      | none =>
        rw [found] at there
        cases there
      | some b =>
        rw [found] at there
        obtain ⟨c, cand, rfl⟩ := List.mem_map.1 there
        have same : b.label = l := by simpa using find?_some found
        exact same ▸ candidate_defined (mem_of_find?_eq_some found) cand
    obtain ⟨once, e, mem, named, j, site⟩ := label there
    obtain ⟨-, e', mem', named', j', site'⟩ := label there'
    obtain ⟨d, single⟩ := once_single once
    obtain ⟨e0, -, -, -, unique⟩ := once_unique single
    rw [unique e mem named, ← unique e' mem' named', site'] at site
    exact apart (Site.at_.inj site).1.symm

/-! ### What the passes leave -/

theorem setParent_other (other : n ≠ d) : setParent ps d r n = ps n := by
  rw [setParent, Function.update_of_ne other]

theorem candRoot_sets {places : List (Name × Name)} {iv : Intervals} {ps : Parents} {c : Candidate} :
    ∃ r, candRoot places iv ps c = setParent ps c.name r := by
  cases c with
  | flight d p => exact ⟨_, rfl⟩
  | phi d l vs =>
    rw [candRoot]
    split
    · split_ifs
      · exact ⟨_, rfl⟩
      · exact ⟨_, rfl⟩
    · exact ⟨_, rfl⟩

theorem candRoot_other {places : List (Name × Name)} (other : n ≠ c.name) : candRoot places iv ps c n = ps n := by
  obtain ⟨r, same⟩ := @candRoot_sets places iv ps c
  rw [same, setParent_other other]

theorem fold_other {places : List (Name × Name)}
    (other : n ∉ cands.map Candidate.name) : cands.foldl (candRoot places iv) ps n = ps n := by
  induction cands generalizing ps with
  | nil => rfl
  | cons c cands ih =>
    rw [map_cons, mem_cons, not_or] at other
    rw [foldl_cons, ih other.2, candRoot_other other.1]

/-- Candidates of different names leave a pass where it began only when each leaves the parents as they are. -/
theorem fold_same {places : List (Name × Name)}
    (once : (cands.map Candidate.name).Nodup) (same : ∀ c ∈ cands, cands.foldl (candRoot places iv) ps c.name = ps c.name) :
    cands.foldl (candRoot places iv) ps = ps ∧ ∀ c ∈ cands, candRoot places iv ps c = ps := by
  induction cands generalizing ps with
  | nil => exact ⟨rfl, by simp⟩
  | cons c cands ih =>
    rw [map_cons, nodup_cons] at once
    have here : candRoot places iv ps c = ps := by
      funext n
      by_cases own : n = c.name
      · have kept := same c mem_cons_self
        rw [foldl_cons, fold_other once.1] at kept
        rw [own, kept]
      · exact candRoot_other own
    rw [foldl_cons, here]
    obtain ⟨all, each⟩ := ih once.2 (fun c' there => by
      have kept := same c' (mem_cons_of_mem c there)
      rwa [foldl_cons, here] at kept)
    refine ⟨all, fun c' there => ?_⟩
    rcases mem_cons.1 there with rfl | there
    · exact here
    · exact each c' there

theorem settle_stable {places : List (Name × Name)} {rounds : Nat}
    {ps0 : Parents} (once : (cands.map Candidate.name).Nodup) (only : ∀ n, n ∉ cands.map Candidate.name → ps0 n = none)
    (done : settle places iv cands rounds ps0 = some ps) :
    (∀ c ∈ cands, candRoot places iv ps c = ps) ∧ ∀ n, n ∉ cands.map Candidate.name → ps n = none := by
  induction rounds generalizing ps0 with
  | zero => cases done
  | succ rounds ih =>
    have next : ∀ n, n ∉ cands.map Candidate.name → cands.foldl (candRoot places iv) ps0 n = none := fun n other => by
      rw [fold_other other, only n other]
    rw [settle] at done
    split_ifs at done with same
    · cases done
      rw [List.all_eq_true] at same
      obtain ⟨all, each⟩ := fold_same once (fun c there => by simpa using same c there)
      rw [all]
      exact ⟨each, only⟩
    · exact ih next done

/-- A way up the parents. -/
inductive Up (ps : Parents) : Name → Name → Prop
  | refl (n : Name) : Up ps n n
  | step {n p r : Name} : ps n = some p → Up ps p r → Up ps n r

theorem Up.trans {p : Name} (below : Up ps n p) (above : Up ps p r) : Up ps n r := by
  induction below with
  | refl => exact above
  | step parent _ ih => exact .step parent (ih above)

theorem up_root (ps : Parents) (n : Name) : Up ps n (root ps n) := by
  have from_ : ∀ depth n, Up ps n (rootFrom ps depth n) := by
    intro depth
    induction depth with
    | zero => exact Up.refl
    | succ depth ih =>
      intro n
      rw [rootFrom]
      cases up : ps n with
      | none => exact .refl n
      | some p => exact .step up (ih p)
  exact from_ 64 n

theorem root_of_none (top : ps n = none) : root ps n = n := by
  rw [root, rootFrom, top]

/-- A flight's parent is above its donor. -/
theorem flight_parent {places : List (Name × Name)} {p : Name}
    (same : candRoot places iv ps (.flight d p) = ps) (up : ps d = some r) : Up ps p r := by
  have own := congrFun same d
  rw [candRoot, setParent, Function.update_self, up] at own
  split_ifs at own
  rw [← Option.some.inj own]
  exact up_root ps p

theorem candRoot_phi {places : List (Name × Name)} {iv : Intervals} {ps : Parents} {d l : Name} {vs : List Name} :
    (∃ c, ((vs.map (root ps)).filter (· ≠ d)).dedup = [c] ∧ candRoot places iv ps (.phi d l vs) = setParent ps d c) ∨
      candRoot places iv ps (.phi d l vs) = setParent ps d d := by
  rw [candRoot]
  split
  · rename_i c only
    split_ifs
    · exact .inl ⟨c, only, rfl⟩
    · exact .inr rfl
  · exact .inr rfl

/-- A phi's parent, or the phi, is above each of its inputs, and there is an input. -/
theorem phi_parent {places : List (Name × Name)} {l : Name} {vs : List Name}
    (same : candRoot places iv ps (.phi d l vs) = ps) (up : ps d = some r) :
    (∃ v, v ∈ vs) ∧ ∀ v ∈ vs, Up ps v r ∨ Up ps v d := by
  have own := congrFun same d
  rw [up] at own
  rcases @candRoot_phi places iv ps d l vs with ⟨c, only, sets⟩ | clears
  · rw [sets, setParent, Function.update_self] at own
    split_ifs at own
    have top : c = r := Option.some.inj own
    subst top
    have roots : ∀ x, x ∈ (vs.map (root ps)).filter (· ≠ d) ↔ x = c := by
      intro x
      rw [← mem_dedup, only, mem_singleton]
    constructor
    · obtain ⟨v, there, -⟩ := List.mem_map.1 (mem_filter.1 ((roots c).2 rfl)).1
      exact ⟨v, there⟩
    · intro v there
      by_cases self : root ps v = d
      · exact .inr (self ▸ up_root ps v)
      · have above := (roots (root ps v)).1 (mem_filter.2 ⟨List.mem_map_of_mem there, by simpa using self⟩)
        exact .inl (above ▸ up_root ps v)
  · rw [clears, setParent, Function.update_self, if_pos rfl] at own
    cases own

theorem mem_sharing (there : (d, r) ∈ sharing cands ps) : d ∈ cands.map Candidate.name ∧ root ps d = r ∧ r ≠ d ∧ ps r = none := by
  obtain ⟨there, ends⟩ := mem_filter.1 there
  obtain ⟨c, cand, same⟩ := List.mem_map.1 there
  cases same
  rw [Bool.and_eq_true, decide_eq_true_iff, isNone_iff_eq_none] at ends
  exact ⟨List.mem_map_of_mem cand, rfl, ends.1, ends.2⟩

end Nanofil.Framing
