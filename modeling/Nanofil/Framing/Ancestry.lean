import Nanofil.Framing.Roots

/-! Where the definitions of a function dominate their uses, a derived name's parents
are defined before it on every way. -/
namespace Nanofil.Framing
open List Option Walks

/-- A valid function whose definitions dominate its uses, as liveness reads them. -/
structure Dominated (params : List Param) (blocks : List ViewBlock) : Prop where
  ssa : Ssa params (blocks.map ViewBlock.bare)
  args : ∀ b ∈ blocks, ∀ ph ∈ b.phis, ∀ p ∈ blockPreds (blocks.map ViewBlock.bare) b.label, ∃ v, (p, v) ∈ ph.pairs
  entryPhis : ∀ b ∈ blocks, b.label = blocksEntry (blocks.map ViewBlock.bare) → b.phis = []
  reads : ∀ b ∈ blocks, ∀ (k : Nat) (i : ViewInst), b.insts[k]? = some i →
    ReachablePoint (blocks.map ViewBlock.bare) ⟨b.label, k⟩ → ∀ n ∈ i.reads,
      Established params (blocks.map ViewBlock.bare) n ⟨b.label, k⟩

/-- What a settled pass leaves of a function's candidates. -/
structure Settled (params : List Param) (bs : List Block) (ps : Parents) : Prop where
  flight : ∀ b ∈ bs, ∀ (k : Nat) (d p r : Name) (op : Op) (args : List FlightArg),
    b.insts[k]? = some (Inst.flight d op args (.lower (.tmp p))) → ps d = some r →
      p ∈ onceNames (tempClasses params bs) ∧ Up ps p r
  phi : ∀ b ∈ bs, ∀ ph ∈ b.phis, ∀ r, ps ph.dst = some r → ph.cls = .p ∧ ∀ pv ∈ ph.pairs,
    ∃ v, pv.2 = .tmp v ∧ v ∈ onceNames (tempClasses params bs) ∧ Up ps v r
  derived : ∀ d r, ps d = some r → d ∈ onceNames (tempClasses params bs) ∧
    ∃ b ∈ bs, (∃ (k : Nat) (op : Op) (args : List FlightArg) (p : Name), b.insts[k]? = some (Inst.flight d op args (.lower (.tmp p)))) ∨ ∃ ph ∈ b.phis, ph.dst = d

variable {pt : Point} {r : Name} {w : List Point}

section
variable {params : List Param} {bs : List Block} {ps : Parents}

/-- A point of a definition is on a way, or the definition is a parameter's. -/
def SiteIn (w : List Point) : Site → Prop
  | .param => True
  | .at_ l i => ⟨l, i⟩ ∈ w

/-- A name of one definition, which the way has left. -/
def Left (params : List Param) (bs : List Block) (n : Name) (w : List Point) : Prop :=
  n ∈ onceNames (tempClasses params bs) ∧ ∃ e ∈ defEntries params bs, e.name = n ∧ SiteIn w e.site

theorem SiteIn.mono {w' : List Point} {s : Site} (there : SiteIn w s) (sub : ∀ pt ∈ w, pt ∈ w') : SiteIn w' s := by
  cases s with
  | param => trivial
  | at_ l i => exact sub _ there

variable {n : Name}

theorem Left.mono {w' : List Point} (left : Left params bs n w) (sub : ∀ pt ∈ w, pt ∈ w') : Left params bs n w' := by
  obtain ⟨once, e, mem, named, there⟩ := left
  exact ⟨once, e, mem, named, there.mono sub⟩

theorem Established.left (once : n ∈ onceNames (tempClasses params bs))
    (est : Established params bs n pt) (walk : Walk (PointEdge bs) (startPoint bs) w pt) :
    Left params bs n w := by
  obtain ⟨e, mem, named, before⟩ := est
  refine ⟨once, e, mem, named, ?_⟩
  cases site : e.site with
  | param => trivial
  | at_ l i =>
    rw [site] at before
    exact before w walk

theorem once_site (once : n ∈ onceNames (tempClasses params bs)) {e e' : DefEntry}
    (mem : e ∈ defEntries params bs) (mem' : e' ∈ defEntries params bs) (named : e.name = n) (named' : e'.name = n) :
    e = e' := by
  obtain ⟨d, single⟩ := once_single once
  obtain ⟨e0, -, -, -, unique⟩ := once_unique single
  rw [unique e mem named, unique e' mem' named']

/-- A name that every way to a reachable point has left is established there. -/
theorem Left.established (reached : ReachablePoint bs pt)
    (all : ∀ w, Walk (PointEdge bs) (startPoint bs) w pt → Left params bs n w) : Established params bs n pt := by
  obtain ⟨w, walk⟩ := reached
  obtain ⟨once, e, mem, named, -⟩ := all w walk
  refine ⟨e, mem, named, ?_⟩
  cases site : e.site with
  | param => trivial
  | at_ l i =>
    intro w' walk'
    obtain ⟨-, e', mem', named', there⟩ := all w' walk'
    rw [once_site once mem' mem named' named, site] at there
    exact there

theorem Left.up (each : ∀ x p, ps x = some p → Left params bs x w → Left params bs p w)
    (up : Up ps n r) (left : Left params bs n w) : Left params bs r w := by
  induction up with
  | refl => exact left
  | step parent _ ih => exact ih (each _ _ parent left)

end

section
variable {params : List Param} {blocks : List ViewBlock} {ps : Parents}

variable {ph : Phi} {s : ViewBlock}

/-- A way into a block that has a phi comes over an edge. -/
theorem walk_into (dominated : Dominated params blocks) (here : s ∈ blocks) (phi : ph ∈ s.phis) (walk : Walk (PointEdge (blocks.map ViewBlock.bare)) (startPoint (blocks.map ViewBlock.bare)) w ⟨s.label, -1⟩) :
    ∃ c ∈ blocks.map ViewBlock.bare, s.label ∈ jumpLabels c.jump ∧ ∃ w', w = ⟨c.label, c.insts.length⟩ :: w' ∧
      Walk (PointEdge (blocks.map ViewBlock.bare)) (startPoint (blocks.map ViewBlock.bare)) w' ⟨c.label, c.insts.length⟩ := by
  generalize to_ : (⟨s.label, -1⟩ : Point) = pt at walk
  cases walk with
  | start =>
    rw [dominated.entryPhis s here (congrArg Point.label to_)] at phi
    cases phi
  | @step w' from_ _ walk' next =>
    cases next with
    | @next c i memc low high =>
      have index := congrArg Point.index to_
      dsimp only at index
      omega
    | @jump c l memc target =>
      have label : s.label = l := congrArg Point.label to_
      subst label
      exact ⟨c, memc, target, w', rfl, walk'⟩

/-- A way over an edge left whatever each of a phi's inputs comes from. -/
theorem phi_left (dominated : Dominated params blocks) (here : s ∈ blocks) (phi : ph ∈ s.phis) {q : Name}
    (inputs : ∀ pv ∈ ph.pairs, ∃ v, pv.2 = .tmp v ∧ v ∈ onceNames (tempClasses params (blocks.map ViewBlock.bare)) ∧ Up ps v q)
    (reached : ReachablePoint (blocks.map ViewBlock.bare) ⟨s.label, -1⟩) {c : Block} (memc : c ∈ blocks.map ViewBlock.bare)
    (target : s.label ∈ jumpLabels c.jump)
    (walk : Walk (PointEdge (blocks.map ViewBlock.bare)) (startPoint (blocks.map ViewBlock.bare)) w ⟨c.label, c.insts.length⟩)
    (each : ∀ x p, ps x = some p → Left params (blocks.map ViewBlock.bare) x w → Left params (blocks.map ViewBlock.bare) p w) :
    Left params (blocks.map ViewBlock.bare) q w := by
  have pred : c.label ∈ blockPreds (blocks.map ViewBlock.bare) s.label :=
    mem_blockPreds (blockEdge_jump dominated.ssa.labels memc target)
  obtain ⟨value, pair⟩ := dominated.args s here ph phi c.label pred
  obtain ⟨u, tmp, onceU, above⟩ := inputs _ pair
  dsimp only at tmp
  subst tmp
  have est := phi_use dominated.ssa (List.mem_map_of_mem (f := ViewBlock.bare) here) memc reached walk.reachable phi pair
  exact Left.up each above (Established.left onceU est walk)

/-- A way that left a derived name's definition left its parent's. -/
theorem parent_left (dominated : Dominated params blocks) (settled : Settled params (blocks.map ViewBlock.bare) ps)
    (size : Nat) : ∀ {w : List Point} {pt : Point}, w.length < size →
      Walk (PointEdge (blocks.map ViewBlock.bare)) (startPoint (blocks.map ViewBlock.bare)) w pt →
        ∀ x p, ps x = some p → Left params (blocks.map ViewBlock.bare) x w → Left params (blocks.map ViewBlock.bare) p w := by
  induction size with
  | zero => exact fun short => absurd short (Nat.not_lt_zero _)
  | succ size ih =>
    intro w pt short walk x p parent left
    obtain ⟨once, e, mem, named, there⟩ := left
    obtain ⟨-, b, here, ⟨k, op, args, donor, at_⟩ | ⟨ph, phi, dst⟩⟩ := settled.derived x p parent
    · have entry := once_site once mem (inst_entry here at_ mem_cons_self) named rfl
      rw [entry] at there
      obtain ⟨w', walk', shorter, sub⟩ := walk.cut there
      obtain ⟨onceDonor, up⟩ := settled.flight b here k x donor p op args at_ parent
      have est : Established params (blocks.map ViewBlock.bare) donor ⟨b.label, k⟩ :=
        inst_use dominated.ssa here at_ walk'.reachable (by simp [instUses, mem_temps])
      exact (Left.up (ih (by omega) walk') up (Established.left onceDonor est walk')).mono sub
    · have entry := once_site once mem (phi_entry here phi) named dst
      rw [entry] at there
      obtain ⟨w', walk', shorter, sub⟩ := walk.cut there
      obtain ⟨v, hv, rfl⟩ := List.mem_map.1 here
      obtain ⟨c, memc, target, w'', rfl, walk''⟩ := walk_into dominated hv phi walk'
      subst dst
      rw [length_cons] at shorter
      have left := phi_left dominated hv phi (settled.phi v.bare here ph phi p parent).2 walk'.reachable memc target walk''
        (ih (by omega) walk'')
      exact left.mono fun q h => sub q (mem_cons_of_mem _ h)

/-- Whatever each of a phi's inputs comes from is established where its block begins. -/
theorem phi_established (dominated : Dominated params blocks) (settled : Settled params (blocks.map ViewBlock.bare) ps) (here : s ∈ blocks) (phi : ph ∈ s.phis) {q : Name}
    (inputs : ∀ pv ∈ ph.pairs, ∃ v, pv.2 = .tmp v ∧ v ∈ onceNames (tempClasses params (blocks.map ViewBlock.bare)) ∧ Up ps v q)
    (reached : ReachablePoint (blocks.map ViewBlock.bare) ⟨s.label, -1⟩) :
    Established params (blocks.map ViewBlock.bare) q ⟨s.label, -1⟩ :=
  Left.established reached fun w walk => by
    obtain ⟨c, memc, target, w', rfl, walk'⟩ := walk_into dominated here phi walk
    have left := phi_left dominated here phi inputs reached memc target walk'
      (parent_left dominated settled (w'.length + 1) (Nat.lt_succ_self _) walk')
    exact left.mono fun pt h => mem_cons_of_mem _ h

/-- A derived name's parent is established wherever it is. -/
theorem parent_established (dominated : Dominated params blocks) (settled : Settled params (blocks.map ViewBlock.bare) ps)
    {x p : Name} (parent : ps x = some p) (reached : ReachablePoint (blocks.map ViewBlock.bare) pt)
    (est : Established params (blocks.map ViewBlock.bare) x pt) : Established params (blocks.map ViewBlock.bare) p pt :=
  Left.established reached fun w walk =>
    parent_left dominated settled (w.length + 1) (Nat.lt_succ_self _) walk x p parent
      (Established.left (settled.derived x p parent).1 est walk)

theorem up_once (dominated : Dominated params blocks) (settled : Settled params (blocks.map ViewBlock.bare) ps)
    {x : Name} (up : Up ps x r) (once : x ∈ onceNames (tempClasses params (blocks.map ViewBlock.bare)))
    (reached : ReachablePoint (blocks.map ViewBlock.bare) pt) (est : Established params (blocks.map ViewBlock.bare) x pt) :
    r ∈ onceNames (tempClasses params (blocks.map ViewBlock.bare)) := by
  obtain ⟨w, walk⟩ := reached
  have each := parent_left dominated settled (w.length + 1) (Nat.lt_succ_self _) walk
  exact (Left.up each up (Established.left once est walk)).1

end

/-! ### What the fixpoint settles -/

section
variable {params : List Param} {bs : List Block} {once : List Name} {b : Block}

/-- A candidate is what defines its name. -/
theorem candidate_cases {c : Candidate} (there : c ∈ blockCandidates once b) :
    (∃ (k : Nat) (d p : Name) (op : Op) (args : List FlightArg),
      b.insts[k]? = some (Inst.flight d op args (.lower (.tmp p))) ∧ c = .flight d p ∧ d ∈ once ∧ p ∈ once) ∨
    ∃ ph ∈ b.phis, ∃ vs, c = .phi ph.dst b.label vs ∧ ph.cls = .p ∧ ph.dst ∈ once ∧
      ∀ pv ∈ ph.pairs, ∃ n, pv.2 = .tmp n ∧ n ∈ once ∧ n ∈ vs := by
  rcases mem_append.1 there with flight | phi
  · obtain ⟨i, inst, found⟩ := mem_filterMap.1 flight
    obtain ⟨d, p, rfl, onceD, onceP, -, op, args, rfl⟩ := flightCandidate_some found
    obtain ⟨k, at_⟩ := mem_iff_getElem?.1 inst
    exact .inl ⟨k, d, p, op, args, at_, rfl, onceD, onceP⟩
  · obtain ⟨ph, of_block, found⟩ := mem_filterMap.1 phi
    obtain ⟨vs, rfl, pointer, onceD, inputs⟩ := phiCandidate_some found
    exact .inr ⟨ph, of_block, vs, rfl, pointer, onceD, inputs⟩

theorem settled_of_stable {places : List (Name × Name)} {iv : Intervals} {rpo : List Name} {ps : Parents}
    (stable : ∀ c ∈ candidates bs (onceNames (tempClasses params bs)) rpo, candRoot places iv ps c = ps)
    (only : ∀ n, n ∉ (candidates bs (onceNames (tempClasses params bs)) rpo).map Candidate.name → ps n = none) :
    Settled params bs ps := by
  have named : ∀ d r, ps d = some r → ∃ c ∈ candidates bs (onceNames (tempClasses params bs)) rpo, c.name = d := by
    intro d r up
    by_contra none_
    rw [only d (fun there => none_ (List.mem_map.1 there))] at up
    cases up
  refine ⟨fun b here k d p r op args at_ up => ?_, fun b here ph phi r up => ?_, fun d r up => ?_⟩
  · obtain ⟨c, cand, name⟩ := named d r up
    obtain ⟨-, -, b', here', -, there⟩ := mem_candidates cand
    rcases candidate_cases there with ⟨k', d', p', op', args', at', rfl, onceD, onceP⟩ | ⟨ph, phi, vs, rfl, -, onceD, -⟩
    · cases name
      have entry := once_site onceD (inst_entry here at_ mem_cons_self) (inst_entry here' at' mem_cons_self) rfl rfl
      have same := Def.inst.inj (congrArg DefEntry.what entry)
      cases same
      exact ⟨onceP, flight_parent (stable _ cand) up⟩
    · cases name
      have entry := once_site onceD (inst_entry here at_ mem_cons_self) (phi_entry here' phi) rfl rfl
      cases congrArg DefEntry.what entry
  · obtain ⟨c, cand, name⟩ := named ph.dst r up
    obtain ⟨-, -, b', here', -, there⟩ := mem_candidates cand
    rcases candidate_cases there with ⟨k', d', p', op', args', at', rfl, onceD, onceP⟩ | ⟨ph', phi', vs, rfl, pointer, onceD, inputs⟩
    · have entry := once_site (onceD) (phi_entry here phi) (inst_entry here' at' mem_cons_self) name.symm rfl
      cases congrArg DefEntry.what entry
    · have entry := once_site onceD (phi_entry here phi) (phi_entry here' phi') name.symm rfl
      have same := Def.phi.inj (congrArg DefEntry.what entry)
      subst same
      refine ⟨pointer, fun pv pair => ?_⟩
      obtain ⟨v, tmp, onceV, vs_⟩ := inputs pv pair
      refine ⟨v, tmp, onceV, ?_⟩
      rcases (phi_parent (stable _ cand) up).2 v vs_ with above | above
      · exact above
      · exact above.trans (.step up (.refl r))
  · obtain ⟨c, cand, name⟩ := named d r up
    obtain ⟨-, -, b', here', -, there⟩ := mem_candidates cand
    rcases candidate_cases there with ⟨k', d', p', op', args', at', rfl, onceD, onceP⟩ | ⟨ph', phi', vs, rfl, pointer, onceD, inputs⟩
    · cases name
      exact ⟨onceD, b', here', .inl ⟨k', op', args', p', at'⟩⟩
    · cases name
      exact ⟨onceD, b', here', .inr ⟨ph', phi', rfl⟩⟩

end

/-- The pointers that share an entry are those of parents that settled, or there are none. -/
theorem derivedLowers_settled {params : List Param} {blocks : List ViewBlock} {derived : List (Name × Name)}
    (done : derivedLowers params blocks = some derived) :
    derived = [] ∨ ∃ cands ps, derived = sharing cands ps ∧ Settled params (blocks.map ViewBlock.bare) ps := by
  rw [derivedLowers] at done
  dsimp only at done
  split_ifs at done
  · exact .inl (Option.some.inj done).symm
  · simp only [bind_eq_bind, bind_eq_some_iff] at done
    obtain ⟨cfg, built, idom, -, iv, -, done⟩ := done
    split at done
    · rename_i ps settled
      obtain ⟨stable, only⟩ := settle_stable (candidates_once built) (fun _ _ => rfl) settled
      exact .inr ⟨_, ps, (Option.some.inj done).symm, settled_of_stable stable only⟩
    · exact .inl (Option.some.inj done).symm

/-- No pointer shares the entry of one that shares another's. -/
theorem derivedLowers_roots {params : List Param} {blocks : List ViewBlock} {derived : List (Name × Name)}
    (done : derivedLowers params blocks = some derived) {d : Name} (there : (d, r) ∈ derived) :
    ∀ s, (r, s) ∉ derived := by
  intro s twice
  rcases derivedLowers_settled done with rfl | ⟨cands, ps, rfl, -⟩
  · cases there
  · obtain ⟨-, -, -, top⟩ := mem_sharing there
    obtain ⟨-, root_, apart, -⟩ := mem_sharing twice
    rw [root_of_none top] at root_
    exact apart root_.symm

end Nanofil.Framing
