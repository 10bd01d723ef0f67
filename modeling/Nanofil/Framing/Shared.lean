import Nanofil.Framing.Ancestry
import Nanofil.Framing.Marks

/-! The lowers that the emitted code stores when derived pointers share their roots'
entries: at every point, a root's entry holds the lower of each live pointer of it. -/
namespace Nanofil.Framing
open Results List Option Walks

/-- The entries of a frame that shares what is derived and nothing else. -/
def rootAliases (derived : List (Name × Name)) : List (FrameKey × FrameKey) :=
  derived.map (fun dr => (.lower (.tmp dr.1), .lower (.tmp dr.2)))

def rootEntries (params : List Param) (blocks : List ViewBlock) (derived : List (Name × Name)) : Entries :=
  entriesOf (rootAliases derived) (pointerTemps (tempClasses params (blocks.map ViewBlock.bare)))

/-! ### Writes -/

/-- A pointer's new lower, and whether its entry is written. -/
structure Write (β : Type) where
  name : Name
  value : β
  stores : Bool

variable {i : Inst} {n d r p : Name} {bs : List Block}

section
variable {β : Type} (e : Entries)

def Machine.write (m : Machine β) (w : Write β) : Machine β :=
  if w.stores then m.define e w.name w.value else m.share w.name w.value

def instWrites (m : Machine β) (i : Inst) (value : Name → β) : List (Write β) :=
  match sharedFlight e i with
  | some (n, p) => [⟨n, m.lower p, false⟩]
  | none => (instDefs i).map (fun n => ⟨n, m.given i value n, true⟩)

def phiWrite (left : Machine β) (value : Name → β) (ph : Phi) : Option (Write β) :=
  if ph.cls = .p then some ⟨ph.dst, left.incoming ph value, !sharedPhi e ph⟩ else none

def paramWrites (m : Machine β) (p : Param) : Option (Write β) :=
  if p.cls = .p then some ⟨p.name, m.lower p.name, true⟩ else none

variable {e} {m left : Machine β} {ws : List (Write β)}

theorem exec_writes {value : Name → β} : m.exec e i value = (instWrites e m i value).foldl (Machine.write e) m := by
  rw [Machine.exec, instWrites]
  cases sharedFlight e i with
  | some np => rfl
  | none =>
    rw [foldl_map]
    rfl

theorem phis_writes {value : Name → β} {phs : List Phi} :
    phs.foldl (Machine.phi e left value) m = (phs.filterMap (phiWrite e left value)).foldl (Machine.write e) m := by
  induction phs generalizing m with
  | nil => rfl
  | cons ph phs ih =>
    rw [foldl_cons, filterMap_cons, ih, Machine.phi, phiWrite]
    by_cases pointer : ph.cls = .p
    · rw [if_pos pointer, if_pos pointer, foldl_cons, Machine.write]
      cases sharedPhi e ph <;> rfl
    · rw [if_neg pointer, if_neg pointer]

theorem receive_lower (p : Param) : (m.receive e p).lower = m.lower := by
  rw [Machine.receive]
  split_ifs
  · rw [Machine.define]
    cases e p.name with
    | none => rfl
    | some k => exact Function.update_eq_self p.name m.lower
  · rfl

theorem receive_writes {ps : List Param} (same : m.lower = left.lower) :
    ps.foldl (Machine.receive e) m = (ps.filterMap (paramWrites left)).foldl (Machine.write e) m := by
  induction ps generalizing m with
  | nil => rfl
  | cons p ps ih =>
    rw [foldl_cons, filterMap_cons, ih ((receive_lower p).trans same), Machine.receive, paramWrites]
    by_cases pointer : p.cls = .p
    · rw [if_pos pointer, if_pos pointer, foldl_cons, Machine.write, if_pos rfl, same]
    · rw [if_neg pointer, if_neg pointer]

/-- What one write leaves of the lowers and the entries. -/
theorem write_lower (w : Write β) (n : Name) : (m.write e w).lower n =
    if n = w.name ∧ (w.stores → (e w.name).isSome) then w.value else m.lower n := by
  rw [Machine.write]
  by_cases stores : w.stores = true
  · rw [if_pos stores, Machine.define]
    cases e w.name with
    | none => simp [stores]
    | some k => simp [Function.update_apply]
  · rw [if_neg stores, Machine.share_lower, Function.update_apply]
    simp [stores]

theorem write_entry (w : Write β) (k : FrameKey) : (m.write e w).entry k =
    if w.stores ∧ e w.name = some k then w.value else m.entry k := by
  rw [Machine.write]
  by_cases stores : w.stores = true
  · rw [if_pos stores, Machine.define]
    cases entry : e w.name with
    | none => simp
    | some k' => simp [Function.update_apply, stores, eq_comm]
  · rw [if_neg stores, Machine.share_entry, if_neg (fun both => stores both.1)]

theorem writes_lower_other (other : n ∉ ws.map Write.name) : (ws.foldl (Machine.write e) m).lower n = m.lower n := by
  induction ws generalizing m with
  | nil => rfl
  | cons w ws ih =>
    rw [map_cons, mem_cons, not_or] at other
    rw [foldl_cons, ih other.2, write_lower, if_neg (fun both => other.1 both.1)]

/-- A name whose writes agree has what they write, when there is one or it had that before. -/
theorem writes_lower {c : β} (agree : ∀ w ∈ ws, w.name = n → w.value = c ∧ (w.stores → (e w.name).isSome))
    (some_ : m.lower n = c ∨ n ∈ ws.map Write.name) : (ws.foldl (Machine.write e) m).lower n = c := by
  induction ws generalizing m with
  | nil => exact some_.resolve_right not_mem_nil
  | cons w ws ih =>
    rw [foldl_cons]
    refine ih (fun w' there => agree w' (mem_cons_of_mem w there)) ?_
    rw [write_lower]
    by_cases own : w.name = n
    · obtain ⟨value, known⟩ := agree w mem_cons_self own
      rw [if_pos ⟨own.symm, known⟩]
      exact .inl value
    · rw [if_neg (fun both => own both.1.symm)]
      rw [map_cons, mem_cons] at some_
      exact some_.imp_right fun there => there.resolve_left (Ne.symm own)

/-- An entry whose writes agree holds what they write, when there is one or it held that before. -/
theorem writes_entry {k : FrameKey} {c : β} (agree : ∀ w ∈ ws, w.stores → e w.name = some k → w.value = c)
    (some_ : m.entry k = c ∨ ∃ w ∈ ws, w.stores ∧ e w.name = some k) : (ws.foldl (Machine.write e) m).entry k = c := by
  induction ws generalizing m with
  | nil => exact some_.resolve_right (by simp)
  | cons w ws ih =>
    rw [foldl_cons]
    refine ih (fun w' there => agree w' (mem_cons_of_mem w there)) ?_
    rw [write_entry]
    by_cases own : w.stores ∧ e w.name = some k
    · rw [if_pos own]
      exact .inl (agree w mem_cons_self own.1 own.2)
    · rw [if_neg own]
      refine some_.imp_right fun ⟨w', there, both⟩ => ?_
      rcases mem_cons.1 there with rfl | there
      · exact absurd both own
      · exact ⟨w', there, both⟩

end

/-! ### The entries -/

section
variable {params : List Param} {blocks : List ViewBlock} {derived : List (Name × Name)} {ps : Parents}

theorem rootAliases_lookup (n : Name) : (rootAliases derived).lookup (.lower (.tmp n)) =
    (derived.lookup n).map (fun r => FrameKey.lower (.tmp r)) := by
  induction derived with
  | nil => rfl
  | cons dr derived ih =>
    obtain ⟨d, r⟩ := dr
    rw [rootAliases, map_cons, lookup_cons, lookup_cons, ← rootAliases, ih]
    by_cases own : n = d
    · subst own
      simp
    · have apart : (n == d) = false := by simpa using own
      have keys : (FrameKey.lower (.tmp n) == FrameKey.lower (.tmp d)) = false := by simpa using own
      rw [apart, keys]

/-- What is shared goes up to a root. -/
def Rooted (derived : List (Name × Name)) (ps : Parents) : Prop :=
  ∀ d r, derived.lookup d = some r → r ≠ d ∧ Up ps d r ∧ ps r = none

theorem mem_of_lookup {l : List (Name × Name)} (found : l.lookup d = some r) : (d, r) ∈ l := by
  obtain ⟨before, after, rfl, -⟩ := lookup_eq_some_iff.1 found
  exact mem_append_right _ mem_cons_self

theorem sharing_rooted {cands : List Candidate} : Rooted (sharing cands ps) ps := by
  intro d r found
  obtain ⟨-, same, apart, top⟩ := mem_sharing (mem_of_lookup found)
  exact ⟨apart, same ▸ up_root ps d, top⟩

theorem sharing_lookup {cands : List Candidate} (there : (d, r) ∈ sharing cands ps) : (sharing cands ps).lookup d = some r := by
  cases found : (sharing cands ps).lookup d with
  | none =>
    rw [lookup_eq_none_iff] at found
    exact absurd (found (d, r) there) (by simp)
  | some r' =>
    obtain ⟨-, same, -, -⟩ := mem_sharing (mem_of_lookup found)
    obtain ⟨-, same', -, -⟩ := mem_sharing there
    rw [← same, same']

/-- A pointer's entry is its own or that of a root above it. -/
theorem rootEntries_up (rooted : Rooted derived ps)
    (entry : rootEntries params blocks derived n = some (.lower (.tmp r))) : n = r ∨ ∃ p, ps n = some p ∧ Up ps p r := by
  rw [rootEntries, entriesOf] at entry
  split_ifs at entry
  rw [entryOf, rootAliases_lookup] at entry
  cases found : derived.lookup n with
  | none =>
    rw [found] at entry
    cases entry
    exact .inl rfl
  | some r' =>
    rw [found] at entry
    cases entry
    obtain ⟨apart, up, -⟩ := rooted n r found
    cases up with
    | refl => exact absurd rfl apart
    | step parent above => exact .inr ⟨_, parent, above⟩

theorem rootEntries_pointer {k : FrameKey} (entry : rootEntries params blocks derived n = some k) :
    (n, Cls.p) ∈ tempClasses params (blocks.map ViewBlock.bare) := by
  rw [rootEntries, entriesOf] at entry
  split_ifs at entry with pointer
  rw [pointerTemps, mem_dedup] at pointer
  obtain ⟨nc, there, rfl⟩ := List.mem_map.1 pointer
  obtain ⟨there, cls⟩ := mem_filter.1 there
  obtain ⟨n, c⟩ := nc
  rw [decide_eq_true_iff] at cls
  exact cls ▸ there

theorem rootEntries_some (pointer : (n, Cls.p) ∈ tempClasses params (blocks.map ViewBlock.bare)) :
    (rootEntries params blocks derived n).isSome := by
  have there : n ∈ pointerTemps (tempClasses params (blocks.map ViewBlock.bare)) := by
    rw [pointerTemps, mem_dedup]
    exact List.mem_map.2 ⟨_, mem_filter.2 ⟨pointer, by simp⟩, rfl⟩
  rw [rootEntries, entriesOf, if_pos there]
  rfl

theorem rootEntries_derived (pointer : (n, Cls.p) ∈ tempClasses params (blocks.map ViewBlock.bare))
    (found : derived.lookup n = some r) : rootEntries params blocks derived n = some (.lower (.tmp r)) := by
  have there : (rootEntries params blocks derived n).isSome := rootEntries_some pointer
  rw [rootEntries, entriesOf] at there ⊢
  split_ifs at there ⊢ with known
  · rw [entryOf, rootAliases_lookup, found]
    rfl
  · cases there

end

/-! ### One step -/

section
variable {β : Type} {params : List Param} {blocks : List ViewBlock} {derived : List (Name × Name)} {ps : Parents}
  {m : Machine β} {pt pt' : Point}

/-- What holds of the lowers of the names that are established at a point. -/
structure Agrees (params : List Param) (blocks : List ViewBlock) (derived : List (Name × Name)) (ps : Parents)
    (m : Machine β) (pt : Point) : Prop where
  lower : ∀ x p, ps x = some p → Established params (blocks.map ViewBlock.bare) x pt → m.lower x = m.lower p
  entry : ∀ x r, rootEntries params blocks derived x = some (.lower (.tmp r)) → ps r = none →
    r ∈ onceNames (tempClasses params (blocks.map ViewBlock.bare)) →
      Established params (blocks.map ViewBlock.bare) x pt → m.entry (.lower (.tmp r)) = m.lower r

/-- A name's lower is that of each name above it. -/
theorem Agrees.up (agrees : Agrees params blocks derived ps m pt) (dominated : Dominated params blocks)
    (settled : Settled params (blocks.map ViewBlock.bare) ps) (reached : ReachablePoint (blocks.map ViewBlock.bare) pt)
    {x : Name} (up : Up ps x r) (est : Established params (blocks.map ViewBlock.bare) x pt) :
    m.lower x = m.lower r ∧ Established params (blocks.map ViewBlock.bare) r pt := by
  induction up with
  | refl => exact ⟨rfl, est⟩
  | step parent _ ih =>
    obtain ⟨same, top⟩ := ih (parent_established dominated settled parent reached est)
    exact ⟨(agrees.lower _ _ parent est).trans same, top⟩

/-- A step to a point that defines the names `ns` and makes the writes `ws`. -/
structure Defines (params : List Param) (blocks : List ViewBlock) (derived : List (Name × Name)) (ps : Parents)
    (m : Machine β) (pt pt' : Point) (ns : List Name) (ws : List (Write β)) : Prop where
  only : ∀ w ∈ ws, w.name ∈ ns
  new : ∀ n ∈ onceNames (tempClasses params (blocks.map ViewBlock.bare)),
    Established params (blocks.map ViewBlock.bare) n pt → n ∉ ns
  past : ∀ n, Established params (blocks.map ViewBlock.bare) n pt' →
    Established params (blocks.map ViewBlock.bare) n pt ∨ n ∈ ns
  derives : ∀ x p, ps x = some p → x ∈ ns → Established params (blocks.map ViewBlock.bare) p pt ∧
    x ∈ ws.map Write.name ∧ ∀ w ∈ ws, w.name = x → w.value = m.lower p ∧ (w.stores → (rootEntries params blocks derived x).isSome)
  shares : ∀ w ∈ ws, w.stores = false → ∀ r, rootEntries params blocks derived w.name = some (.lower (.tmp r)) → ps r = none →
    r ∈ onceNames (tempClasses params (blocks.map ViewBlock.bare)) → m.entry (.lower (.tmp r)) = m.lower r
  roots : ∀ r ∈ ns, ps r = none → r ∈ onceNames (tempClasses params (blocks.map ViewBlock.bare)) →
    rootEntries params blocks derived r = some (.lower (.tmp r)) → ∃ c, (⟨r, c, true⟩ : Write β) ∈ ws ∧
      ∀ w ∈ ws, w.name = r → w.value = c

theorem Agrees.step (rooted : Rooted derived ps) (agrees : Agrees params blocks derived ps m pt)
    (dominated : Dominated params blocks) (settled : Settled params (blocks.map ViewBlock.bare) ps)
    (reached : ReachablePoint (blocks.map ViewBlock.bare) pt) (reached' : ReachablePoint (blocks.map ViewBlock.bare) pt')
    {ns : List Name} {ws : List (Write β)} (defines : Defines params blocks derived ps m pt pt' ns ws) :
    Agrees params blocks derived ps (ws.foldl (Machine.write (rootEntries params blocks derived)) m) pt' := by
  have kept : ∀ n ∈ onceNames (tempClasses params (blocks.map ViewBlock.bare)),
      Established params (blocks.map ViewBlock.bare) n pt →
        (ws.foldl (Machine.write (rootEntries params blocks derived)) m).lower n = m.lower n := by
    intro n once est
    refine writes_lower_other fun there => ?_
    obtain ⟨w, there, named⟩ := List.mem_map.1 there
    exact defines.new n once est (named ▸ defines.only w there)
  -- a derived name that the step defines, from the root that it goes up to
  have derives : ∀ x p r, x ∈ ns → ps x = some p → Up ps p r →
      Established params (blocks.map ViewBlock.bare) r pt ∧ ∀ w ∈ ws, w.name = x → w.value = m.lower r := by
    intro x p r new parent up
    obtain ⟨est, -, values⟩ := defines.derives x p parent new
    obtain ⟨same, top⟩ := agrees.up dominated settled reached up est
    exact ⟨top, fun w there named => ((values w there named).1).trans same⟩
  constructor
  · intro x p parent est
    have onceP := up_once dominated settled (.step parent (.refl p)) (settled.derived x p parent).1 reached' est
    rcases defines.past x est with before | new
    · rw [kept x (settled.derived x p parent).1 before,
        kept p onceP (parent_established dominated settled parent reached before)]
      exact agrees.lower x p parent before
    · obtain ⟨estP, there, values⟩ := defines.derives x p parent new
      rw [kept p onceP estP]
      exact writes_lower (fun w mem named => named ▸ values w mem named) (.inr there)
  · intro x r entry top once est
    by_cases est_r : Established params (blocks.map ViewBlock.bare) r pt
    · rw [kept r once est_r]
      refine writes_entry (fun w there stores entryW => ?_) ?_
      · rcases rootEntries_up rooted entryW with same | ⟨p, parent, up⟩
        · exact absurd (same ▸ defines.only w there) (defines.new r once est_r)
        · exact (derives w.name p r (defines.only w there) parent up).2 w there rfl
      · rcases defines.past x est with before | new
        · exact .inl (agrees.entry x r entry top once before)
        · rcases rootEntries_up rooted entry with same | ⟨p, parent, up⟩
          · exact absurd (same ▸ new) (defines.new r once est_r)
          · obtain ⟨-, there, -⟩ := defines.derives x p parent new
            obtain ⟨w, mem, rfl⟩ := List.mem_map.1 there
            cases stores : w.stores with
            | true => exact .inr ⟨w, mem, stores, entry⟩
            | false => exact .inl (defines.shares w mem stores r entry top once)
    · have own : x = r := by
        rcases rootEntries_up rooted entry with same | ⟨p, parent, up⟩
        · exact same
        · rcases defines.past x est with before | new
          · have estP := parent_established dominated settled parent reached before
            exact absurd (agrees.up dominated settled reached up estP).2 est_r
          · exact absurd (derives x p r new parent up).1 est_r
      subst own
      have new := (defines.past x est).resolve_left est_r
      obtain ⟨c, there, values⟩ := defines.roots x new top once entry
      rw [writes_lower (fun w mem named => ⟨values w mem named, fun _ => by rw [named, entry]; rfl⟩)
        (.inr (List.mem_map.2 ⟨_, there, rfl⟩))]
      refine writes_entry (fun w mem stores entryW => ?_) (.inr ⟨_, there, rfl, entry⟩)
      rcases rootEntries_up rooted entryW with same | ⟨p, parent, up⟩
      · exact values w mem same
      · exact absurd (derives w.name p x (defines.only w mem) parent up).1 est_r

/-- A name of one definition has one class. -/
theorem once_class {c c' : Cls} {defs : List (Name × Cls)} (once : n ∈ onceNames defs) (there : (n, c) ∈ defs)
    (there' : (n, c') ∈ defs) : c = c' := by
  obtain ⟨-, count⟩ := mem_filter.1 once
  rw [decide_eq_true_iff, count_eq_length_filter, List.filter_map, length_map] at count
  obtain ⟨nc, only⟩ := length_eq_one_iff.1 count
  have same : ∀ c, (n, c) ∈ defs → (n, c) = nc := fun c mem =>
    mem_singleton.1 (only ▸ mem_filter.2 ⟨mem, by simp⟩)
  exact congrArg Prod.snd ((same c there).trans (same c' there').symm)

variable {b : Block} {ph : Phi}

theorem inst_class (here : b ∈ bs) {k : Nat} (at_ : b.insts[k]? = some i)
    {nc : Name × Cls} (def_ : nc ∈ instTempDefs i) : nc ∈ tempClasses params bs := by
  refine mem_append_right _ (mem_flatMap.2 ⟨b, here, mem_append_right _ ?_⟩)
  exact mem_flatMap.2 ⟨i, mem_of_getElem? at_, def_⟩

theorem phi_class (here : b ∈ bs) (phi : ph ∈ b.phis) : (ph.dst, ph.cls) ∈ tempClasses params bs :=
  mem_append_right _ (mem_flatMap.2 ⟨b, here, mem_append_left _ (List.mem_map.2 ⟨ph, phi, rfl⟩)⟩)

theorem sharedFlight_cases {e : Entries} (shared : sharedFlight e i = some (n, p)) :
    (∃ op args, i = .flight n op args (.lower (.tmp p))) ∧ p ≠ n ∧ e p = e n := by
  unfold sharedFlight at shared
  split at shared
  · split_ifs at shared with alike
    cases shared
    exact ⟨⟨_, _, rfl⟩, alike.1, alike.2.2⟩
  · cases shared

/-- An instruction of the function is such a step. -/
theorem inst_defines (rooted : Rooted derived ps) (dominated : Dominated params blocks)
    (settled : Settled params (blocks.map ViewBlock.bare) ps) (here : b ∈ blocks.map ViewBlock.bare) {k : Nat}
    (at_ : b.insts[k]? = some i) (reached : ReachablePoint (blocks.map ViewBlock.bare) ⟨b.label, k⟩)
    (agrees : Agrees params blocks derived ps m ⟨b.label, k⟩) (value : Name → β) :
    Defines params blocks derived ps m ⟨b.label, k⟩ ⟨b.label, k + 1⟩ (instDefs i)
      (instWrites (rootEntries params blocks derived) m i value) := by
  have new : ∀ n ∈ onceNames (tempClasses params (blocks.map ViewBlock.bare)),
      Established params (blocks.map ViewBlock.bare) n ⟨b.label, k⟩ → n ∉ instDefs i := by
    intro n once est
    obtain ⟨d, single⟩ := once_single once
    exact established_kept single here at_ reached est
  have donor : ∀ {n op args p}, i = .flight n op args (.lower (.tmp p)) →
      Established params (blocks.map ViewBlock.bare) p ⟨b.label, k⟩ := by
    rintro n op args p rfl
    exact inst_use dominated.ssa here at_ reached (by simp [instUses, mem_temps])
  refine ⟨?_, new, fun n est => established_next dominated.ssa here at_ est, ?_, ?_, ?_⟩
  · intro w there
    rw [instWrites] at there
    cases shared : sharedFlight (rootEntries params blocks derived) i with
    | none =>
      rw [shared] at there
      obtain ⟨n, def_, rfl⟩ := List.mem_map.1 there
      exact def_
    | some np =>
      obtain ⟨n, p⟩ := np
      rw [shared] at there
      obtain ⟨⟨op, args, rfl⟩, -, -⟩ := sharedFlight_cases shared
      rw [mem_singleton.1 there]
      exact mem_cons_self
  · intro x p parent def_
    obtain ⟨onceX, b', here', ⟨k', op, args, q, at'⟩ | ⟨ph, phi, dst⟩⟩ := settled.derived x p parent
    · have entry := once_site onceX (inst_entry here at_ def_) (inst_entry here' at' mem_cons_self) rfl rfl
      have same := Def.inst.inj (congrArg DefEntry.what entry)
      subst same
      have place := Site.at_.inj (congrArg DefEntry.site entry)
      obtain ⟨-, up⟩ := settled.flight b' here' k' x q p op args at' parent
      obtain ⟨lower, est⟩ := agrees.up dominated settled reached up (donor rfl)
      refine ⟨est, ?_⟩
      have pointer : (rootEntries params blocks derived x).isSome :=
        rootEntries_some (inst_class here at_ mem_cons_self)
      rw [instWrites]
      cases shared : sharedFlight (rootEntries params blocks derived) (.flight x op args (.lower (.tmp q))) with
      | none =>
        refine ⟨List.mem_map.2 ⟨_, List.mem_map.2 ⟨x, mem_cons_self, rfl⟩, rfl⟩, fun w there _ => ?_⟩
        obtain ⟨n, def_', rfl⟩ := List.mem_map.1 there
        exact ⟨lower, fun _ => pointer⟩
      | some np =>
        obtain ⟨n, p'⟩ := np
        obtain ⟨⟨op', args', same⟩, -, -⟩ := sharedFlight_cases shared
        cases same
        refine ⟨mem_cons_self, fun w there _ => ?_⟩
        rw [mem_singleton.1 there]
        exact ⟨lower, fun _ => pointer⟩
    · have entry := once_site onceX (inst_entry here at_ def_) (phi_entry here' phi) rfl dst
      cases congrArg DefEntry.what entry
  · intro w there kept r entry top once
    rw [instWrites] at there
    cases shared : sharedFlight (rootEntries params blocks derived) i with
    | none =>
      rw [shared] at there
      obtain ⟨n, -, rfl⟩ := List.mem_map.1 there
      cases kept
    | some np =>
      obtain ⟨n, p⟩ := np
      rw [shared] at there
      obtain ⟨⟨op, args, flight⟩, -, alike⟩ := sharedFlight_cases shared
      rw [mem_singleton.1 there] at entry
      exact agrees.entry p r (alike.trans entry) top once (donor flight)
  · intro r def_ top once entry
    rw [instWrites]
    cases shared : sharedFlight (rootEntries params blocks derived) i with
    | none =>
      refine ⟨_, List.mem_map.2 ⟨r, def_, rfl⟩, fun w there named => ?_⟩
      obtain ⟨n, -, rfl⟩ := List.mem_map.1 there
      exact congrArg (m.given i value) named
    | some np =>
      obtain ⟨n, p⟩ := np
      obtain ⟨⟨op, args, rfl⟩, apart, alike⟩ := sharedFlight_cases shared
      have own : r = n := mem_singleton.1 def_
      subst own
      rcases rootEntries_up rooted (alike.trans entry) with same | ⟨p', parent, up⟩
      · exact absurd same apart
      · have est := (agrees.up dominated settled reached (.step parent up) (donor rfl)).2
        exact absurd def_ (new r once est)

/-- What a derived phi receives is the lower of its parent. -/
theorem incoming_parent (dominated : Dominated params blocks) (settled : Settled params (blocks.map ViewBlock.bare) ps)
    {s : ViewBlock} (here : m.block ∈ blocks) (there : s ∈ blocks) (edge : s.label ∈ jumpLabels m.block.jump)
    (reached : ReachablePoint (blocks.map ViewBlock.bare) ⟨m.block.label, m.block.bare.insts.length⟩)
    (reached' : ReachablePoint (blocks.map ViewBlock.bare) ⟨s.label, -1⟩)
    (agrees : Agrees params blocks derived ps m ⟨m.block.label, m.block.bare.insts.length⟩) (value : Name → β)
    (phi : ph ∈ s.phis) (parent : ps ph.dst = some p) : m.incoming ph value = m.lower p := by
  have memS : s.bare ∈ blocks.map ViewBlock.bare := List.mem_map_of_mem there
  have memB : m.block.bare ∈ blocks.map ViewBlock.bare := List.mem_map_of_mem here
  have pred : m.block.label ∈ blockPreds (blocks.map ViewBlock.bare) s.label :=
    mem_blockPreds (blockEdge_jump dominated.ssa.labels memB edge)
  obtain ⟨w, pair⟩ := dominated.args s there ph phi _ pred
  rw [Machine.incoming]
  cases found : ph.pairs.find? (·.1 = m.block.label) with
  | none =>
    rw [find?_eq_none] at found
    exact absurd (found _ pair) (by simp)
  | some lv =>
    obtain ⟨l, v⟩ := lv
    have mem := mem_of_find?_eq_some found
    have label : l = m.block.label := by simpa using find?_some found
    subst label
    obtain ⟨u, tmp, -, up⟩ := (settled.phi s.bare memS ph phi p parent).2 _ mem
    dsimp only at tmp
    subst tmp
    have est := phi_use dominated.ssa memS memB reached' reached phi mem
    exact (agrees.up dominated settled reached up est).1

theorem mem_phiWrites {e : Entries} {left : Machine β} {value : Name → β} {phs : List Phi} {w : Write β}
    (there : w ∈ phs.filterMap (phiWrite e left value)) :
    ∃ ph ∈ phs, ph.cls = .p ∧ w = ⟨ph.dst, left.incoming ph value, !sharedPhi e ph⟩ := by
  obtain ⟨ph, phi, some_⟩ := mem_filterMap.1 there
  rw [phiWrite] at some_
  split_ifs at some_ with pointer
  exact ⟨ph, phi, pointer, (Option.some.inj some_).symm⟩

theorem sharedPhi_alike {e : Entries} (shared : sharedPhi e ph = true) {pv : Name × Value} (pair : pv ∈ ph.pairs) :
    ∃ v, pv.2 = .tmp v ∧ e v = e ph.dst := by
  rw [sharedPhi, Bool.and_eq_true, List.all_eq_true] at shared
  have temp := shared.2 pv pair
  obtain ⟨l, v⟩ := pv
  cases v with
  | tmp n => exact ⟨n, rfl, by simpa using temp⟩
  | const c => cases temp
  | global g => cases temp

/-- An edge's phis are such a step. -/
theorem phi_defines (rooted : Rooted derived ps) (dominated : Dominated params blocks)
    (settled : Settled params (blocks.map ViewBlock.bare) ps) {s : ViewBlock} (here : m.block ∈ blocks) (there : s ∈ blocks)
    (edge : s.label ∈ jumpLabels m.block.jump)
    (reached : ReachablePoint (blocks.map ViewBlock.bare) ⟨m.block.label, m.block.bare.insts.length⟩)
    (reached' : ReachablePoint (blocks.map ViewBlock.bare) ⟨s.label, -1⟩)
    (agrees : Agrees params blocks derived ps m ⟨m.block.label, m.block.bare.insts.length⟩) (value : Name → β) :
    Defines params blocks derived ps m ⟨s.label, -1⟩ ⟨s.label, 0⟩ (s.phis.map (·.dst))
      (s.phis.filterMap (phiWrite (rootEntries params blocks derived) m value)) := by
  have memS : s.bare ∈ blocks.map ViewBlock.bare := List.mem_map_of_mem there
  have memB : m.block.bare ∈ blocks.map ViewBlock.bare := List.mem_map_of_mem here
  have new : ∀ n ∈ onceNames (tempClasses params (blocks.map ViewBlock.bare)),
      Established params (blocks.map ViewBlock.bare) n ⟨s.label, -1⟩ → n ∉ s.phis.map (·.dst) := by
    intro n once est named
    obtain ⟨d, single⟩ := once_single once
    obtain ⟨ph, phi, dst⟩ := List.mem_map.1 named
    exact established_phi single memS phi reached' est dst
  -- a name of one definition that is a phi is one phi
  have one : ∀ ph ∈ s.phis, ∀ ph' ∈ s.phis, ph.dst ∈ onceNames (tempClasses params (blocks.map ViewBlock.bare)) →
      ph'.dst = ph.dst → ph' = ph := by
    intro ph phi ph' phi' once named
    have entry := once_site once (phi_entry (b := s.bare) memS phi') (phi_entry (b := s.bare) memS phi) named rfl
    exact Def.phi.inj (congrArg DefEntry.what entry)
  have pred : m.block.label ∈ blockPreds (blocks.map ViewBlock.bare) s.label :=
    mem_blockPreds (blockEdge_jump dominated.ssa.labels memB edge)
  refine ⟨?_, new, ?_, ?_, ?_, ?_⟩
  · intro w mem
    obtain ⟨ph, phi, -, rfl⟩ := mem_phiWrites mem
    exact List.mem_map.2 ⟨ph, phi, rfl⟩
  · intro n est
    refine (established_phis dominated.ssa (b := s.bare) memS est).imp id fun ⟨ph, phi, named⟩ => ?_
    exact List.mem_map.2 ⟨ph, phi, named⟩
  · intro x p parent named
    obtain ⟨ph, phi, rfl⟩ := List.mem_map.1 named
    obtain ⟨pointer, inputs⟩ := settled.phi s.bare memS ph phi p parent
    refine ⟨phi_established dominated settled there phi inputs reached', ?_, fun w mem same => ?_⟩
    · exact List.mem_map.2 ⟨_, mem_filterMap.2 ⟨ph, phi, if_pos pointer⟩, rfl⟩
    · obtain ⟨ph', phi', -, rfl⟩ := mem_phiWrites mem
      have alike := one ph phi ph' phi' (settled.derived _ p parent).1 same
      subst alike
      refine ⟨incoming_parent dominated settled here there edge reached reached' agrees value phi parent, fun _ => ?_⟩
      exact rootEntries_some (pointer ▸ phi_class (b := s.bare) memS phi)
  · intro w mem kept r entry top once
    obtain ⟨ph, phi, -, rfl⟩ := mem_phiWrites mem
    have shared : sharedPhi (rootEntries params blocks derived) ph = true := by simpa using kept
    obtain ⟨v, pair⟩ := dominated.args s there ph phi _ pred
    obtain ⟨u, tmp, alike⟩ := sharedPhi_alike shared pair
    dsimp only at tmp
    subst tmp
    exact agrees.entry u r (alike.trans entry) top once (phi_use dominated.ssa memS memB reached' reached phi pair)
  · intro r named top once entry
    obtain ⟨ph, phi, rfl⟩ := List.mem_map.1 named
    have pointer : ph.cls = .p := once_class once (phi_class (b := s.bare) memS phi) (rootEntries_pointer entry)
    have apart : sharedPhi (rootEntries params blocks derived) ph = false := by
      rw [← Bool.not_eq_true]
      intro shared
      -- its inputs would have to come from it, on every way into its block
      have inputs : ∀ pv ∈ ph.pairs, ∃ v, pv.2 = .tmp v ∧
          v ∈ onceNames (tempClasses params (blocks.map ViewBlock.bare)) ∧ Up ps v ph.dst := by
        intro pv pair
        obtain ⟨v, tmp, alike⟩ := sharedPhi_alike shared pair
        rcases rootEntries_up rooted (alike.trans entry) with same | ⟨p, parent, up⟩
        · exact ⟨v, tmp, same ▸ once, same ▸ .refl v⟩
        · exact ⟨v, tmp, (settled.derived v p parent).1, .step parent up⟩
      exact new ph.dst once (phi_established dominated settled there phi inputs reached') named
    refine ⟨m.incoming ph value, mem_filterMap.2 ⟨ph, phi, ?_⟩, fun w mem same => ?_⟩
    · rw [phiWrite, if_pos pointer, apart]
      rfl
    · obtain ⟨ph', phi', -, rfl⟩ := mem_phiWrites mem
      rw [one ph phi ph' phi' once same]

/-! ### Runs -/

/-- Where a run is, and what holds there. -/
structure Stored (params : List Param) (blocks : List ViewBlock) (derived : List (Name × Name)) (ps : Parents)
    (m : Machine β) : Prop where
  here : m.block ∈ blocks
  within : m.at_ ≤ m.block.insts.length
  reached : ReachablePoint (blocks.map ViewBlock.bare) ⟨m.block.label, m.at_⟩
  agrees : Agrees params blocks derived ps m ⟨m.block.label, m.at_⟩

/-- The lowers of a machine and what its entries hold are all that the facts are about. -/
theorem Agrees.place {m' : Machine β} (agrees : Agrees params blocks derived ps m pt) (lower : m'.lower = m.lower)
    (entry : m'.entry = m.entry) : Agrees params blocks derived ps m' pt := by
  constructor
  · rw [lower]
    exact agrees.lower
  · rw [lower, entry]
    exact agrees.entry

theorem Defines.done {ns : List Name} {ws : List (Write β)} (rooted : Rooted derived ps)
    (agrees : Agrees params blocks derived ps m pt) (dominated : Dominated params blocks)
    (settled : Settled params (blocks.map ViewBlock.bare) ps) (reached : ReachablePoint (blocks.map ViewBlock.bare) pt)
    (edge : PointEdge (blocks.map ViewBlock.bare) pt pt') (defines : Defines params blocks derived ps m pt pt' ns ws) :
    Agrees params blocks derived ps (ws.foldl (Machine.write (rootEntries params blocks derived)) m) pt' :=
  agrees.step rooted dominated settled reached (reached.step edge) defines

/-- The parameters are all that is established where a run begins. -/
theorem start_agrees (rooted : Rooted derived ps) (dominated : Dominated params blocks)
    (settled : Settled params (blocks.map ViewBlock.bare) ps) (first : blocks.head? = some m.block) :
    Agrees params blocks derived ps (params.foldl (Machine.receive (rootEntries params blocks derived)) m) ⟨m.block.label, 0⟩ := by
  have here : m.block ∈ blocks := mem_of_mem_head? first
  have entry_ : m.block.label = blocksEntry (blocks.map ViewBlock.bare) := by
    rw [blocksEntry, head?_map, first]
    rfl
  have param : ∀ n, Established params (blocks.map ViewBlock.bare) n ⟨m.block.label, 0⟩ → ∃ p ∈ params, p.name = n := by
    intro n est
    rcases established_phis dominated.ssa (b := m.block.bare) (List.mem_map_of_mem here) est with before | ⟨ph, phi, -⟩
    · change Established params _ n ⟨m.block.label, -1⟩ at before
      rw [entry_] at before
      exact established_start before
    · rw [ViewBlock.bare, dominated.entryPhis m.block here entry_] at phi
      cases phi
  have underived : ∀ q ∈ params, ps q.name = none := by
    intro q mem
    by_contra up
    obtain ⟨r, parent⟩ := ne_none_iff_exists'.1 up
    have entry : (⟨q.name, .param, .param⟩ : DefEntry) ∈ defEntries params (blocks.map ViewBlock.bare) :=
      mem_append_left _ (List.mem_map.2 ⟨q, mem, rfl⟩)
    obtain ⟨once, b, memB, ⟨k, op, args, donor, at_⟩ | ⟨ph, phi, dst⟩⟩ := settled.derived q.name r parent
    · cases once_site once entry (inst_entry memB at_ mem_cons_self) rfl rfl
    · cases congrArg DefEntry.what (once_site once entry (phi_entry memB phi) rfl dst)
  rw [receive_writes (rfl : m.lower = m.lower)]
  constructor
  · intro x p parent est
    obtain ⟨q, mem, rfl⟩ := param x est
    rw [underived q mem] at parent
    cases parent
  · intro x r entry top once est
    obtain ⟨q, mem, rfl⟩ := param x est
    rcases rootEntries_up rooted entry with same | ⟨p, parent, -⟩
    · subst same
      have pointer : q.cls = .p := by
        refine once_class once ?_ (rootEntries_pointer entry)
        exact mem_append_left _ (List.mem_map.2 ⟨q, mem, rfl⟩)
      have writes : ∀ w ∈ params.filterMap (paramWrites m), ∃ p ∈ params, w = ⟨p.name, m.lower p.name, true⟩ := by
        intro w there
        obtain ⟨p, memP, some_⟩ := mem_filterMap.1 there
        rw [paramWrites] at some_
        split_ifs at some_
        exact ⟨p, memP, (Option.some.inj some_).symm⟩
      have lower : ((params.filterMap (paramWrites m)).foldl (Machine.write (rootEntries params blocks derived)) m).lower q.name =
          m.lower q.name := by
        refine writes_lower (fun w there named => ?_) (.inl rfl)
        obtain ⟨p, -, rfl⟩ := writes w there
        exact ⟨congrArg m.lower named, fun _ => by rw [named, entry]; rfl⟩
      rw [lower]
      refine writes_entry (fun w there _ entryW => ?_) (.inr ⟨⟨q.name, m.lower q.name, true⟩, ?_, rfl, entry⟩)
      · obtain ⟨p, memP, rfl⟩ := writes w there
        rcases rootEntries_up rooted entryW with same | ⟨p', parent, -⟩
        · exact congrArg m.lower same
        · rw [underived p memP] at parent
          cases parent
      · exact mem_filterMap.2 ⟨q, mem, if_pos pointer⟩
    · rw [underived q mem] at parent
      cases parent

theorem Run.stored (rooted : Rooted derived ps) (dominated : Dominated params blocks)
    (settled : Settled params (blocks.map ViewBlock.bare) ps)
    (run : Run (rootEntries params blocks derived) params blocks (fun _ => True) m) : Stored params blocks derived ps m := by
  induction run with
  | @start m first begins =>
    have here : m.block ∈ blocks := mem_of_mem_head? first
    obtain ⟨block, at_⟩ := @receive_place β m (rootEntries params blocks derived) params
    have reached : ReachablePoint (blocks.map ViewBlock.bare) ⟨m.block.label, 0⟩ := by
      have entry : (⟨m.block.label, -1⟩ : Point) = startPoint (blocks.map ViewBlock.bare) := by
        rw [startPoint, blocksEntry, head?_map, first]
        rfl
      have start : ReachablePoint (blocks.map ViewBlock.bare) ⟨m.block.label, -1⟩ := entry ▸ Reachable.start
      exact start.step (.next (b := m.block.bare) (List.mem_map_of_mem here) (by omega) (by omega))
    refine ⟨by rwa [block], by rw [at_, begins]; exact Nat.zero_le _, ?_, ?_⟩
    · rw [block, at_, begins]
      exact reached
    · rw [block, at_, begins]
      exact start_agrees rooted dominated settled first
  | @inst m i run at_ value ih =>
    have memB : m.block.bare ∈ blocks.map ViewBlock.bare := List.mem_map_of_mem ih.here
    have lt := (List.getElem?_eq_some_iff.1 at_).1
    have bare : m.block.bare.insts[m.at_]? = some i.bare := by
      rw [ViewBlock.bare, getElem?_map, at_]
      rfl
    have edge : PointEdge (blocks.map ViewBlock.bare) ⟨m.block.label, m.at_⟩ ⟨m.block.label, m.at_ + 1⟩ :=
      .next (b := m.block.bare) memB (by omega) (by rw [ViewBlock.bare, length_map]; exact_mod_cast lt)
    have defines := inst_defines rooted dominated settled memB bare ih.reached ih.agrees value
    have agrees := defines.done rooted ih.agrees dominated settled ih.reached edge
    rw [← exec_writes] at agrees
    refine ⟨?_, ?_, ?_, ?_⟩
    · dsimp only
      rw [exec_block]
      exact ih.here
    · dsimp only
      rw [exec_block]
      exact lt
    · dsimp only
      rw [exec_block]
      exact_mod_cast ih.reached.step edge
    · dsimp only
      rw [exec_block]
      rw [← Nat.cast_add_one] at agrees
      exact agrees.place rfl rfl
  | @enter m s run ends there jumps _ value ih =>
    have memB : m.block.bare ∈ blocks.map ViewBlock.bare := List.mem_map_of_mem ih.here
    have size : m.block.bare.insts.length = m.at_ := by rw [ends, ViewBlock.bare, length_map]
    have target : s.label ∈ jumpLabels m.block.jump := mem_jumpSuccs.1 jumps
    have reached : ReachablePoint (blocks.map ViewBlock.bare) ⟨m.block.label, m.block.bare.insts.length⟩ := size ▸ ih.reached
    have agrees : Agrees params blocks derived ps m ⟨m.block.label, m.block.bare.insts.length⟩ := size ▸ ih.agrees
    have reached' : ReachablePoint (blocks.map ViewBlock.bare) ⟨s.label, -1⟩ := reached.step (.jump (b := m.block.bare) memB target)
    have edge : PointEdge (blocks.map ViewBlock.bare) ⟨s.label, -1⟩ ⟨s.label, 0⟩ :=
      .next (b := s.bare) (List.mem_map_of_mem there) (by omega) (by omega)
    have before : Agrees params blocks derived ps m ⟨s.label, -1⟩ := by
      constructor
      · exact fun x p parent est => agrees.lower x p parent (established_edge dominated.ssa (b := m.block.bare) memB target est)
      · exact fun x r entry top once est =>
          agrees.entry x r entry top once (established_edge dominated.ssa (b := m.block.bare) memB target est)
    have defines := phi_defines rooted dominated settled ih.here there target reached reached' agrees value
    have after := defines.done rooted before dominated settled reached' edge
    rw [← phis_writes] at after
    exact ⟨there, Nat.zero_le _, reached'.step edge, after.place rfl rfl⟩

end

/-- A live name is established. -/
theorem LiveAt.established {params : List Param} {blocks : List ViewBlock} (dominated : Dominated params blocks)
    {b : ViewBlock} {k : Nat} (alive : LiveAt blocks n b k) (reached : ReachablePoint (blocks.map ViewBlock.bare) ⟨b.label, k⟩) :
    Established params (blocks.map ViewBlock.bare) n ⟨b.label, k⟩ := by
  induction alive with
  | @reads b k i here at_ use => exact dominated.reads b here k i at_ reached n use
  | @passes b k i here at_ kept _ ih =>
    have memB : b.bare ∈ blocks.map ViewBlock.bare := List.mem_map_of_mem here
    have lt := (List.getElem?_eq_some_iff.1 at_).1
    have bare : b.bare.insts[k]? = some i.bare := by
      rw [ViewBlock.bare, getElem?_map, at_]
      rfl
    have edge : PointEdge (blocks.map ViewBlock.bare) ⟨b.label, k⟩ ⟨b.label, k + 1⟩ :=
      .next (b := b.bare) memB (by omega) (by rw [ViewBlock.bare, length_map]; exact_mod_cast lt)
    have est := ih (by exact_mod_cast reached.step edge)
    exact (established_next dominated.ssa memB bare (by exact_mod_cast est)).resolve_right kept
  | @jumps b here use =>
    have memB : b.bare ∈ blocks.map ViewBlock.bare := List.mem_map_of_mem here
    have size : b.bare.insts.length = b.insts.length := by rw [ViewBlock.bare, length_map]
    exact size ▸ jump_use dominated.ssa memB (size ▸ reached) use
  | @edge b s ph here there jumps phi pair =>
    have memB : b.bare ∈ blocks.map ViewBlock.bare := List.mem_map_of_mem here
    have size : b.bare.insts.length = b.insts.length := by rw [ViewBlock.bare, length_map]
    have into : ReachablePoint (blocks.map ViewBlock.bare) ⟨s.label, -1⟩ :=
      Reachable.step (size ▸ reached) (.jump (b := b.bare) memB (mem_jumpSuccs.1 jumps))
    exact size ▸ phi_use dominated.ssa (b := s.bare) (List.mem_map_of_mem there) memB into (size ▸ reached) phi pair
  | @enters b s here there jumps kept _ ih =>
    have memB : b.bare ∈ blocks.map ViewBlock.bare := List.mem_map_of_mem here
    have memS : s.bare ∈ blocks.map ViewBlock.bare := List.mem_map_of_mem there
    have size : b.bare.insts.length = b.insts.length := by rw [ViewBlock.bare, length_map]
    have target : s.label ∈ jumpLabels b.bare.jump := mem_jumpSuccs.1 jumps
    have into : ReachablePoint (blocks.map ViewBlock.bare) ⟨s.label, -1⟩ :=
      Reachable.step (size ▸ reached) (.jump (b := b.bare) memB target)
    have est := ih (into.step (.next (b := s.bare) memS (by omega) (by omega)))
    rcases established_phis dominated.ssa (b := s.bare) memS est with est | ⟨ph, phi, named⟩
    · exact size ▸ established_edge dominated.ssa memB target est
    · exact absurd (List.mem_map.2 ⟨ph, phi, named⟩) kept

theorem Settled.pointer {params : List Param} {ps : Parents} (settled : Settled params bs ps)
    (parent : ps d = some p) : (d, Cls.p) ∈ tempClasses params bs := by
  obtain ⟨-, b, here, ⟨k, op, args, q, at_⟩ | ⟨ph, phi, rfl⟩⟩ := settled.derived d p parent
  · exact inst_class here at_ mem_cons_self
  · exact (settled.phi b here ph phi p parent).1 ▸ phi_class here phi

/-- The map that is derived is what settled in the rounds, or it is empty. -/
def Settles (derived : List (Name × Name)) : Prop :=
  derived = [] ∨ ∃ places iv cands ps, settle places iv cands 32 (fun _ => none) = some ps ∧ derived = sharing cands ps

theorem derivedLowers_settles {params : List Param} {blocks : List ViewBlock} {derived : List (Name × Name)}
    (done : derivedLowers params blocks = some derived) : Settles derived := by
  rw [derivedLowers] at done
  dsimp only at done
  split_ifs at done
  · exact .inl (Option.some.inj done).symm
  · simp only [bind_found] at done
    obtain ⟨cfg, -, idom, -, iv, -, done⟩ := done
    split at done
    · rename_i ps settled
      exact .inr ⟨_, _, _, ps, settled, (Option.some.inj done).symm⟩
    · exact .inl (Option.some.inj done).symm

theorem derivedLowers_total {params : List Param} {blocks : List ViewBlock} (dominated : Dominated params blocks) :
    ∃ derived, derivedLowers params blocks = some derived := by
  have dominate := dominated.ssa.dominate
  unfold definitionsDominate at dominate
  split at dominate
  · rename_i iv built
    simp only [blockIntervals, bind_found] at built
    obtain ⟨cfg, cfgBuilt, idom, idomBuilt, ivBuilt⟩ := built
    rw [derivedLowers]
    dsimp only
    split_ifs
    · exact ⟨_, rfl⟩
    · simp only [bind_eq_bind, cfgBuilt, bind_some, idomBuilt, ivBuilt]
      split
      · exact ⟨_, rfl⟩
      · exact ⟨_, rfl⟩
  · cases dominate

/-- A root's entry holds the lower of every live pointer that shares it, at every point of every run;
a pointer shares the entry of one that has its own, and unsettled parents share nothing. -/
theorem derived_lower_stored {params : List Param} {blocks : List ViewBlock} (dominated : Dominated params blocks) :
    ∃ derived, derivedLowers params blocks = some derived ∧ Settles derived ∧
      (∀ d r, (d, r) ∈ derived → ∀ s, (r, s) ∉ derived) ∧
      ∀ {β : Type} (m : Machine β), Run (rootEntries params blocks derived) params blocks (fun _ => True) m →
        ∀ d r, (d, r) ∈ derived → LiveAt blocks d m.block m.at_ → m.entry (.lower (.tmp r)) = m.lower d := by
  obtain ⟨derived, done⟩ := derivedLowers_total dominated
  refine ⟨derived, done, derivedLowers_settles done, fun d r there => derivedLowers_roots done there, ?_⟩
  intro β m run d r there alive
  rcases derivedLowers_settled done with rfl | ⟨cands, ps, rfl, settled⟩
  · cases there
  · have stored := run.stored sharing_rooted dominated settled
    have est := alive.established dominated stored.reached
    have found := sharing_lookup there
    obtain ⟨apart, up, top⟩ := sharing_rooted d r found
    obtain ⟨lower, estR⟩ := stored.agrees.up dominated settled stored.reached up est
    cases up with
    | refl => exact absurd rfl apart
    | @step _ p _ parent above =>
      have once := up_once dominated settled (.step parent above) (settled.derived d p parent).1 stored.reached est
      rw [lower]
      exact stored.agrees.entry d r (rootEntries_derived (settled.pointer parent) found) top once est

/-- Blocks whose instructions read no more than their own operands have nothing else to dominate. -/
theorem Dominated.of_plain {params : List Param} {blocks : List ViewBlock} (ssa : Ssa params (blocks.map ViewBlock.bare))
    (args : ∀ b ∈ blocks, ∀ ph ∈ b.phis, ∀ p ∈ blockPreds (blocks.map ViewBlock.bare) b.label, ∃ v, (p, v) ∈ ph.pairs)
    (entryPhis : ∀ b ∈ blocks, b.label = blocksEntry (blocks.map ViewBlock.bare) → b.phis = [])
    (plain : ∀ b ∈ blocks, ∀ i ∈ b.insts, i.reads = instUses i.bare) : Dominated params blocks := by
  refine ⟨ssa, args, entryPhis, fun b here k i at_ reached n use => ?_⟩
  rw [plain b here i (mem_of_getElem? at_)] at use
  have bare : b.bare.insts[k]? = some i.bare := by
    rw [ViewBlock.bare, getElem?_map, at_]
    rfl
  exact inst_use ssa (b := b.bare) (List.mem_map_of_mem here) bare reached use

/-- A pointer that goes on by eight in a loop, and shares the parameter's entry. -/
def strideBlocks : List ViewBlock :=
  [⟨"start", [], [], .goto (.label "loop")⟩,
    ⟨"loop", [⟨"q", .p, [("start", .tmp "a"), ("loop", .tmp "r")]⟩],
      [.plain (.flight "r" .add [.address (.tmp "q"), .value (.const 8)] (.lower (.tmp "q"))),
        .plain (.let_ "v" .l (.load .l) [.tmp "r"])],
      .branch (.tmp "v") (.label "loop") (.label "done")⟩,
    ⟨"done", [], [], .ret (.tmp "v")⟩]

theorem stride_dominated : Dominated [⟨.p, "a"⟩] strideBlocks := by
  refine .of_plain ⟨by decide, by decide, by decide +kernel⟩ ?_ (by decide) (by decide)
  intro b here ph phi p pred
  have only : ∀ b ∈ strideBlocks, ∀ ph ∈ b.phis, ∀ p ∈ blockPreds (strideBlocks.map ViewBlock.bare) b.label,
      p ∈ ph.pairs.map (·.1) := by decide
  obtain ⟨lv, there, rfl⟩ := List.mem_map.1 (only b here ph phi p pred)
  exact ⟨lv.2, there⟩

example : derivedLowers [⟨.p, "a"⟩] strideBlocks = some [("r", "a"), ("q", "a")] := by decide +kernel

theorem derived_lower_stored_stride :
    ∃ derived, derivedLowers [⟨.p, "a"⟩] strideBlocks = some derived ∧ Settles derived ∧
      (∀ d r, (d, r) ∈ derived → ∀ s, (r, s) ∉ derived) ∧
      ∀ {β : Type} (m : Machine β), Run (rootEntries [⟨.p, "a"⟩] strideBlocks derived) [⟨.p, "a"⟩] strideBlocks (fun _ => True) m →
        ∀ d r, (d, r) ∈ derived → LiveAt strideBlocks d m.block m.at_ → m.entry (.lower (.tmp r)) = m.lower d :=
  derived_lower_stored stride_dominated

end Nanofil.Framing
