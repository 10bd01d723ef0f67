import Nanofil.Framing.Hulls
import Nanofil.Lib.Traversals
import Nanofil.Lib.Results

/-! Temporaries that share a slot are never needed together: what `tempSlots` packs into one
slot has intervals that are apart, and the intervals hold every point that needs them. -/
namespace Nanofil.Framing
open Results List Option Packing Traversals

/-- A function as `ir.pl` accepts it, its proofs fused with their accesses: distinct labels, an entry, jumps to labels,
and one class of values for each temporary. -/
structure Framed (params : List Param) (blocks : List ViewBlock) : Prop where
  labels : (blocks.map (·.label)).Nodup
  entry : blocks ≠ []
  exist : labelsExist (blocks.map ViewBlock.bare) = true
  value : ∀ d ∈ tempClasses params (blocks.map ViewBlock.bare), anyClass d.2 = true
  classes : ∀ d ∈ tempClasses params (blocks.map ViewBlock.bare), ∀ d' ∈ tempClasses params (blocks.map ViewBlock.bare),
    d.1 = d'.1 → d.2 = d'.2

section
variable {params : List Param} {blocks : List ViewBlock} {live : Liveness}

/-! ### The temporaries -/

theorem mem_frameTemps {d : Name × Cls} :
    d ∈ frameTemps params blocks ↔ d ∈ tempClasses params (blocks.map ViewBlock.bare) := by
  rw [frameTemps, mem_insertionSort, mem_dedup]

theorem Framed.oneClass (framed : Framed params blocks) {d d' : Name × Cls} (here : d ∈ frameTemps params blocks)
    (there : d' ∈ frameTemps params blocks) (same : d.1 = d'.1) : d = d' :=
  Prod.ext same (framed.classes d (mem_frameTemps.1 here) d' (mem_frameTemps.1 there) same)

theorem Framed.temps_once (framed : Framed params blocks) : ((frameTemps params blocks).map (·.1)).Nodup := by
  have once : (frameTemps params blocks).Nodup :=
    (perm_insertionSort _ _).nodup_iff.2 (nodup_dedup _)
  exact List.Nodup.map_on (fun d here d' there same => framed.oneClass here there same) once

theorem Framed.pooled (framed : Framed params blocks) {d : Name × Cls} (here : d ∈ frameTemps params blocks) (pools : Pools) :
    ∃ pool, classPool d.2 pools = some pool := by
  have value := framed.value d (mem_frameTemps.1 here)
  obtain ⟨n, k⟩ := d
  cases k with
  | w | l | p | x => exact ⟨_, rfl⟩
  | s | d => cases pools <;> exact ⟨_, rfl⟩
  | a | f => cases value

theorem needed_of_written {b : ViewBlock} {bs : List ViewBlock} (here : b ∈ bs) {n : Name} (written : WrittenIn n b) (p : Nat) :
    ∃ q, Needed live n bs p q := by
  induction bs generalizing p with
  | nil => cases here
  | cons b' bs ih =>
    rcases mem_cons.1 here with rfl | here
    · rcases written with phi | ⟨k, i, at_, write⟩
      · exact ⟨_, .phi phi⟩
      · exact ⟨_, .writes at_ write⟩
    · obtain ⟨q, needed⟩ := ih here (exitPoint b' p + 1)
      exact ⟨q, .later needed⟩

/-- Every temporary is needed where it is defined. -/
theorem temp_needed {d : Name × Cls} (here : d ∈ frameTemps params blocks) : (NeededAt params blocks live d.1).Nonempty := by
  rcases mem_append.1 (mem_frameTemps.1 here) with param | block
  · obtain ⟨p, mem, rfl⟩ := List.mem_map.1 param
    exact ⟨0, .inl ⟨rfl, List.mem_map_of_mem mem⟩⟩
  · obtain ⟨bare, inside, def_⟩ := mem_flatMap.1 block
    obtain ⟨b, there, rfl⟩ := List.mem_map.1 inside
    have written : WrittenIn d.1 b := by
      rcases mem_append.1 def_ with phi | inst
      · obtain ⟨ph, mem, rfl⟩ := List.mem_map.1 phi
        exact .inl (List.mem_map_of_mem mem)
      · obtain ⟨bare, listed, own⟩ := mem_flatMap.1 inst
        obtain ⟨i, mem, rfl⟩ : ∃ i ∈ b.insts, i.bare = bare := List.mem_map.1 listed
        obtain ⟨k, at_⟩ := mem_iff_getElem?.1 mem
        exact .inr ⟨k, i, at_, List.mem_map_of_mem own⟩
    obtain ⟨q, needed⟩ := needed_of_written there written 1
    exact ⟨q, .inr (.inl needed)⟩

/-! ### The ranges -/

theorem foldl_hull {ds : List Range} {r : Range} : (ds.foldl hull r).name = r.name ∧ (ds.foldl hull r).pool = r.pool ∧
    (ds.foldl hull r).start ≤ r.start ∧ r.stop ≤ (ds.foldl hull r).stop ∧
    ∀ d ∈ ds, (ds.foldl hull r).start ≤ d.start ∧ d.stop ≤ (ds.foldl hull r).stop := by
  induction ds generalizing r with
  | nil => exact ⟨rfl, rfl, le_rfl, le_rfl, nofun⟩
  | cons d ds ih =>
    obtain ⟨name, pool, start, stop, each⟩ := @ih (hull r d)
    rw [foldl_cons]
    refine ⟨name, pool, start.trans (min_le_left ..), (le_max_left ..).trans stop, fun d' mem => ?_⟩
    rcases mem_cons.1 mem with rfl | mem
    · exact ⟨start.trans (min_le_right ..), (le_max_right ..).trans stop⟩
    · exact each d' mem

variable {derived : List (Name × Name)} {rs : List Range} {r : Range}

theorem derivedRange_covers : (derivedRange derived rs r).name = r.name ∧
    (derivedRange derived rs r).start ≤ r.start ∧ r.stop ≤ (derivedRange derived rs r).stop := by
  rw [derivedRange]
  split_ifs with pointer shared
  · exact ⟨rfl, le_rfl, le_rfl⟩
  · obtain ⟨name, -, start, stop, -⟩ := @foldl_hull (rs.filter (fun d => derived.lookup d.name = some r.name)) r
    exact ⟨name, start, stop⟩
  · exact ⟨rfl, le_rfl, le_rfl⟩

/-- A root's range covers those of what is derived from it. -/
theorem derivedRange_roots {d : Range} (mem : d ∈ rs) (up : derived.lookup d.name = some r.name) (pointer : r.pool = .pointer)
    (root : derived.lookup r.name = none) :
    (derivedRange derived rs r).start ≤ d.start ∧ d.stop ≤ (derivedRange derived rs r).stop := by
  rw [derivedRange, if_pos pointer, root, if_neg (by simp)]
  exact foldl_hull.2.2.2.2 d (mem_filter.2 ⟨mem, by simpa using up⟩)

/-- The points that need a temporary or, of a root, a pointer derived from it. -/
def Spanned (params : List Param) (blocks : List ViewBlock) (live : Liveness) (derived : List (Name × Name)) (n : Name) : Set Nat :=
  {p | p ∈ NeededAt params blocks live n ∨ (n, Cls.p) ∈ frameTemps params blocks ∧ derived.lookup n = none ∧
    ∃ d ∈ frameTemps params blocks, derived.lookup d.1 = some n ∧ p ∈ NeededAt params blocks live d.1}

/-- What the ranges of a function's temporaries are. -/
structure Ranged (params : List Param) (blocks : List ViewBlock) (live : Liveness) (derived : List (Name × Name))
    (ranges : Ranges) : Prop where
  names : ((ranges.1 ++ ranges.2).map Range.name).Perm ((frameTemps params blocks).map (·.1))
  wide : ∀ r ∈ ranges.1, r.pool = .wide
  ordered : ∀ r ∈ ranges.1 ++ ranges.2, r.start ≤ r.stop
  covers : ∀ r ∈ ranges.1 ++ ranges.2, ∀ p ∈ Spanned params blocks live derived r.name, r.start ≤ p ∧ p ≤ r.stop

theorem partition_perm {xs : List Range} : (xs.filter (·.pool = .wide) ++ xs.filter (·.pool ≠ .wide)).Perm xs := by
  have same : xs.filter (fun r => decide (r.pool ≠ .wide)) = xs.filter (fun r => !decide (r.pool = .wide)) :=
    filter_congr fun r _ => by simp
  rw [same]
  exact filter_append_perm _ xs

theorem tempRanges_ranged (framed : Framed params blocks) {fuel : Nat} {pools : Pools} {ranges : Ranges}
    (done : tempRanges fuel pools derived params blocks = some ranges) :
    ∃ live, tempLiveness fuel blocks = some live ∧ Ranged params blocks live derived ranges := by
  simp only [tempRanges, bind_found, pure_found] at done
  obtain ⟨live, solved, rs, found, rfl⟩ := done
  have flowing := tempLiveness_flowing framed.labels solved
  have each := mapM_forall₂ found
  have names : rs.map Range.name = (frameTemps params blocks).map (·.1) :=
    (forall₂_maps (each.imp fun d r same => (tempInterval_hull flowing same).1.symm)).symm
  have mapped : (rs.map (derivedRange derived rs)).map Range.name = (frameTemps params blocks).map (·.1) := by
    rw [List.map_map, ← names]
    exact map_congr_left fun r _ => derivedRange_covers.1
  have once : (rs.map (derivedRange derived rs)).Nodup := List.Nodup.of_map Range.name (mapped ▸ framed.temps_once)
  have perm := (@partition_perm ((rs.map (derivedRange derived rs)).dedup.insertionSort (fun r r' => r.le r'))).trans
    ((perm_insertionSort _ _).trans (.of_eq once.dedup))
  have interval : ∀ d ∈ frameTemps params blocks, ∃ r ∈ rs, r.name = d.1 ∧ classPool d.2 pools = some r.pool ∧
      IsLeast (NeededAt params blocks live d.1) r.start ∧ IsGreatest (NeededAt params blocks live d.1) r.stop := by
    intro d here
    obtain ⟨r, mem, same⟩ := forall₂_of_left each here
    exact ⟨r, mem, tempInterval_hull flowing same⟩
  have back : ∀ r ∈ rs, ∃ d ∈ frameTemps params blocks, tempInterval pools (touches params blocks live) d = some r :=
    fun r mem => forall₂_of_left each.flip mem
  refine ⟨live, solved, (perm.map Range.name).trans (.of_eq mapped), fun r mem => ?_, fun r mem => ?_, fun r mem p spanned => ?_⟩
  · exact of_decide_eq_true (mem_filter.1 mem).2
  · obtain ⟨r', mem', rfl⟩ := List.mem_map.1 (perm.mem_iff.1 mem)
    obtain ⟨d, -, same⟩ := back r' mem'
    obtain ⟨-, -, least, greatest⟩ := tempInterval_hull flowing same
    obtain ⟨-, start, stop⟩ := @derivedRange_covers derived rs r'
    exact start.trans ((least.2 greatest.1).trans stop)
  · obtain ⟨r', mem', rfl⟩ := List.mem_map.1 (perm.mem_iff.1 mem)
    obtain ⟨d, here, same⟩ := back r' mem'
    obtain ⟨name, pooled, least, greatest⟩ := tempInterval_hull flowing same
    obtain ⟨name', start, stop⟩ := @derivedRange_covers derived rs r'
    rw [name', name] at spanned
    rcases spanned with needed | ⟨pointer, root, d', there, up, needed⟩
    · exact ⟨start.trans (least.2 needed), (greatest.2 needed).trans stop⟩
    · obtain ⟨r'', mem'', named, -, least', greatest'⟩ := interval d' there
      have cls : d = (d.1, Cls.p) := framed.oneClass here pointer rfl
      rw [cls] at pooled
      obtain ⟨start', stop'⟩ := derivedRange_roots mem'' (by rw [named, up, name]) (Option.some.inj pooled).symm (by rwa [name])
      exact ⟨start'.trans (least'.2 needed), (greatest'.2 needed).trans stop'⟩

theorem tempRanges_total (framed : Framed params blocks) (pools : Pools) (derived : List (Name × Name)) :
    ∃ fuel ranges, tempRanges fuel pools derived params blocks = some ranges := by
  obtain ⟨fuel, live, solved⟩ := tempLiveness_total framed.entry framed.exist
  have flowing := tempLiveness_flowing framed.labels solved
  obtain ⟨rs, found⟩ := mapM_total fun d here => by
    obtain ⟨pool, pooled⟩ := framed.pooled here pools
    exact tempInterval_total flowing pooled (temp_needed here)
  exact ⟨fuel, _, by rw [tempRanges, solved]; dsimp only [bind_eq_bind, bind_some]; rw [found]; rfl⟩

end

/-! ### The slots -/

/-- Every pool's slots hold ranges that are apart. -/
def Stocked (used : List (Range × Nat)) (st : Stock) : Prop :=
  ∀ pool, Packed Range.start Range.stop (used.filter (·.1.pool = pool)) (st pool).1 (st pool).2

section
variable {used : List (Range × Nat)} {st : Stock} {r : Range} {rs : List Range}

theorem Stocked.set {i : Nat} {slots : List (Nat × Nat)} {count : Nat} (stocked : Stocked used st)
    (packed : Packed Range.start Range.stop (used.filter (·.1.pool = r.pool) ++ [(r, i)]) slots count) :
    Stocked (used ++ [(r, i)]) (Function.update st r.pool (slots, count)) := by
  intro pool
  rw [filter_append]
  by_cases same : r.pool = pool
  · subst same
    rw [Function.update_self, filter_cons_of_pos (by simp), filter_nil]
    exact packed
  · rw [Function.update_of_ne (Ne.symm same), filter_cons_of_neg (by simpa using same), filter_nil, append_nil]
    exact stocked pool

theorem poolSlot_stocked (own : Bool) (stocked : Stocked used st) (ordered : r.start ≤ r.stop) :
    Stocked (used ++ [(r, (poolSlot own r st).2)]) (poolSlot own r st).1 := by
  rw [poolSlot]
  dsimp only
  split_ifs
  · exact stocked.set ((stocked r.pool).own r)
  · exact stocked.set ((stocked r.pool).reuse ordered)

theorem allocate_ranges (own : Bool) : (allocate own rs st).1.map (·.1) = rs := by
  induction rs generalizing st with
  | nil => rfl
  | cons r rs ih => exact congrArg (r :: ·) ih

theorem allocate_stocked (own : Bool) (stocked : Stocked used st) (ordered : ∀ r ∈ rs, r.start ≤ r.stop) :
    Stocked (used ++ (allocate own rs st).1) (allocate own rs st).2 := by
  induction rs generalizing used st with
  | nil =>
    rw [allocate, append_nil]
    exact stocked
  | cons r rs ih =>
    have first := poolSlot_stocked own stocked (ordered r mem_cons_self)
    have rest := ih first fun r' there => ordered r' (mem_cons_of_mem r there)
    rwa [append_assoc] at rest

/-- A new group leaves the open scalar slots of the others. -/
theorem Stocked.close (stocked : Stocked used st) : Stocked used (Function.update st .scalar ([], (st .scalar).2)) := by
  intro pool
  by_cases same : pool = .scalar
  · subst same
    rw [Function.update_self]
    exact (stocked .scalar).close
  · rw [Function.update_of_ne same]
    exact stocked pool

theorem groupsAllocate_ranges {groups : List (List Range)} : (groupsAllocate groups st).1.map (·.1) = groups.flatten := by
  induction groups generalizing st with
  | nil => rfl
  | cons rs groups ih =>
    rw [groupsAllocate, flatten_cons]
    dsimp only
    rw [map_append, allocate_ranges, ih]

theorem groupsAllocate_stocked {groups : List (List Range)} (stocked : Stocked used st)
    (ordered : ∀ rs ∈ groups, ∀ r ∈ rs, r.start ≤ r.stop) :
    Stocked (used ++ (groupsAllocate groups st).1) (groupsAllocate groups st).2 := by
  induction groups generalizing used st with
  | nil =>
    rw [groupsAllocate, append_nil]
    exact stocked
  | cons rs groups ih =>
    have first := allocate_stocked false stocked.close (ordered rs mem_cons_self)
    have rest := ih first fun rs' there => ordered rs' (mem_cons_of_mem rs there)
    rwa [append_assoc] at rest

/-! ### The groups -/

/-- What is sorted by its key, each key once. -/
theorem keyed_perm {κ : Type} [DecidableEq κ] {f : Range → Option κ} {keys : List κ} (once : keys.Nodup) (xs : List Range) :
    (keys.map (fun k => xs.filter (fun r => f r = some k))).flatten.Perm (xs.filter (fun r => ∃ k ∈ keys, f r = some k)) := by
  induction keys with
  | nil => simp
  | cons k keys ih =>
    rw [nodup_cons] at once
    rw [map_cons, flatten_cons]
    have both := filter_append_perm (fun r => decide (f r = some k)) (xs.filter (fun r => ∃ k' ∈ k :: keys, f r = some k'))
    rw [List.filter_filter, List.filter_filter] at both
    refine (List.Perm.append (.of_eq ?_) ((ih once.2).trans (.of_eq ?_))).trans both
    · refine filter_congr fun r _ => ?_
      rw [Bool.eq_iff_iff, Bool.and_eq_true, decide_eq_true_iff, decide_eq_true_iff]
      exact ⟨fun same => ⟨same, k, mem_cons_self, same⟩, And.left⟩
    · refine filter_congr fun r _ => ?_
      rw [Bool.eq_iff_iff, Bool.and_eq_true, Bool.not_eq_true', decide_eq_false_iff_not, decide_eq_true_iff, decide_eq_true_iff]
      constructor
      · rintro ⟨k', there, same⟩
        refine ⟨fun first => ?_, k', mem_cons_of_mem k there, same⟩
        rw [first] at same
        cases same
        exact once.1 there
      · rintro ⟨other, k', there, same⟩
        rcases mem_cons.1 there with rfl | there
        · exact absurd same other
        · exact ⟨k', there, same⟩

theorem groups_perm (groups : Option (List (Name × Name))) (rs : List Range) :
    (rs.filter (frameRange groups) ++ (groupRanges groups (rs.filter (fun r => !frameRange groups r))).1.flatten ++
      (groupRanges groups (rs.filter (fun r => !frameRange groups r))).2).Perm rs := by
  cases groups with
  | none =>
    have all : rs.filter (frameRange none) = rs := filter_eq_self.2 fun r _ => rfl
    rw [all, groupRanges, flatten_nil, append_nil, append_nil]
  | some gs =>
    have scalar : (rs.filter (fun r => !frameRange (some gs) r)).filter (fun r => decide (r.pool = .scalar)) =
        rs.filter (fun r => !frameRange (some gs) r) := by
      refine filter_eq_self.2 fun r mem => ?_
      have left := (mem_filter.1 mem).2
      rw [frameRange, Bool.not_eq_true', Bool.or_eq_false_iff, decide_eq_false_iff_not, not_not] at left
      exact decide_eq_true left.1
    rw [append_assoc]
    refine List.Perm.trans (List.Perm.append_left _ ?_) (filter_append_perm (frameRange (some gs)) rs)
    rw [groupRanges]
    dsimp only
    rw [scalar]
    set rest := rs.filter (fun r => !frameRange (some gs) r)
    have once : (sortNames (rest.filterMap (fun r => gs.lookup r.name)).dedup).Nodup :=
      (perm_insertionSort _ _).nodup_iff.2 (nodup_dedup _)
    have keyed := keyed_perm (f := fun r => gs.lookup r.name) once rest
    have parts := filter_append_perm (fun r => (gs.lookup r.name).isSome) rest
    refine (List.Perm.append (keyed.trans (.of_eq ?_)) (.of_eq ?_)).trans parts
    · refine filter_congr fun r mem => ?_
      rw [Bool.eq_iff_iff, decide_eq_true_iff, isSome_iff_exists]
      constructor
      · exact fun ⟨k, _, same⟩ => ⟨k, same⟩
      · rintro ⟨k, same⟩
        refine ⟨k, ?_, same⟩
        rw [sortNames, mem_insertionSort, mem_dedup]
        exact mem_filterMap.2 ⟨r, mem, same⟩
    · refine filter_congr fun r _ => ?_
      cases gs.lookup r.name <;> rfl

end

section
variable {params : List Param} {blocks : List ViewBlock} {pools : Pools} {derived : List (Name × Name)}

/-- All ranges get a slot of their pool, apart from those that have the same. -/
theorem tempSlots_used {fuel : Nat} {slots : TempSlots} (done : tempSlots fuel pools derived params blocks = some slots) :
    ∃ ranges, slotRanges fuel pools derived params blocks = some ranges ∧ ∃ used st,
      slots = ⟨used.map (fun u => (u.1.name, u.1.pool, u.2)), fun pool => (st pool).2⟩ ∧
      (used.map (·.1)).Perm (ranges.1 ++ ranges.2) ∧ ((∀ r ∈ ranges.1 ++ ranges.2, r.start ≤ r.stop) → Stocked used st) := by
  simp only [tempSlots, bind_found, pure_found] at done
  obtain ⟨⟨wides, intervals⟩, found, rfl⟩ := done
  have grouped := groups_perm pools.ownGroups intervals
  refine ⟨(wides, intervals), found, _, _, rfl, ?_, fun ordered => ?_⟩
  · simp only [map_append, allocate_ranges, groupsAllocate_ranges]
    exact (List.Perm.append_right wides grouped).trans perm_append_comm
  · have inside : ∀ r ∈ intervals, r.start ≤ r.stop := fun r there => ordered r (mem_append_right wides there)
    have each := fun r there => inside r (grouped.mem_iff.1 there)
    refine allocate_stocked false ?_ fun r there => ordered r (mem_append_left intervals there)
    refine allocate_stocked true ?_ fun r there => each r (mem_append_right _ there)
    refine groupsAllocate_stocked ?_ fun rs there r mem => each r ?_
    · have start : Stocked [] (fun _ => ([], 0)) := fun pool => .nil
      exact allocate_stocked false start fun r there => inside r (mem_filter.1 there).1
    · exact mem_append_left _ (mem_append_right _ (mem_flatten.2 ⟨rs, there, mem⟩))

/-- What the slots of a function's temporaries meet. -/
structure Slotted (params : List Param) (blocks : List ViewBlock) (live : Liveness) (pools : Pools)
    (derived : List (Name × Name)) (slots : TempSlots) : Prop where
  once : (slots.aliases.map (·.1)).Nodup
  every : ∀ n, n ∈ slots.aliases.map (·.1) ↔ n ∈ (frameTemps params blocks).map (·.1)
  counted : ∀ a ∈ slots.aliases, a.2.2 < slots.counts a.2.1
  apart : ∀ a b s, (a, s) ∈ slots.aliases → (b, s) ∈ slots.aliases → a ≠ b → ∀ p ∈ NeededAt params blocks live a,
    ∀ q ∈ Spanned params blocks live derived b, ∀ q' ∈ Spanned params blocks live derived b, ¬(q ≤ p ∧ p ≤ q')
  hulls : ∀ d ∈ frameTemps params blocks, ∃ r, tempInterval pools (touches params blocks live) d = some r ∧
    IsLeast (NeededAt params blocks live d.1) r.start ∧ IsGreatest (NeededAt params blocks live d.1) r.stop

/-- Slots are given to every temporary of a function once, and two that share one are never needed at a point between
two that need the other: whatever the pools and the derived pointers, the ranges being those of an earlier lowering
of the function where they are given. -/
theorem tempSlots_slotted (framed : Framed params blocks)
    (earlier : ∀ ranges, pools.bound = some ranges → ∃ fuel, tempRanges fuel pools derived params blocks = some ranges) :
    (∃ fuel slots, tempSlots fuel pools derived params blocks = some slots) ∧
      ∀ fuel slots, tempSlots fuel pools derived params blocks = some slots →
        ∃ fuel' live, tempLiveness fuel' blocks = some live ∧ Slotted params blocks live pools derived slots := by
  constructor
  · have total : ∃ fuel ranges, slotRanges fuel pools derived params blocks = some ranges := by
      unfold slotRanges
      split
      · exact ⟨0, _, rfl⟩
      · exact tempRanges_total framed pools derived
    obtain ⟨fuel, ranges, found⟩ := total
    exact ⟨fuel, _, by rw [tempSlots, found]; rfl⟩
  · intro fuel slots done
    obtain ⟨ranges, found, used, st, rfl, perm, stocked⟩ := tempSlots_used done
    obtain ⟨fuel', ranged⟩ : ∃ fuel', tempRanges fuel' pools derived params blocks = some ranges := by
      rw [slotRanges] at found
      cases given : pools.bound with
      | none =>
        rw [given] at found
        exact ⟨fuel, found⟩
      | some bound =>
        rw [given] at found
        cases found
        exact earlier ranges given
    obtain ⟨live, solved, ranged⟩ := tempRanges_ranged framed ranged
    have stocked := stocked ranged.ordered
    have names : ((used.map (fun u => (u.1.name, u.1.pool, u.2))).map (·.1)).Perm ((frameTemps params blocks).map (·.1)) := by
      rw [List.map_map]
      have := (perm.map Range.name).trans ranged.names
      rwa [List.map_map] at this
    have inside : ∀ u ∈ used, u.1 ∈ ranges.1 ++ ranges.2 := fun u there => perm.mem_iff.1 (List.mem_map_of_mem there)
    have pooled : ∀ u ∈ used, u ∈ used.filter (·.1.pool = u.1.pool) := fun u there => mem_filter.2 ⟨there, by simp⟩
    refine ⟨fuel', live, solved, ⟨names.nodup_iff.2 framed.temps_once, fun n => names.mem_iff, ?_, ?_, ?_⟩⟩
    · intro a there
      obtain ⟨u, mem, rfl⟩ := List.mem_map.1 there
      exact (stocked u.1.pool).below u (pooled u mem)
    · intro a b s left right apart p needed q low q' high between
      obtain ⟨u, memU, sameU⟩ := List.mem_map.1 left
      obtain ⟨v, memV, sameV⟩ := List.mem_map.1 right
      cases sameU
      obtain ⟨name, place⟩ := Prod.mk.inj sameV
      obtain ⟨pool, index⟩ := Prod.mk.inj place
      have other : u ≠ v := by
        rintro rfl
        exact apart name
      have memV' := pooled v memV
      rw [pool] at memV'
      have covers := ranged.covers v.1 (inside v memV)
      rw [name] at covers
      have own := ranged.covers u.1 (inside u memU) p (.inl needed)
      have start := covers q low
      have stop := covers q' high
      rcases (stocked u.1.pool).disjoint (pooled u memU) memV' other index.symm with before | after <;> omega
    · intro d here
      have flowing := tempLiveness_flowing framed.labels solved
      obtain ⟨pool, classed⟩ := framed.pooled here pools
      obtain ⟨r, made⟩ := tempInterval_total flowing classed (temp_needed here)
      exact ⟨r, made, (tempInterval_hull flowing made).2.2⟩

end

/-- Two loads, of which only the second is read. -/
def loadsBlocks : List ViewBlock :=
  [⟨"start", [], [.plain (.let_ "u" .l (.load .l) [.tmp "a"]), .plain (.let_ "v" .l (.load .l) [.tmp "a"])], .goto (.label "done")⟩,
    ⟨"done", [], [], .ret (.tmp "v")⟩]

example : (tempSlots 9 (.groups [("u", "rbx"), ("v", "rbx")]) [] [⟨.p, "a"⟩] loadsBlocks).map TempSlots.aliases =
    some [("a", .pointer, 0), ("u", .scalar, 0), ("v", .scalar, 0)] := by
  decide +kernel

theorem tempSlots_slotted_loads :
    (∃ fuel slots, tempSlots fuel (.groups [("u", "rbx"), ("v", "rbx")]) [] [⟨.p, "a"⟩] loadsBlocks = some slots) ∧
      ∀ fuel slots, tempSlots fuel (.groups [("u", "rbx"), ("v", "rbx")]) [] [⟨.p, "a"⟩] loadsBlocks = some slots →
        ∃ fuel' live, tempLiveness fuel' loadsBlocks = some live ∧
          Slotted [⟨.p, "a"⟩] loadsBlocks live (.groups [("u", "rbx"), ("v", "rbx")]) [] slots :=
  tempSlots_slotted ⟨by decide, by decide, by decide, by decide, by decide⟩ nofun

end Nanofil.Framing
