import Nanofil.Boehm.Links
import Mathlib.Data.List.Basic

/-! The tables of disappearing links are maps: what each call answers and leaves, over any run. -/
namespace Nanofil.Boehm
open List Option

/-! ### The maps -/

/-- The registered links: the object that a link is in, and its target. -/
abbrev Links (ο : Type) := UInt64 → Option (ο × Pointer ο)

section
variable {ο : Type} (dead : ο → Bool)

/-- What a link's registration is worth: nothing where a weak reference does not give the link back. -/
def registration (link target : Pointer ο) : Option (ο × Pointer ο) :=
  if zweakGet dead link = link.addr then some (link.obj, target) else none

def Links.register (m : Links ο) (link obj : Pointer ο) : Code × Links ο :=
  if unaligned link then (.unimplemented, m)
  else if (m link.addr).isSome then (.duplicate, m)
  else (.success, Function.update m link.addr (registration dead link obj))

def Links.unregister (m : Links ο) (link : Pointer ο) : Nat × Links ο :=
  (if (m link.addr).isSome then 1 else 0, Function.update m link.addr none)

def Links.move (m : Links ο) (link newLink : Pointer ο) : Code × Links ο :=
  if unaligned newLink then (.unimplemented, m)
  else
    match m link.addr with
    | none => (.notFound, m)
    | some (_, obj) =>
      if link.addr = newLink.addr then (.success, m)
      else if (m newLink.addr).isSome then (.duplicate, m)
      else (.success, Function.update (Function.update m link.addr none) newLink.addr (registration dead newLink obj))

/-- A link that is to be cleared: its target is dead. -/
def Links.due (m : Links ο) (a : UInt64) : Prop := a ≠ 0 ∧ ∃ r, m a = some r ∧ zweakGet dead r.2 = 0

instance (m : Links ο) (a : UInt64) : Decidable (m.due dead a) :=
  match h : m a with
  | none => .isFalse fun ⟨_, _, there, _⟩ => nomatch h ▸ there
  | some r => decidable_of_iff (a ≠ 0 ∧ zweakGet dead r.2 = 0) (by simp [Links.due, h])

/-- What a sweep leaves: the links whose targets live, and not NULL. -/
def Links.swept (m : Links ο) : Links ο := fun a => (m a).filter fun r => a ≠ 0 ∧ zweakGet dead r.2 ≠ 0

/-- What the death of an object leaves: the links in other objects, and NULL, which is in none. -/
def Links.without [DecidableEq ο] (m : Links ο) (o : ο) : Links ο := fun a => (m a).filter fun r => a = 0 ∨ r.1 ≠ o

end

structure LinkMaps (ο : Type) where
  links : Which → Links ο
  dead : ο → Bool
  memory : UInt64 → UInt64

section
variable {ο : Type} [DecidableEq ο] (base : (ο → Bool) → Pointer ο → Pointer ο)

def LinkMaps.init (memory : UInt64 → UInt64) : LinkMaps ο := ⟨fun _ _ => none, fun _ => false, memory⟩

def LinkMaps.setLinks (m : LinkMaps ο) (which : Which) (links : Links ο) : LinkMaps ο :=
  { m with links := Function.update m.links which links }

def LinkMaps.register (m : LinkMaps ο) (which : Which) (link obj : Pointer ο) : Answer × LinkMaps ο :=
  let (c, links) := (m.links which).register m.dead link obj
  (.code c, m.setLinks which links)

def LinkMaps.unregister (m : LinkMaps ο) (which : Which) (link : Pointer ο) : Answer × LinkMaps ο :=
  let (n, links) := (m.links which).unregister link
  (.found n, m.setLinks which links)

def LinkMaps.move (m : LinkMaps ο) (which : Which) (link newLink : Pointer ο) : Answer × LinkMaps ο :=
  let (c, links) := (m.links which).move m.dead link newLink
  (.code c, m.setLinks which links)

def LinkMaps.sweep (m : LinkMaps ο) (which : Which) : LinkMaps ο :=
  { m.setLinks which ((m.links which).swept m.dead) with
    memory := fun a => if (m.links which).due m.dead a then 0 else m.memory a }

def LinkMaps.step (m : LinkMaps ο) : LinkCall ο → Answer × LinkMaps ο
  | .generalRegisterDisappearingLink link obj => m.register .shortLinks link obj
  | .registerDisappearingLink link => m.register .shortLinks link (base m.dead link)
  | .unregisterDisappearingLink link => m.unregister .shortLinks link
  | .moveDisappearingLink link newLink => m.move .shortLinks link newLink
  | .registerLongLink link obj => m.register .longLinks link obj
  | .unregisterLongLink link => m.unregister .longLinks link
  | .moveLongLink link newLink => m.move .longLinks link newLink
  | .processCycle => (.none, (m.sweep .shortLinks).sweep .longLinks)
  | .die o => (.none, { m with links := fun which => (m.links which).without o, dead := Function.update m.dead o true })
  | .store a v => (.none, { m with memory := Function.update m.memory a v })

def LinkMaps.run (m : LinkMaps ο) : List (LinkCall ο) → List Answer × LinkMaps ο
  | [] => ([], m)
  | call :: calls =>
    let (answer, m) := m.step base call
    let (answers, m) := m.run calls
    (answer :: answers, m)

end

/-! ### The invariant of a table, and what it shows -/

structure LinkTable.Ok {ο : Type} (t : LinkTable ο) : Prop where
  placed : Buckets.Placed (entryHash t.nbuckets) t.buckets
  keyed : ∀ e ∈ t.entries, e.link.addr = e.key
  single : (t.entries.map LinkEntry.key).Nodup
  counted : t.count = t.entries.length

section
variable {ο : Type} {dead : ο → Bool} {t : LinkTable ο} {e : LinkEntry ο} {es es' : List (LinkEntry ο)} {m : Links ο}
  {link obj newLink : Pointer ο} {a key : UInt64} {n : Nat} {memory : UInt64 → UInt64}

/-- The entries whose weak references give their links back are the map's. -/
def Shows (dead : ο → Bool) (es : List (LinkEntry ο)) (m : Links ο) : Prop :=
  ∀ a r, m a = some r ↔ ∃ e ∈ es, e.key = a ∧ zweakGet dead e.link = a ∧ (e.link.obj, e.target) = r

theorem Shows.perm (showing : Shows dead es m) (perm : es.Perm es') : Shows dead es' m := fun a r =>
  (showing a r).trans (exists_congr fun _ => and_congr_left' perm.mem_iff)

theorem Shows.isSome (showing : Shows dead es m) : (m a).isSome ↔ ∃ e ∈ es, e.key = a ∧ zweakGet dead e.link = a := by
  rw [isSome_iff_exists]
  constructor
  · rintro ⟨r, there⟩
    obtain ⟨e, mem, key, live, _⟩ := (showing a r).1 there
    exact ⟨e, mem, key, live⟩
  · rintro ⟨e, mem, key, live⟩
    exact ⟨_, (showing a _).2 ⟨e, mem, key, live, rfl⟩⟩

theorem Shows.filter {p : LinkEntry ο → Bool} (showing : Shows dead es m)
    (stale : ∀ e ∈ es, p e = false → zweakGet dead e.link ≠ e.key) : Shows dead (es.filter p) m := by
  intro a r
  rw [showing a r]
  constructor
  · rintro ⟨e, mem, key, live, is⟩
    refine ⟨e, mem_filter.2 ⟨mem, ?_⟩, key, live, is⟩
    by_contra no
    exact stale e mem (Bool.eq_false_iff.2 no) (live.trans key.symm)
  · rintro ⟨e, mem, rest⟩
    exact ⟨e, mem_of_mem_filter mem, rest⟩

theorem Shows.cons (showing : Shows dead es m) (new : ∀ x ∈ es, x.key ≠ e.key) (keyed : e.link.addr = e.key) :
    Shows dead (e :: es) (Function.update m e.key (registration dead e.link e.target)) := by
  intro a r
  simp only [mem_cons, or_and_right, exists_or, exists_eq_left]
  rcases eq_or_ne a e.key with rfl | other
  · have none_old : ¬∃ x ∈ es, x.key = e.key ∧ zweakGet dead x.link = e.key ∧ (x.link.obj, x.target) = r :=
      fun ⟨x, mem, key, _⟩ => new x mem key
    rw [Function.update_self, registration, keyed]
    split_ifs with live
    · simp [live, none_old]
    · simp [live, none_old]
  · rw [Function.update_of_ne other, showing a r]
    simp [other.symm]

theorem Shows.tail (showing : Shows dead (e :: es) m) (new : ∀ x ∈ es, x.key ≠ e.key) :
    Shows dead es (Function.update m e.key none) := by
  intro a r
  rcases eq_or_ne a e.key with rfl | other
  · rw [Function.update_self]
    constructor
    · nofun
    · rintro ⟨x, mem, key, _⟩
      exact absurd key (new x mem)
  · rw [Function.update_of_ne other, showing a r]
    simp [other.symm]

theorem LinkTable.Ok.fresh (ok : t.Ok) (perm : t.entries.Perm (e :: es)) :
    (∀ x ∈ es, x.key ≠ e.key) ∧ (es.map LinkEntry.key).Nodup := by
  have single := (perm.map LinkEntry.key).nodup_iff.1 ok.single
  rw [map_cons, nodup_cons] at single
  exact ⟨fun x mem same => single.1 (same ▸ List.mem_map_of_mem mem), single.2⟩

/-- A table refines a map: it is well kept, and shows the map. -/
structure LinkTable.Refines (dead : ο → Bool) (t : LinkTable ο) (m : Links ο) : Prop where
  ok : t.Ok
  showing : Shows dead t.entries m

/-! ### `link_find` -/

/-- A look for a link unlinks its stale entry. -/
def fresh (dead : ο → Bool) (key : UInt64) (e : LinkEntry ο) : Bool := e.key != key || zweakGet dead e.link == key

theorem seek_spec (single : (es.map LinkEntry.key).Nodup) (enough : es.length ≤ n) :
    let (before, rest, count) := seek dead key es n
    before ++ rest = es.filter (fresh dead key) ∧ count + es.length = n + (before ++ rest).length ∧
      (∀ e ∈ before, e.key ≠ key) ∧ ∀ e ∈ rest.head?, e.key = key ∧ zweakGet dead e.link = key := by
  induction es generalizing n with
  | nil => simp [seek]
  | cons e es ih =>
    rw [map_cons, nodup_cons] at single
    have here : e.key = key → ∀ x ∈ es, fresh dead key x := by
      rintro rfl x mem
      have other : x.key ≠ e.key := fun same => single.1 (same ▸ List.mem_map_of_mem mem)
      simp [fresh, other]
    simp only [length_cons] at enough
    rw [seek]
    split_ifs with same live
    · simp [fresh, live, filter_eq_self.2 (here same), same]
    · obtain ⟨kept, count, before, rest⟩ := ih (n := n - 1) single.2 (by omega)
      refine ⟨by simp [kept, fresh, same, live], ?_, before, rest⟩
      rw [length_cons]
      omega
    · obtain ⟨kept, count, before, rest⟩ := ih (n := n) single.2 (by omega)
      have fresh_e : fresh dead key e = true := by simp [fresh, same]
      refine ⟨by rw [filter_cons_of_pos fresh_e, ← kept]; rfl, ?_, ?_, rest⟩
      · simp only [cons_append, length_cons]
        omega
      · exact forall_mem_cons.2 ⟨same, before⟩

/-- What `pe` is worth: the live entry of the link, where it says. -/
structure Place.At (p : Place ο) (dead : ο → Bool) (key : UInt64) (t : LinkTable ο) : Prop where
  there : t.buckets[p.bucket]? = some (p.before ++ p.entry :: p.after)
  key_eq : p.entry.key = key
  live : zweakGet dead p.entry.link = key

theorem linkHash_lt (pos : 0 < n) : linkHash n key < n := by
  have bound : linkHash n key ≤ n - 1 := Nat.and_le_right
  omega

theorem LinkTable.entries_eq_nil (none_ : t.nbuckets = 0) : t.entries = [] := by
  rw [LinkTable.entries, length_eq_zero_iff.1 none_, flatten_nil]

/-- A look for a link leaves the map, and finds the link's entry where there is one. -/
theorem linkFind_spec (h : t.Refines dead m) :
    (linkFind dead t key).1.Refines dead m ∧ (linkFind dead t key).1.entries ⊆ t.entries ∧
      (∀ p ∈ (linkFind dead t key).2, p.At dead key (linkFind dead t key).1) ∧
      ((linkFind dead t key).2 = none → ∀ e ∈ (linkFind dead t key).1.entries, e.key ≠ key) := by
  obtain ⟨⟨placed, keyed, single, counted⟩, showing⟩ := h
  rw [linkFind]
  split_ifs with empty
  · refine ⟨⟨⟨placed, keyed, single, counted⟩, showing⟩, fun _ mem => mem, nofun, fun _ e mem => ?_⟩
    rw [LinkTable.entries_eq_nil empty] at mem
    exact absurd mem not_mem_nil
  dsimp only
  set i := linkHash t.nbuckets key with hi
  have inside : i < t.buckets.length := linkHash_lt (Nat.pos_of_ne_zero empty)
  have chain : t.buckets[i]? = some (t.buckets.getD i []) := by
    rw [getD_eq_getElem?_getD, getElem?_eq_getElem inside]
    rfl
  set c := t.buckets.getD i [] with hc
  have sub : c.Sublist t.entries := sublist_flatten_of_mem (mem_of_getElem? chain)
  have spec := @seek_spec ο dead c key t.count
    (single.sublist (sub.map _)) (counted ▸ sub.length_le)
  generalize seek dead key c t.count = looked at spec ⊢
  obtain ⟨before, rest, count⟩ := looked
  obtain ⟨kept, counted', before_ne, found⟩ := spec
  dsimp only at kept counted' before_ne found ⊢
  -- The other buckets hold no entry of the link: the whole table is filtered.
  have filtered : t.buckets.set i (before ++ rest) = t.buckets.map (List.filter (fresh dead key)) := by
    refine ext_getElem? fun j => ?_
    rw [getElem?_set, getElem?_map]
    split_ifs with same
    · rw [← same, chain, kept]
      rfl
    · cases there : t.buckets[j]? with
      | none => rfl
      | some b =>
        have all : ∀ e ∈ b, fresh dead key e = true := fun e mem => by
          have other : e.key ≠ key := fun eq => same (hi.trans ((congrArg _ eq.symm).trans (placed j b there e mem)))
          simp [fresh, other]
        rw [map_some, filter_eq_self.2 all]
  have entries : (⟨t.buckets.set i (before ++ rest), count⟩ : LinkTable ο).entries = t.entries.filter (fresh dead key) := by
    rw [LinkTable.entries, filtered, ← filter_flatten]
    rfl
  have length := (Buckets.flatten_set chain (before ++ rest)).length_eq
  rw [length_append, length_append] at length
  refine ⟨⟨⟨?_, ?_, ?_, ?_⟩, ?_⟩, entries ▸ filter_subset_self _, ?_, ?_⟩
  · rw [LinkTable.nbuckets, length_set, filtered]
    exact placed.filter
  · intro e mem
    rw [entries] at mem
    exact keyed e (mem_of_mem_filter mem)
  · rw [entries]
    exact single.sublist (filter_sublist.map _)
  · show count = (t.buckets.set i (before ++ rest)).flatten.length
    change t.count = t.buckets.flatten.length at counted
    omega
  · rw [entries]
    refine showing.filter fun e _ stale live => ?_
    simp only [fresh, Bool.or_eq_false_iff, bne_eq_false_iff_eq, beq_eq_false_iff_ne] at stale
    exact stale.2 (live.trans stale.1)
  · intro p is
    obtain ⟨e, head, rfl⟩ := map_eq_some_iff.1 is
    obtain ⟨after, rfl⟩ := head?_eq_some_iff.1 head
    exact ⟨getElem?_set_self inside, (found e rfl).1, (found e rfl).2⟩
  · intro missing e mem same
    have rest_nil : rest = [] := head?_eq_none_iff.1 (map_eq_none_iff.1 missing)
    rw [entries] at mem
    obtain ⟨old, is_fresh⟩ := mem_filter.1 mem
    obtain ⟨b, there, hung⟩ := placed.mem.1 old
    have here : entryHash t.nbuckets e = i := congrArg (linkHash t.nbuckets) same
    rw [here, chain, Option.some.injEq] at there
    have in_chain : e ∈ c.filter (fresh dead key) := mem_filter.2 ⟨there ▸ hung, is_fresh⟩
    rw [← kept, rest_nil, append_nil] at in_chain
    exact before_ne e in_chain same


/-! ### The calls -/

theorem LinkTable.Refines.of_perm {t' : LinkTable ο} (h : t.Refines dead m)
    (placed : Buckets.Placed (entryHash t'.nbuckets) t'.buckets) (perm : t'.entries.Perm t.entries)
    (count : t'.count = t.count) : t'.Refines dead m :=
  ⟨⟨placed, fun e mem => h.ok.keyed e (perm.mem_iff.1 mem), (perm.map _).nodup_iff.2 h.ok.single,
    count.trans (h.ok.counted.trans perm.length_eq.symm)⟩, h.showing.perm perm.symm⟩

theorem linkTableGrow_refines (h : t.Refines dead m) :
    0 < (linkTableGrow t).nbuckets ∧ (linkTableGrow t).entries.Perm t.entries ∧ (linkTableGrow t).Refines dead m := by
  have pos : 0 < (if t.nbuckets ≠ 0 then t.nbuckets * 2 else 64) := by
    split_ifs with some_ <;> omega
  obtain ⟨length, placed, perm⟩ := @Buckets.rehash_spec _
    (entryHash (if t.nbuckets ≠ 0 then t.nbuckets * 2 else 64)) t.entries _ fun _ => linkHash_lt pos
  have room : (linkTableGrow t).nbuckets = if t.nbuckets ≠ 0 then t.nbuckets * 2 else 64 := length
  exact ⟨room ▸ pos, perm, h.of_perm (room ▸ placed) perm rfl⟩

theorem LinkTable.count_mk (buckets : List (List (LinkEntry ο))) (n : Nat) : (LinkTable.mk buckets n).count = n := rfl

theorem LinkTable.hang_mk (buckets : List (List (LinkEntry ο))) (n : Nat) :
    (LinkTable.mk buckets n).hang e = ⟨Buckets.push (entryHash buckets.length) buckets e, n⟩ := rfl

-- By `rfl` the kernel would compare the tables first, and compute a hash.
theorem LinkTable.hang_count : (t.hang e).count = t.count := LinkTable.count_mk _ _

/-- An entry whose key is new is hung. -/
theorem hang_refines (h : t.Refines dead m) (room : 0 < t.nbuckets) (new : ∀ x ∈ t.entries, x.key ≠ e.key)
    (keyed : e.link.addr = e.key) :
    ({ t.hang e with count := (t.hang e).count + 1 } : LinkTable ο).Refines dead
      (Function.update m e.key (registration dead e.link e.target)) := by
  have perm : (t.hang e).entries.Perm (e :: t.entries) := Buckets.push_perm (linkHash_lt room)
  refine ⟨⟨?_, fun x mem => ?_, ?_, ?_⟩, (h.showing.cons new keyed).perm perm.symm⟩
  · rw [LinkTable.nbuckets]
    show Buckets.Placed (entryHash (Buckets.push _ _ _).length) _
    rw [Buckets.length_push]
    exact h.ok.placed.push
  · exact (mem_cons.1 (perm.mem_iff.1 mem)).elim (fun same => same ▸ keyed) (h.ok.keyed x)
  · refine (perm.map LinkEntry.key).nodup_iff.2 (nodup_cons.2 ⟨fun mem => ?_, h.ok.single⟩)
    obtain ⟨x, inside, same⟩ := List.mem_map.1 mem
    exact new x inside same
  · exact (congrArg (· + 1) (LinkTable.hang_count.trans h.ok.counted)).trans perm.length_eq.symm

/-- The entry that was found is unlinked. -/
theorem unlink_refines {p : Place ο} (h : t.Refines dead m) (is : p.At dead key t) :
    m key = some (p.entry.link.obj, p.entry.target) ∧ 0 < t.count ∧ (∀ x ∈ (t.unlink p).entries, x ∈ t.entries ∧ x.key ≠ key) ∧
      ({ t.unlink p with count := t.count - 1 } : LinkTable ο).Refines dead (Function.update m key none) := by
  have perm : t.entries.Perm (p.entry :: (t.unlink p).entries) := by
    have moved := Buckets.flatten_set is.there (p.before ++ p.after)
    have out : (p.before ++ p.entry :: p.after).Perm (p.entry :: (p.before ++ p.after)) := perm_middle
    have both := (moved.symm.trans (out.append_left _)).trans perm_middle
    exact (perm_append_left_iff _).1 (both.trans (perm_append_comm.cons _ |>.trans perm_middle.symm))
  obtain ⟨new, single⟩ := h.ok.fresh perm
  rw [is.key_eq] at new
  have length := perm.length_eq
  rw [length_cons, ← h.ok.counted] at length
  have mem : p.entry ∈ t.entries := perm.mem_iff.2 mem_cons_self
  refine ⟨(h.showing key _).2 ⟨p.entry, mem, is.key_eq, is.live, rfl⟩, by omega,
    fun x inside => ⟨perm.mem_iff.2 (mem_cons_of_mem _ inside), new x inside⟩, ⟨⟨?_, fun x inside => ?_, single, ?_⟩, ?_⟩⟩
  · rw [LinkTable.nbuckets]
    show Buckets.Placed (entryHash (t.buckets.set _ _).length) (t.buckets.set _ _)
    rw [length_set]
    refine h.ok.placed.set fun x inside => h.ok.placed _ _ is.there x ?_
    exact (mem_append.1 inside).elim (mem_append_left _) fun later =>
      mem_append_right _ (mem_cons_of_mem _ later)
  · exact h.ok.keyed x (perm.mem_iff.2 (mem_cons_of_mem _ inside))
  · show t.count - 1 = (t.unlink p).entries.length
    omega
  · exact is.key_eq ▸ (h.showing.perm perm).tail (is.key_eq ▸ new)

/-- A look that finds says that the link is registered, and one that does not says that it is not. -/
theorem linkFind_cases (h : t.Refines dead m) (key : UInt64) :
    (∃ t' p, linkFind dead t key = (t', some p) ∧ t'.Refines dead m ∧ t'.entries ⊆ t.entries ∧ p.At dead key t' ∧
      m key = some (p.entry.link.obj, p.entry.target)) ∨
    ∃ t', linkFind dead t key = (t', none) ∧ t'.Refines dead m ∧ m key = none ∧ ∀ e ∈ t'.entries, e.key ≠ key := by
  have spec := @linkFind_spec ο dead t m key h
  generalize linkFind dead t key = looked at spec ⊢
  obtain ⟨t', place⟩ := looked
  obtain ⟨refines, sub, found, missing⟩ := spec
  cases place with
  | some p => exact .inl ⟨t', p, rfl, refines, sub, found p rfl, (unlink_refines refines (found p rfl)).1⟩
  | none =>
    refine .inr ⟨t', rfl, refines, ?_, missing rfl⟩
    by_contra registered
    obtain ⟨e, mem, same, _⟩ := refines.showing.isSome.1 (isSome_iff_ne_none.2 registered)
    exact missing rfl e mem same

theorem linkRegister_refines (h : t.Refines dead m) :
    (linkRegister dead t link obj).1 = (m.register dead link obj).1 ∧
      (linkRegister dead t link obj).2.Refines dead (m.register dead link obj).2 := by
  rw [linkRegister, Links.register]
  split_ifs with bad registered
  · exact ⟨rfl, h⟩
  · obtain ⟨t', p, found, refines, -⟩ | ⟨t', found, -, gone, -⟩ := linkFind_cases h link.addr
    · rw [found]
      exact ⟨rfl, refines⟩
    · simp [gone] at registered
  · obtain ⟨t', p, -, -, -, -, there⟩ | ⟨t', found, refines, -, new⟩ := linkFind_cases h link.addr
    · simp [there] at registered
    rw [found]
    dsimp only
    have grown : 0 < (if t'.count ≥ t'.nbuckets then linkTableGrow t' else t').nbuckets ∧
        (∀ x ∈ (if t'.count ≥ t'.nbuckets then linkTableGrow t' else t').entries, x.key ≠ link.addr) ∧
        (if t'.count ≥ t'.nbuckets then linkTableGrow t' else t').Refines dead m := by
      split_ifs with full
      · obtain ⟨room, perm, grown⟩ := linkTableGrow_refines refines
        exact ⟨room, fun x mem => new x (perm.mem_iff.1 mem), grown⟩
      · exact ⟨by omega, new, refines⟩
    exact ⟨rfl, hang_refines (e := ⟨link.addr, link, obj⟩) grown.2.2 grown.1 grown.2.1 rfl⟩

theorem linkUnregister_refines (h : t.Refines dead m) :
    (linkUnregister dead t link).1 = (m.unregister link).1 ∧
      (linkUnregister dead t link).2.Refines dead (m.unregister link).2 := by
  rw [linkUnregister, Links.unregister]
  obtain ⟨t', p, found, refines, -, is, there⟩ | ⟨t', found, refines, gone, -⟩ := linkFind_cases h link.addr
  · rw [found, there]
    exact ⟨rfl, (unlink_refines refines is).2.2.2⟩
  · rw [found, gone, ← gone, Function.update_eq_self, gone]
    exact ⟨rfl, refines⟩

theorem linkMove_refines (h : t.Refines dead m) :
    (linkMove dead t link newLink).1 = (m.move dead link newLink).1 ∧
      (linkMove dead t link newLink).2.Refines dead (m.move dead link newLink).2 := by
  rw [linkMove, Links.move]
  by_cases bad : unaligned newLink
  · rw [if_pos bad, if_pos bad]
    exact ⟨rfl, h⟩
  rw [if_neg bad, if_neg bad]
  obtain ⟨t1, p1, found1, refines1, -, -, there1⟩ | ⟨t1, found1, refines1, gone1, -⟩ := linkFind_cases h link.addr
  swap
  · rw [found1, gone1]
    exact ⟨rfl, refines1⟩
  rw [found1, there1]
  simp only [isNone_some, Bool.false_eq_true, if_false]
  by_cases same : link.addr = newLink.addr
  · rw [if_pos same, if_pos same]
    exact ⟨rfl, refines1⟩
  rw [if_neg same, if_neg same]
  obtain ⟨t2, p2, found2, refines2, -, -, there2⟩ | ⟨t2, found2, refines2, gone2, new⟩ := linkFind_cases refines1 newLink.addr
  · rw [found2, there2]
    exact ⟨rfl, refines2⟩
  rw [found2, gone2]
  simp only [isSome_none, Bool.false_eq_true, if_false]
  obtain ⟨t3, p3, found3, refines3, sub, is, there3⟩ | ⟨t3, -, -, gone3, -⟩ := linkFind_cases refines2 link.addr
  swap
  · simp [there1] at gone3
  obtain ⟨-, pos, other, unlinked⟩ := unlink_refines refines3 is
  have target : p3.entry.target = p1.entry.target := by
    rw [there1] at there3
    simpa using (congrArg (Option.map Prod.snd) there3).symm
  have room : 0 < (t3.unlink p3).nbuckets := by
    rw [LinkTable.nbuckets, LinkTable.unlink, length_set]
    exact Nat.zero_lt_of_lt (List.getElem?_eq_some_iff.1 is.there).1
  have hung := hang_refines (e := { p3.entry with key := newLink.addr, link := newLink }) unlinked room
    (fun x mem => new x (sub (other x mem).1)) rfl
  rw [found3, ← target]
  refine ⟨rfl, ?_⟩
  rw [LinkTable.hang_mk, LinkTable.count_mk, Nat.sub_add_cancel pos] at hung
  exact hung

/-! ### The sweep -/

/-- An entry that a sweep keeps: its link and its target live. -/
def stays (dead : ο → Bool) (e : LinkEntry ο) : Bool := zweakGet dead e.link != 0 && zweakGet dead e.target != 0

/-- An entry whose link a sweep clears, at an address. -/
def clears (dead : ο → Bool) (a : UInt64) (e : LinkEntry ο) : Bool :=
  zweakGet dead e.link != 0 && zweakGet dead e.target == 0 && zweakGet dead e.link == a

def cleared (dead : ο → Bool) (es : List (LinkEntry ο)) (memory : UInt64 → UInt64) (a : UInt64) : UInt64 :=
  if es.any (clears dead a) then 0 else memory a

theorem cleared_append : cleared dead (es ++ es') memory = cleared dead es' (cleared dead es memory) := by
  funext a
  simp only [cleared, any_append, Bool.or_eq_true]
  split_ifs <;> simp_all

theorem sweepChain_eq : sweepChain dead es (memory, n) =
    (es.filter (stays dead), cleared dead es memory, n - (es.filter (!stays dead ·)).length) := by
  induction es generalizing memory n with
  | nil => rfl
  | cons e es ih =>
    rw [sweepChain]
    dsimp only
    split_ifs with gone due
    · have unchanged : cleared dead (e :: es) memory = cleared dead es memory := by
        funext a
        simp [cleared, clears, gone]
      simp [ih, stays, gone, unchanged, Nat.sub_sub, Nat.add_comm]
    · have written : cleared dead (e :: es) memory = cleared dead es (Function.update memory (zweakGet dead e.link) 0) := by
        funext a
        have one : cleared dead [e] memory = Function.update memory (zweakGet dead e.link) 0 := by
          funext b
          rcases eq_or_ne b (zweakGet dead e.link) with rfl | other
          · simp [cleared, clears, gone, due]
          · simp [cleared, clears, other, other.symm]
        rw [← one, ← cleared_append, singleton_append]
      simp [ih, stays, due, written, Nat.sub_sub, Nat.add_comm]
    · have unchanged : cleared dead (e :: es) memory = cleared dead es memory := by
        funext a
        simp [cleared, clears, due]
      have kept : stays dead e = true := by simp [stays, gone, due]
      simp [ih, unchanged, kept]

theorem sweepBuckets_eq (bs : List (List (LinkEntry ο))) : sweepBuckets dead bs (memory, n) =
    (bs.map (List.filter (stays dead)), cleared dead bs.flatten memory, n - (bs.flatten.filter (!stays dead ·)).length) := by
  induction bs generalizing memory n with
  | nil => rfl
  | cons c bs ih =>
    rw [sweepBuckets, sweepChain_eq]
    dsimp only
    rw [ih]
    simp [cleared_append, Nat.sub_sub]

theorem LinkTable.Ok.get_link (ok : t.Ok) (mem : e ∈ t.entries) (live : zweakGet dead e.link ≠ 0) :
    zweakGet dead e.link = e.key := by
  rw [zweakGet] at live ⊢
  split_ifs at live ⊢ with gone
  · exact absurd rfl live
  · exact ok.keyed e mem

/-- A sweep leaves the links whose targets live, and clears the others: it writes nothing else. -/
theorem linkSweep_refines (h : t.Refines dead m) :
    (linkSweep dead t memory).1.Refines dead (m.swept dead) ∧
      (linkSweep dead t memory).2 = fun a => if m.due dead a then 0 else memory a := by
  rw [linkSweep, sweepBuckets_eq, ← LinkTable.entries]
  dsimp only
  have entries : (⟨t.buckets.map (List.filter (stays dead)), t.count - (t.entries.filter (!stays dead ·)).length⟩ :
      LinkTable ο).entries = t.entries.filter (stays dead) := filter_flatten.symm
  refine ⟨⟨⟨?_, fun e mem => ?_, ?_, ?_⟩, fun a r => ?_⟩, funext fun a => ?_⟩
  · rw [LinkTable.nbuckets, length_map]
    exact h.ok.placed.filter
  · rw [entries] at mem
    exact h.ok.keyed e (mem_of_mem_filter mem)
  · rw [entries]
    exact h.ok.single.sublist (filter_sublist.map _)
  · have split := length_eq_length_filter_add (l := t.entries) (stays dead)
    rw [entries, h.ok.counted]
    show t.entries.length - _ = _
    omega
  · rw [entries, Links.swept]
    simp only [filter_eq_some_iff, h.showing a r, mem_filter, decide_eq_true_eq]
    constructor
    · rintro ⟨⟨e, mem, key, live, rfl⟩, some_, target⟩
      exact ⟨e, ⟨mem, by simp [stays, live, some_, target]⟩, key, live, rfl⟩
    · rintro ⟨e, ⟨mem, stay⟩, key, live, rfl⟩
      simp only [stays, Bool.and_eq_true, bne_iff_ne] at stay
      exact ⟨⟨e, mem, key, live, rfl⟩, live ▸ stay.1, stay.2⟩
  · have same : (t.entries.any (clears dead a) = true) = m.due dead a := by
      simp only [List.any_eq_true, clears, Bool.and_eq_true, bne_iff_ne, beq_iff_eq, Links.due, eq_iff_iff]
      constructor
      · rintro ⟨e, mem, ⟨live, target⟩, rfl⟩
        exact ⟨live, (e.link.obj, e.target), (h.showing _ _).2 ⟨e, mem, (h.ok.get_link mem live).symm, rfl, rfl⟩, target⟩
      · rintro ⟨some_, r, there, target⟩
        obtain ⟨e, mem, key, live, rfl⟩ := (h.showing a r).1 there
        exact ⟨e, mem, ⟨live ▸ some_, target⟩, live⟩
    simp only [cleared, same]

/-- An object's death leaves the links that are not in it. -/
theorem die_refines [DecidableEq ο] (h : t.Refines dead m) (o : ο) :
    t.Refines (Function.update dead o true) (m.without o) := by
  refine ⟨h.ok, fun a r => ?_⟩
  simp only [Links.without, filter_eq_some_iff, h.showing a r, decide_eq_true_eq]
  have get : ∀ e ∈ t.entries, e.key = a → (zweakGet (Function.update dead o true) e.link = a ↔
      zweakGet dead e.link = a ∧ (a = 0 ∨ e.link.obj ≠ o)) := by
    rintro e mem rfl
    rw [zweakGet, zweakGet, Function.update_apply, ← h.ok.keyed e mem]
    by_cases same : e.link.obj = o
    · rcases eq_or_ne e.link.addr 0 with null | some_
      · simp [same, null]
      · simp [same, some_, some_.symm]
    · simp [same]
  constructor
  · rintro ⟨⟨e, mem, key, live, rfl⟩, other⟩
    exact ⟨e, mem, key, (get e mem key).2 ⟨live, other⟩, rfl⟩
  · rintro ⟨e, mem, key, live, rfl⟩
    obtain ⟨live, other⟩ := (get e mem key).1 live
    exact ⟨⟨e, mem, key, live, rfl⟩, other⟩

/-! ### Runs -/

/-- The tables and the maps agree. -/
structure Agree (w : LinkWorld ο) (m : LinkMaps ο) : Prop where
  refines : ∀ which, (w.tables which).Refines w.dead (m.links which)
  dead : w.dead = m.dead
  memory : w.memory = m.memory

theorem Agree.set {w : LinkWorld ο} {m : LinkMaps ο} (h : Agree w m) {which : Which} {t : LinkTable ο} {l : Links ο}
    (refines : t.Refines w.dead l) : Agree (w.setTable which t) (m.setLinks which l) := by
  refine ⟨fun other => ?_, h.dead, h.memory⟩
  rcases eq_or_ne other which with rfl | ne
  · simpa [LinkWorld.setTable, LinkMaps.setLinks] using refines
  · simpa [LinkWorld.setTable, LinkMaps.setLinks, ne] using h.refines other

theorem Agree.sweep {w : LinkWorld ο} {m : LinkMaps ο} (h : Agree w m) (which : Which) :
    Agree (w.sweep which) (m.sweep which) := by
  obtain ⟨links, dead, memory⟩ := m
  obtain ⟨refines, rfl, rfl⟩ := h
  obtain ⟨left, written⟩ := @linkSweep_refines ο _ _ _ w.memory (refines which)
  obtain ⟨refines, _, _⟩ := Agree.set (m := ⟨links, w.dead, w.memory⟩) ⟨refines, rfl, rfl⟩ left
  exact ⟨refines, rfl, written⟩

variable {w : LinkWorld ο} {maps : LinkMaps ο} {which : Which}

theorem empty_refines : LinkTable.empty.Refines dead (fun _ => none) :=
  ⟨⟨Buckets.placed_empty (n := 0), nofun, nodup_nil, rfl⟩, fun a r => by simp [LinkTable.entries, LinkTable.empty]⟩

theorem Agree.register (h : Agree w maps) :
    (w.register which link obj).1 = (maps.register which link obj).1 ∧
      Agree (w.register which link obj).2 (maps.register which link obj).2 := by
  obtain ⟨code, left⟩ := @linkRegister_refines ο _ _ _ link obj (h.refines which)
  simp only [LinkWorld.register, LinkMaps.register, code, ← h.dead]
  exact ⟨trivial, h.set left⟩

theorem Agree.unregister (h : Agree w maps) :
    (w.unregister which link).1 = (maps.unregister which link).1 ∧
      Agree (w.unregister which link).2 (maps.unregister which link).2 := by
  obtain ⟨found, left⟩ := @linkUnregister_refines ο _ _ _ link (h.refines which)
  simp only [LinkWorld.unregister, LinkMaps.unregister, found]
  exact ⟨trivial, h.set left⟩

theorem Agree.move (h : Agree w maps) :
    (w.move which link newLink).1 = (maps.move which link newLink).1 ∧
      Agree (w.move which link newLink).2 (maps.move which link newLink).2 := by
  obtain ⟨code, left⟩ := @linkMove_refines ο _ _ _ link newLink (h.refines which)
  simp only [LinkWorld.move, LinkMaps.move, code, ← h.dead]
  exact ⟨trivial, h.set left⟩

section
variable [DecidableEq ο] {base : (ο → Bool) → Pointer ο → Pointer ο}

/-- A call answers the same of the tables as of the maps, and leaves them in agreement. -/
theorem step_agree (h : Agree w maps) (call : LinkCall ο) :
    (w.step base call).1 = (maps.step base call).1 ∧ Agree (w.step base call).2 (maps.step base call).2 := by
  cases call with
  | generalRegisterDisappearingLink link obj => exact h.register
  | registerDisappearingLink link =>
    rw [LinkWorld.step, LinkMaps.step, ← h.dead]
    exact h.register
  | unregisterDisappearingLink link => exact h.unregister
  | moveDisappearingLink link newLink => exact h.move
  | registerLongLink link obj => exact h.register
  | unregisterLongLink link => exact h.unregister
  | moveLongLink link newLink => exact h.move
  | processCycle => exact ⟨rfl, (h.sweep _).sweep _⟩
  | die o =>
    refine ⟨rfl, fun which => die_refines (h.refines which) o, ?_, h.memory⟩
    exact congrArg (Function.update · o true) h.dead
  | store a v =>
    refine ⟨rfl, h.refines, h.dead, ?_⟩
    exact congrArg (fun memory => Function.update memory a v) h.memory

theorem run_agree (h : Agree w maps) (calls : List (LinkCall ο)) :
    (w.run base calls).1 = (maps.run base calls).1 ∧ Agree (w.run base calls).2 (maps.run base calls).2 := by
  induction calls generalizing w maps with
  | nil => exact ⟨rfl, h⟩
  | cons call calls ih =>
    obtain ⟨answer, agree⟩ := @step_agree ο w maps _ base h call
    obtain ⟨answers, agree⟩ := ih agree
    exact ⟨congrArg₂ List.cons answer answers, agree⟩

end

end

end Nanofil.Boehm
