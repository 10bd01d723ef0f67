import Nanofil.Slots
import Nanofil.Ssa

/-! The local objects of an invocation: where an accepted function declares and names them,
and what their ends leave of memory. -/
namespace Nanofil
open List Option Results

/-- Each local of an invocation that has begun is a live stack object of its own. -/
structure Frame (f : Func) (low : Int) (locals : Name → Option (Option Int)) (mem : Mem) : Prop where
  declared : ∀ n, (locals n).isSome ↔ n ∈ (localObjects f.blocks).map (·.1)
  bound : ∀ n base, locals n = some (some base) →
    low ≤ base ∧ ∃ r ∈ mem.regions, r.base = base ∧ r.kind = .stack ∧ r.life = .live
  distinct : ∀ n n' base, locals n = some (some base) → locals n' = some (some base) → n = n'

variable {n : Name}

section
variable {f : Func} {low : Int} {locals : Name → Option (Option Int)} {mem mem' : Mem} {prep : Prep}

theorem Frame.grows (frame : Frame f low locals mem) (grows : Grows mem mem') : Frame f low locals mem' :=
  ⟨frame.declared, fun n base known => by
    obtain ⟨above, r, h, based, kind, life⟩ := frame.bound n base known
    exact ⟨above, r, grows.stack r h kind life, based, kind, life⟩, frame.distinct⟩

theorem Frame.bind (frame : Frame f low locals mem) (ok : MemOk prep mem) {base : Int}
    (unbound : locals n = some none) (above : low ≤ mem.next) (allocated : Allocated prep mem .local_ base mem') :
    Frame f low (bindLocal locals n base) mem' := by
  have old := frame.grows allocated.grows
  obtain ⟨r, mem_r, based, life, kind⟩ := allocated.region
  have fresh : ∀ n' b, locals n' = some (some b) → b < base := by
    intro n' b known
    obtain ⟨_, r', h, based', kind', _⟩ := frame.bound n' b known
    have := ok.stack r' h kind'
    have := allocated.new
    omega
  refine ⟨fun n' => ?_, fun n' b known => ?_, fun n1 n2 b known1 known2 => ?_⟩
  · rw [← frame.declared n']
    unfold bindLocal
    split
    · rename_i same
      rw [same, unbound]
      exact ⟨fun _ => rfl, fun _ => rfl⟩
    · rfl
  · unfold bindLocal at known
    split at known
    · cases known
      exact ⟨above.trans allocated.new, r, mem_r, based, kind rfl, life⟩
    · exact old.bound n' b known
  · unfold bindLocal at known1 known2
    split at known1 <;> split at known2
    · rename_i h1 h2
      rw [h1, h2]
    · cases known1
      exact absurd (fresh n2 base known2) (lt_irrefl base)
    · cases known2
      exact absurd (fresh n1 base known1) (lt_irrefl base)
    · exact frame.distinct n1 n2 b known1 known2

theorem Frame.registered (frame : Frame f low locals mem) {base : Int}
    (known : locals n = some (some base)) : Registered mem base := by
  obtain ⟨_, r, h, based, _⟩ := frame.bound n base known
  exact registered_iff.2 ⟨r, h, based⟩

theorem Frame.fresh (f : Func) (low : Int) (mem : Mem) : Frame f low (freshLocals f) mem := by
  have unbound : ∀ n x, freshLocals f n = some x → x = none := by
    intro n x known
    unfold freshLocals at known
    split at known <;> cases known
    rfl
  refine ⟨fun n => ?_, fun n base known => ?_, fun n n' base known _ => ?_⟩
  · unfold freshLocals
    simp
  · cases unbound n _ known
  · cases unbound n _ known

/-! ### The end of an invocation -/

/-- What an invocation's end leaves: its caller's stack objects, and every object's identity. -/
structure Ended (prep : Prep) (low : Int) (mem mem' : Mem) : Prop where
  ok : MemOk prep mem'
  objects : ∀ base, Registered mem base → Registered mem' base
  next : mem'.next = mem.next
  bytes : mem'.bytes = mem.bytes ∧ mem'.aux = mem.aux
  stack : ∀ r ∈ mem.regions, r.base < low → r ∈ mem'.regions

theorem invalidateLocals_ends {ns : List Name} : ∀ {mem : Mem}, ns.Nodup → MemOk prep mem →
    (∀ n ∈ ns, ∀ base, locals n = some (some base) →
      low ≤ base ∧ ∃ r ∈ mem.regions, r.base = base ∧ r.kind = .stack ∧ r.life = .live) →
    (∀ n n' base, locals n = some (some base) → locals n' = some (some base) → n = n') →
    Ends Gap (Ended prep low mem) (invalidateLocals locals ns mem) := by
  induction ns with
  | nil => exact fun _ ok _ _ => Ends.ok ⟨ok, fun _ h => h, rfl, ⟨rfl, rfl⟩, fun _ h _ => h⟩
  | cons n ns ih =>
    intro mem nodup ok bound distinct
    have rest := nodup_cons.1 nodup
    have skip : Ends Gap (Ended prep low mem) (invalidateLocals locals ns mem) :=
      ih rest.2 ok (fun n' h => bound n' (mem_cons_of_mem _ h)) distinct
    cases known : locals n with
    | none => simpa only [invalidateLocals, known] using skip
    | some b =>
      cases b with
      | none => simpa only [invalidateLocals, known] using skip
      | some base =>
        obtain ⟨above, r0, h0, based0, kind0, life0⟩ := bound n mem_cons_self base known
        have some_ : (mem.regions.find? (fun r => r.base = base ∧ r.kind = .stack ∧ r.life = .live)).isSome :=
          find?_isSome.2 ⟨r0, h0, by simp [based0, kind0, life0]⟩
        obtain ⟨r, found⟩ := isSome_iff_exists.1 some_
        have based : r.base = base ∧ r.kind = .stack ∧ r.life = .live := by simpa using find?_some found
        have mem_r := mem_of_find?_eq_some found
        have keeps := freeRegion_keeps mem based.1
        have freed := freeRegion_memOk ok mem_r based.1
        simp only [invalidateLocals, known, found]
        refine (ih rest.2 freed (fun n' h base' known' => ?_) distinct).mono fun mem' ended =>
          ⟨ended.ok, fun b h => ended.objects b (keeps.1 b h), ended.next, ended.bytes, fun r' h below =>
            ended.stack r' (keeps.2 r' h fun same => ?_) below⟩
        · obtain ⟨above', r', h', based', rest'⟩ := bound n' (mem_cons_of_mem _ h) base' known'
          refine ⟨above', r', keeps.2 r' h' fun same => ?_, based', rest'⟩
          have : base' = base := by rw [← based', same, based.1]
          subst this
          exact rest.1 (distinct n' n base' known' known ▸ h)
        · rw [same, based.1] at below
          omega

end

/-! ### Where locals are declared -/

def DeclaredAt (f : Func) (n : Name) (j : Nat) : Prop :=
  ∃ entry size, f.blocks.head? = some entry ∧ entry.insts[j]? = some (.localAlloc n size)

/-- An invocation's locals begin where its entry declares them. -/
def Placed (f : Func) (locals : Name → Option (Option Int)) (l : Name) (k : Nat) : Prop :=
  ∀ n j, DeclaredAt f n j →
    (l = blocksEntry f.blocks ∧ k ≤ j → locals n = some none) ∧
    (¬(l = blocksEntry f.blocks ∧ k ≤ j) → ∃ base, locals n = some (some base))

def allocOf (i : Inst) : Option (Name × Int) :=
  match i with
  | .localAlloc n size => some (n, size)
  | _ => none

theorem localObjects_eq (bs : List Block) : localObjects bs = (blocksInsts bs).filterMap allocOf := rfl

theorem declared_once {is : List Inst} {s s' : Int} : ∀ {j j' : Nat},
    ((is.filterMap allocOf).map (·.1)).Nodup → is[j]? = some (Inst.localAlloc n s) → is[j']? = some (Inst.localAlloc n s') →
    j = j' := by
  induction is with
  | nil => intro j j' _ at_; cases at_
  | cons i is ih =>
    intro j j' nodup at_ at'
    have later : ∀ {k s}, is[k]? = some (Inst.localAlloc n s) → n ∈ (is.filterMap allocOf).map (·.1) := fun h =>
      List.mem_map.2 ⟨(n, _), mem_filterMap.2 ⟨_, mem_of_getElem? h, rfl⟩, rfl⟩
    have tail : ((is.filterMap allocOf).map (·.1)).Nodup := by
      cases h : allocOf i <;> simp only [filterMap_cons, h, map_cons, nodup_cons] at nodup
      · exact nodup
      · exact nodup.2
    have first : ∀ {s}, i = .localAlloc n s → n ∉ (is.filterMap allocOf).map (·.1) := by
      rintro s rfl
      simp only [filterMap_cons, allocOf, map_cons, nodup_cons] at nodup
      exact nodup.1
    cases j with
    | zero =>
      cases j' with
      | zero => rfl
      | succ j' => exact absurd (later (by simpa using at')) (first (by simpa using at_))
    | succ j =>
      cases j' with
      | zero => exact absurd (later (by simpa using at_)) (first (by simpa using at'))
      | succ j' => exact congrArg _ (ih tail (by simpa using at_) (by simpa using at'))

/-- What `validLocals` says of the entry and of the blocks after it. -/
structure LocalsOk (f : Func) (entry : Block) (rest : List Block) : Prop where
  nodup : ((localObjects f.blocks).map (·.1)).Nodup
  later : ∀ b ∈ rest, ∀ n size, Inst.localAlloc n size ∉ b.insts
  uses : ∀ b ∈ f.blocks, localUsesOk entry b = true

theorem zipIdx_filterMap_length {α : Type} {β γ : Type} (xs : List α) (g : α → Option β) (h : α × Nat → Option γ)
    (same : ∀ x n, (h (x, n)).isSome = (g x).isSome) : ∀ n, ((xs.zipIdx n).filterMap h).length = (xs.filterMap g).length := by
  induction xs with
  | nil => exact fun _ => rfl
  | cons x xs ih =>
    intro n
    have head := same x n
    cases hg : g x <;> cases hh : h (x, n) <;> simp_all [zipIdx_cons]

theorem localsDeclared_length (b : Block) : (localsDeclared b).length = (b.insts.filterMap allocOf).length := by
  refine zipIdx_filterMap_length b.insts allocOf _ (fun x n => ?_) 0
  cases x <;> rfl

theorem localsOk {f : Func} {entry : Block} {rest : List Block} (blocks : f.blocks = entry :: rest)
    (valid : validLocals f.blocks = true) : LocalsOk f entry rest := by
  rw [blocks] at valid
  simp only [validLocals, Bool.and_eq_true, decide_eq_true_eq, List.all_eq_true] at valid
  obtain ⟨⟨⟨nodup, _⟩, length⟩, uses⟩ := valid
  refine ⟨blocks ▸ nodup, fun b h n size inst => ?_, blocks ▸ uses⟩
  rw [localsDeclared_length, localObjects_eq] at length
  simp only [blocksInsts, flatMap_cons, filterMap_append, length_append] at length
  have none : (rest.flatMap (·.insts)).filterMap allocOf = [] := length_eq_zero_iff.1 (by omega)
  have found : (n, size) ∈ (rest.flatMap (·.insts)).filterMap allocOf :=
    mem_filterMap.2 ⟨_, mem_flatMap.2 ⟨b, h, inst⟩, rfl⟩
  rw [none] at found
  cases found

section
variable {f : Func} {entry : Block} {rest : List Block} (blocks : f.blocks = entry :: rest) (ok : LocalsOk f entry rest)
include blocks

theorem blocksEntry_eq : blocksEntry f.blocks = entry.label := by simp [blocksEntry, blocks]

theorem declaredAt_iff {j : Nat} : DeclaredAt f n j ↔ ∃ size, entry.insts[j]? = some (.localAlloc n size) := by
  simp [DeclaredAt, blocks]

include ok

theorem declaredAt_inj {j j' : Nat} (here : DeclaredAt f n j) (there : DeclaredAt f n j') : j = j' := by
  obtain ⟨s, at_⟩ := (declaredAt_iff blocks).1 here
  obtain ⟨s', at'⟩ := (declaredAt_iff blocks).1 there
  have nodup := ok.nodup
  rw [localObjects_eq, blocks] at nodup
  simp only [blocksInsts, flatMap_cons, filterMap_append, map_append] at nodup
  exact declared_once (List.Nodup.of_append_left nodup) at_ at'

/-- A declaration stands in the entry. -/
theorem localAlloc_entry {b : Block} (mem_b : b ∈ f.blocks) {k : Nat}
    {size : Int} (at_ : b.insts[k]? = some (.localAlloc n size)) : b.label = blocksEntry f.blocks ∧ DeclaredAt f n k := by
  rw [blocks] at mem_b
  rcases mem_cons.1 mem_b with rfl | later
  · exact ⟨(blocksEntry_eq blocks).symm, (declaredAt_iff blocks).2 ⟨size, at_⟩⟩
  · exact absurd (mem_of_getElem? at_) (ok.later b later n size)

/-- A local is named only past its declaration. -/
theorem localReference_past {b : Block} (mem_b : b ∈ f.blocks) {k : Nat} {i : Inst} (at_ : b.insts[k]? = some i)
    (names : localReference i = some n) :
    ∃ j, DeclaredAt f n j ∧ ¬(b.label = blocksEntry f.blocks ∧ k ≤ j) := by
  have uses := List.all_eq_true.1 (ok.uses b mem_b) (i, k) (mem_zipIdx_iff_getElem?.2 at_)
  simp only [names, all_some, Option.any_eq_true] at uses
  obtain ⟨d, found, past⟩ := uses
  have named : d.1 = n := by simpa using find?_some found
  have inside := mem_of_find?_eq_some found
  simp only [localsDeclared, mem_filterMap] at inside
  obtain ⟨⟨i', j⟩, mem_i, is⟩ := inside
  have at' := mem_zipIdx_iff_getElem?.1 mem_i
  cases i' <;> simp only [reduceCtorEq, Option.some.injEq] at is
  subst is
  dsimp only at named at'
  subst named
  refine ⟨j, (declaredAt_iff blocks).2 ⟨_, at'⟩, fun ⟨here, le⟩ => ?_⟩
  rw [blocksEntry_eq blocks] at here
  simp only [Bool.or_eq_true, decide_eq_true_eq] at past
  rcases past with other | lt
  · exact other here
  · omega

end

end Nanofil
