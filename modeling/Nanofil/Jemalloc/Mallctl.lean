import Nanofil.Jemalloc.Names

/-! `mallctl` by name and by MIB agree, and an error changes nothing that a right output length would not. -/
namespace Nanofil.Jemalloc
open List

section
variable {p : Process} {name : List Char} {i miblen : Nat} {n : Node} {idx mib mib' : List UInt64} {a : Args} {s : Controls} {e : Errno}

theorem mibIndex_length (pat : List Char) (mib : List UInt64) : (mibIndex pat mib).length = pat.count '#' := by
  induction pat generalizing mib with
  | nil => rfl
  | cons c pat ih =>
    rw [mibIndex]
    split_ifs with dot number
    · rw [ih, dot, count_cons_of_ne (by decide)]
    · rw [length_cons, ih, number, count_cons_self]
    · rw [ih, count_cons_of_ne number]

theorem mallctlbymib_node (at_ : nodes[i]? = some n) (first : mib.head? = some (UInt64.ofNat i))
    (length : mib.length = depth n.name.toList) :
    mallctlbymib p mib a s = ctl p n (someIdx (mibIndex n.name.toList mib)) a s := by
  obtain ⟨rest, rfl⟩ := head?_eq_some_iff.1 first
  have within : i < nodes.length := (List.getElem?_eq_some_iff.1 at_).1
  have place : (UInt64.ofNat i).toNat = i := UInt64.toNat_ofNat_of_lt' (Nat.lt_trans within nodes_length)
  rw [mallctlbymib, place, at_]
  exact if_neg (not_not.2 length)

theorem nametomib_ok : nametomib name miblen = .ok mib ↔
    ∃ i n idx, findNode name = some (i, n, idx) ∧ depth n.name.toList ≤ miblen ∧ mib = mibRest n.name.toList (UInt64.ofNat i) idx := by
  rw [nametomib]
  cases findNode name with
  | none => simp
  | some found =>
    obtain ⟨i, n, idx⟩ := found
    by_cases short : miblen < depth n.name.toList
    · simp [short]
    · have long : depth n.name.toList ≤ miblen := Nat.not_lt.1 short
      simp [short, long, eq_comm]

/-- A MIB that a name gives, or one with other numbers, is the name spelled with its numbers. -/
theorem mallctlbymib_spell (found : findNode name = some (i, n, idx)) (first : mib.head? = some (UInt64.ofNat i))
    (length : mib.length = depth n.name.toList) :
    mallctlbymib p mib a s = mallctl p (spell n.name.toList (mibIndex n.name.toList mib)) a s := by
  rw [mallctlbymib_node (findNode_some found).1 first length, mallctl, findNode_spell found (mibIndex_length _ _)]

/-- The MIB of a name has its node first and its numbers in place. -/
theorem mibRest_spec (found : findNode name = some (i, n, idx)) :
    (mibRest n.name.toList (UInt64.ofNat i) idx).head? = some (UInt64.ofNat i) ∧
      (mibRest n.name.toList (UInt64.ofNat i) idx).length = depth n.name.toList ∧
      mibIndex n.name.toList (mibRest n.name.toList (UInt64.ofNat i) idx) = idx := by
  obtain ⟨at_, matched⟩ := findNode_some found
  obtain ⟨good, -⟩ := nodes_sound n (mem_of_getElem? at_)
  have count := matches_length matched
  rw [length_nil, Nat.zero_add] at count
  obtain ⟨index, first, length⟩ := @mibRest_index _ _ _ (UInt64.ofNat i) count good
  refine ⟨?_, length, index⟩
  cases mib : mibRest n.name.toList (UInt64.ofNat i) idx with
  | nil =>
    rw [mib, depth] at length
    cases length
  | cons x rest =>
    have is := first rfl
    rw [mib] at is
    exact congrArg some is

/-! ### Errors -/

theorem hResident_state (v : UInt64) : (hResident p idx v s).2.2 = s := by
  rw [hResident]
  split_ifs <;> rfl

/-- A handler that fails has left the state. -/
theorem handle_error {v : UInt64} {nv : Option UInt64} {h : Handler} (failed : (handle p n idx v nv s h).1 = some e) :
    (handle p n idx v nv s h).2.2 = s := by
  cases h with
  | epoch | narenas | arenasCreate | tcacheCreate => cases failed
  | resident | pactive => exact hResident_state v
  | arenaDecay | arenasDecay =>
    simp only [handle, hArenaDecay] at failed ⊢
    split_ifs at failed ⊢
    rfl
  | arenaVoid => rfl
  | arenaZero | arenaInitialized | bin | arenaBinZero =>
    simp only [handle]
    split_ifs <;> rfl

/-- The output has another length than the node's. -/
def WrongLength (n : Node) (a : Args) : Prop :=
  a.oldp = true ∧ kindSize n.kind ≠ 0 ∧ ∃ len, a.oldlenp = some len ∧ len.toNat ≠ kindSize n.kind

/-- The call with the node's output length. -/
def Args.righted (a : Args) (n : Node) : Args := { a with oldlenp := some (UInt64.ofNat (kindSize n.kind)) }

theorem act_error {idx : Option (List UInt64)} (failed : (act p n idx a s).1 = some e) : (act p n idx a s).2.2 = s := by
  rw [act] at failed ⊢
  revert failed
  cases n.fn with
  | none => exact fun failed => nomatch failed
  | some h => exact fun failed => handle_error failed

theorem bytesOf_prefix (v : UInt64) {m k : Nat} (le : m ≤ k) : bytesOf v m <+: bytesOf v k := by
  have parts : List.range k = List.range m ++ (List.range (k - m)).map (m + ·) := by
    rw [← range_add, Nat.add_sub_cancel' le]
  rw [bytesOf, bytesOf, parts, map_append]
  exact prefix_append _ _

theorem righted_length (n : Node) : (UInt64.ofNat (kindSize n.kind)).toNat = kindSize n.kind := by
  cases n.kind <;> rfl

theorem answer_error {r : Handled} (failed : (answer n a r).1.ret = some e) :
    r.1 = some e ∧ (answer n a r).2 = r.2.2 ∨ WrongLength n a ∧ e = .EINVAL ∧ (answer n (a.righted n) r).1.ret = none ∧
      (answer n (a.righted n) r).2 = (answer n a r).2 ∧ (answer n a r).1.output <+: (answer n (a.righted n) r).1.output := by
  obtain ⟨_ | e', v, s'⟩ := r
  · right
    obtain ⟨oldp, oldlenp, newp, newlen⟩ := a
    cases oldlenp with
    | none => cases failed
    | some len =>
      simp only [answer] at failed ⊢
      by_cases asked : oldp = true ∧ kindSize n.kind ≠ 0
      · by_cases wrong : len.toNat ≠ kindSize n.kind
        · rw [if_pos asked, if_pos wrong] at failed ⊢
          cases failed
          have right : ¬ (UInt64.ofNat (kindSize n.kind)).toNat ≠ kindSize n.kind := not_not.2 (righted_length n)
          simp only [Args.righted, if_pos asked, if_neg right]
          exact ⟨⟨asked.1, asked.2, len, rfl, wrong⟩, trivial, trivial, trivial, bytesOf_prefix v (Nat.min_le_right _ _)⟩
        · rw [if_pos asked, if_neg wrong] at failed
          cases failed
      · rw [if_neg asked] at failed
        cases failed
  · left
    exact ⟨failed, rfl⟩

theorem ctl_error {idx : Option (List UInt64)} (failed : (ctl p n idx a s).1.ret = some e) :
    (ctl p n idx a s).2 = s ∨ WrongLength n a ∧ e = .EINVAL ∧
      (ctl p n idx (a.righted n) s).1.ret = none ∧ (ctl p n idx (a.righted n) s).2 = (ctl p n idx a s).2 ∧
      (ctl p n idx a s).1.output <+: (ctl p n idx (a.righted n) s).1.output := by
  have same : refusal n (a.righted n) = refusal n a := rfl
  cases checked : refusal n a with
  | some e' => exact .inl (by rw [ctl, checked])
  | none =>
    have wrong : ctl p n idx a s = answer n a (act p n idx a s) := by rw [ctl, checked]
    have right : ctl p n idx (a.righted n) s = answer n (a.righted n) (act p n idx a s) := by
      rw [ctl, same, checked]
      rfl
    rw [wrong] at failed ⊢
    rw [right]
    rcases answer_error failed with ⟨handled, left⟩ | wrong
    · exact .inl (left.trans (act_error handled))
    · exact .inr wrong

end

/-! ### Calls -/

/-- A node is named, or given by a MIB. -/
inductive Route
  | name (cs : List Char)
  | mib (m : List UInt64)

def Route.call (p : Process) (a : Args) (s : Controls) : Route → Reply × Controls
  | .name cs => mallctl p cs a s
  | .mib m => mallctlbymib p m a s

/-- The node that a call reaches. -/
inductive Route.At : Route → Node → Prop
  | name {cs : List Char} {i : Nat} {n : Node} {idx : List UInt64} (found : findNode cs = some (i, n, idx)) : At (.name cs) n
  | mib {i : UInt64} {n : Node} {rest : List UInt64} (at_ : nodes[i.toNat]? = some n) : At (.mib (i :: rest)) n

section
variable {p : Process} {a : Args} {s : Controls} {e : Errno}

/-- A call fails for want of a node, or is its node's. -/
theorem Route.call_cases (r : Route) :
    (∀ p a s, r.call p a s = (⟨some .ENOENT, [], a.oldlenp⟩, s)) ∨ ∃ n idx, r.At n ∧ ∀ p a s, r.call p a s = ctl p n idx a s := by
  cases r with
  | name cs =>
    cases found : findNode cs with
    | none =>
      refine .inl fun p a s => ?_
      rw [Route.call, mallctl, found]
    | some node =>
      obtain ⟨i, n, idx⟩ := node
      refine .inr ⟨n, someIdx idx, .name found, fun p a s => ?_⟩
      rw [Route.call, mallctl, found]
  | mib m =>
    cases m with
    | nil => exact .inl fun p a s => rfl
    | cons i rest =>
      cases at_ : nodes[i.toNat]? with
      | none =>
        refine .inl fun p a s => ?_
        rw [Route.call, mallctlbymib, at_]
      | some n =>
        by_cases length : (i :: rest).length = depth n.name.toList
        · refine .inr ⟨n, someIdx (mibIndex n.name.toList (i :: rest)), .mib at_, fun p a s => ?_⟩
          rw [Route.call, mallctlbymib, at_]
          exact if_neg (not_not.2 length)
        · refine .inl fun p a s => ?_
          rw [Route.call, mallctlbymib, at_]
          exact if_pos length

/-- A name has a MIB when it has a node and the buffer is long enough; the MIB, and any with other numbers,
calls the node as the name spelled with those numbers does. An error leaves the state, but for a wrong output
length: then the node has acted as with the right one. -/
theorem mallctl_agree :
    (∀ name miblen, (∃ mib, nametomib name miblen = .ok mib) ↔
      ∃ i n idx, findNode name = some (i, n, idx) ∧ depth n.name.toList ≤ miblen) ∧
    (∀ name miblen mib, nametomib name miblen = .ok mib → ∃ i n idx, findNode name = some (i, n, idx) ∧
      mibIndex n.name.toList mib = idx ∧ (∀ p a s, mallctlbymib p mib a s = mallctl p name a s) ∧
      ∀ mib', mib'.length = mib.length → mib'.head? = mib.head? →
        ∀ p a s, mallctlbymib p mib' a s = mallctl p (spell n.name.toList (mibIndex n.name.toList mib')) a s) ∧
    ∀ (r : Route) p a s e, (r.call p a s).1.ret = some e → (r.call p a s).2 = s ∨
      e = .EINVAL ∧ ∃ n, r.At n ∧ WrongLength n a ∧ (r.call p (a.righted n) s).1.ret = none ∧
        (r.call p (a.righted n) s).2 = (r.call p a s).2 ∧ (r.call p a s).1.output <+: (r.call p (a.righted n) s).1.output := by
  refine ⟨fun name miblen => ?_, fun name miblen mib ok => ?_, fun r p a s e failed => ?_⟩
  · simp only [nametomib_ok]
    exact ⟨fun ⟨_, i, n, idx, found, long, _⟩ => ⟨i, n, idx, found, long⟩, fun ⟨i, n, idx, found, long⟩ => ⟨_, i, n, idx, found, long, rfl⟩⟩
  · obtain ⟨i, n, idx, found, -, rfl⟩ := nametomib_ok.1 ok
    obtain ⟨first, length, index⟩ := mibRest_spec found
    refine ⟨i, n, idx, found, index, fun p a s => ?_, fun mib' same head p a s => ?_⟩
    · rw [mallctlbymib_node (findNode_some found).1 first length, index, mallctl, found]
    · exact mallctlbymib_spell found (head.trans first) (same.trans length)
  · rcases r.call_cases with missing | ⟨n, idx, at_, node⟩
    · left
      rw [missing]
    · rw [node] at failed ⊢
      rcases ctl_error failed with left | ⟨wrong, rfl, rest⟩
      · exact .inl left
      · refine .inr ⟨rfl, n, at_, wrong, ?_⟩
        rw [node]
        exact rest

end

/-- `arenas.create` with an output of two bytes fails, and there is one more arena. -/
theorem create_short :
    (mallctl ⟨0, "5", fun _ => 0⟩ "arenas.create".toList ⟨true, some 2, none, 0⟩ ⟨1, 0, 0, 10000, 0⟩).1.ret = some .EINVAL ∧
    (mallctl ⟨0, "5", fun _ => 0⟩ "arenas.create".toList ⟨true, some 2, none, 0⟩ ⟨1, 0, 0, 10000, 0⟩).2.narenas = 2 := by
  decide +kernel

end Nanofil.Jemalloc
