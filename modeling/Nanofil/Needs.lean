import Nanofil.Flow

/-! What the needs ahead of a `check_ahead` promise: at each point, an access past it
on every path before anything that is not transparent. -/
namespace Nanofil
open Results List Option

/-! ### Meets and raises -/

theorem foldl_meet {fs : List Need} : ∀ {m : Need} {n : Name} {h : Int},
    (fs.foldl (fun m g => fun n => do return min (← m n) (← g n)) m) n = some h →
    (∃ h', m n = some h' ∧ h ≤ h') ∧ ∀ f ∈ fs, ∃ h', f n = some h' ∧ h ≤ h' := by
  induction fs with
  | nil => exact fun met => ⟨⟨_, met, le_refl _⟩, by simp⟩
  | cons g fs ih =>
    intro m n h met
    obtain ⟨⟨h', both, le⟩, rest⟩ := ih met
    simp only [bind_found, pure_found] at both
    obtain ⟨hm, left, hg, right, rfl⟩ := both
    refine ⟨⟨hm, left, le_trans le (min_le_left _ _)⟩, fun f mem => ?_⟩
    rcases mem_cons.1 mem with rfl | mem
    · exact ⟨hg, right, le_trans le (min_le_right _ _)⟩
    · exact rest f mem

variable {h : Int} {n : Name}

/-- A need of a meet is one of each that is met, and some is. -/
theorem needMeet_some {fs : List Need} (met : needMeet fs n = some h) : fs ≠ [] ∧ ∀ f ∈ fs, ∃ h', f n = some h' ∧ h ≤ h' := by
  cases fs with
  | nil => cases met
  | cons f fs =>
    obtain ⟨first, rest⟩ := foldl_meet met
    refine ⟨cons_ne_nil _ _, fun g mem => ?_⟩
    rcases mem_cons.1 mem with rfl | mem
    · exact first
    · exact rest g mem

theorem endNeed_some {need : Need} {ds : List Name} (known : endNeed need ds n = some h) : n ∉ ds ∧ need n = some h := by
  unfold endNeed at known
  split at known
  · cases known
  · exact ⟨‹_›, known⟩

theorem raiseNeed_some {off size : Int} {es : List (Name × Int)} : ∀ {need : Need} {n : Name} {h : Int},
    es.foldl (raiseNeed off size) need n = some h →
    need n = some h ∨ ∃ k, (n, k) ∈ es ∧ h = k + off + size ∧ nearOffset k = true ∧ nearOffset h = true := by
  induction es with
  | nil => exact fun raised => .inl raised
  | cons e es ih =>
    intro need n h raised
    rcases ih raised with known | ⟨k, mem, rest⟩
    · unfold raiseNeed at known
      split at known
      · rename_i near
        simp only [Bool.and_eq_true] at near
        dsimp only at known
        split at known
        · rename_i same
          subst same
          cases known
          exact .inr ⟨e.2, mem_cons_self, rfl, near.1.1, near.1.2⟩
        · exact .inl known
      · exact .inl known
    · exact .inr ⟨k, mem_cons_of_mem _ mem, rest⟩

/-- An access whose end is at a need of one of its pointer's exact bases. -/
def Reaches (once : Once) (i : Inst) (n : Name) (h : Int) : Prop :=
  ∃ a sa p k, rawAccess i = some a ∧ accessSizeAlign a.type = some sa ∧ proofPointers once a.proof = some p ∧
    (n, k) ∈ exactBases once p ∧ h = k + a.off + sa.1 ∧ nearOffset k = true ∧ nearOffset h = true

/-- A need before an instruction is one after it, or its access reaches it. -/
theorem aheadStep_some {once : Once} {i : Inst} {need : Need} (known : aheadStep once i need n = some h) :
    aheadTransparent i = true ∧ (n ∉ instDefs i ∧ need n = some h ∨ Reaches once i n h) := by
  unfold aheadStep at known
  split at known
  · rename_i transparent
    refine ⟨transparent, ?_⟩
    cases raw : rawAccess i with
    | none =>
      rw [raw] at known
      exact .inl (endNeed_some known)
    | some a =>
      simp only [raw] at known
      split at known
      · exact .inl (endNeed_some known)
      · cases size : accessSizeAlign a.type with
        | none =>
          rw [size] at known
          exact .inl (endNeed_some known)
        | some sa =>
          cases pointer : proofPointers once a.proof with
          | none =>
            rw [size, pointer] at known
            exact .inl (endNeed_some known)
          | some p =>
            rw [size, pointer] at known
            rcases raiseNeed_some known with known | ⟨k, mem, rest⟩
            · exact .inl (endNeed_some known)
            · exact .inr ⟨a, sa, p, k, raw, size, pointer, mem, rest⟩
  · cases known

/-! ### Needs at a point -/

/-- The needs before an instruction of a block. -/
def needAt (once : Once) (bs : List Block) (b : Block) (k : Nat) : Need :=
  aheadInsts once (aheadExit bs (aheadEntries once bs) b) (b.insts.drop k)

section
variable {once : Once} {bs : List Block} {b : Block}

theorem needAt_next {k : Nat} {i : Inst} (at_ : b.insts[k]? = some i) :
    needAt once bs b k = aheadStep once i (needAt once bs b (k + 1)) := by
  obtain ⟨inside, rfl⟩ := List.getElem?_eq_some_iff.1 at_
  rw [needAt, drop_eq_getElem_cons inside]
  rfl

theorem needAt_end : needAt once bs b b.insts.length = aheadExit bs (aheadEntries once bs) b := by
  simp [needAt, aheadInsts]

/-- A need at a block's end is one at the entry of each target, none of them polled. -/
theorem aheadExit_some {entries : Name → Need} (known : aheadExit bs entries b n = some h) :
    jumpTargets b.jump ≠ [] ∧ ∀ t ∈ jumpTargets b.jump, ∃ l h', t = .label l ∧ entries l n = some h' ∧ h ≤ h' := by
  unfold aheadExit at known
  cases here : labelPos bs b.label with
  | none =>
    rw [here] at known
    cases known
  | some pos =>
    rw [here] at known
    obtain ⟨some_, each⟩ := needMeet_some known
    refine ⟨by simpa using some_, fun t mem => ?_⟩
    obtain ⟨h', edge, le⟩ := each _ (List.mem_map_of_mem mem)
    cases t with
    | poll l => cases edge
    | label l =>
      simp only [aheadEdge] at edge
      split at edge
      · exact ⟨l, h', rfl, edge, le⟩
      · cases edge

theorem foldl_aheadBlock {rest : List Block} : ∀ {entries : Name → Need} {l : Name},
    (∀ b ∈ rest, b.label ≠ l) → rest.foldl (aheadBlock once bs) entries l = entries l := by
  induction rest with
  | nil => exact fun _ => rfl
  | cons b rest ih =>
    intro entries l other
    rw [foldl_cons, ih (fun b' h => other b' (mem_cons_of_mem _ h))]
    exact if_neg (other b mem_cons_self).symm

/-- A block's exit depends on the entries of later blocks only. -/
theorem aheadExit_later {pre post : List Block} {entries entries' : Name → Need} (split : bs = pre ++ b :: post)
    (labels : (bs.map (·.label)).Nodup)
    (same : ∀ l, (∀ b' ∈ pre, b'.label ≠ l) → b.label ≠ l → entries l = entries' l) :
    aheadExit bs entries b = aheadExit bs entries' b := by
  have here : labelPos bs b.label = some pre.length := by
    rw [labelPos, findIdx?_eq_some_iff_getElem]
    refine ⟨by simp [split], by simp [split], fun j before => ?_⟩
    simp only [split, map_append, map_cons, nodup_append] at labels
    have inside : j < bs.length := by
      simp [split]
      omega
    have mem : bs[j] = pre[j] := by simp [split, getElem_append_left before]
    simp only [mem, decide_eq_true_eq]
    exact labels.2.2 _ (List.mem_map_of_mem (getElem_mem before)) _ mem_cons_self
  simp only [aheadExit, here]
  congr 1
  refine map_congr_left fun t _ => ?_
  cases t with
  | poll l => rfl
  | label l =>
    simp only [aheadEdge]
    split
    · rename_i later
      simp only [Option.any_eq_true, decide_eq_true_eq, labelPos] at later
      obtain ⟨pos, found, gt⟩ := later
      obtain ⟨_, _, first⟩ := findIdx?_eq_some_iff_getElem.1 found
      refine same l (fun b' mem => ?_) ?_
      · obtain ⟨j, inside, rfl⟩ := getElem_of_mem mem
        have := first j (by omega)
        simpa [split, getElem_append_left inside] using this
      · have := first pre.length gt
        simpa [split] using this
    · rfl

/-- The needs at a block's entry are those before its instructions, its phis' apart. -/
theorem aheadEntries_block (labels : (bs.map (·.label)).Nodup) (mem : b ∈ bs) :
    aheadEntries once bs b.label = endNeed (needAt once bs b 0) (b.phis.map (·.dst)) := by
  obtain ⟨pre, post, split⟩ := append_of_mem mem
  have nodup := labels
  simp only [split, map_append, map_cons, nodup_append] at nodup
  have others : ∀ b' ∈ pre.reverse, b'.label ≠ b.label := fun b' h =>
    nodup.2.2 _ (List.mem_map_of_mem (mem_reverse.1 h)) _ mem_cons_self
  have order : bs.reverse = post.reverse ++ b :: pre.reverse := by simp [split]
  have final : ∀ l, (∀ b' ∈ pre, b'.label ≠ l) → b.label ≠ l →
      aheadEntries once bs l = post.reverse.foldl (aheadBlock once bs) (fun _ => noNeed) l := by
    intro l notPre notHere
    rw [aheadEntries, order, foldl_append, foldl_cons,
      foldl_aheadBlock (fun b' h => notPre b' (mem_reverse.1 h))]
    exact if_neg notHere.symm
  have exits := aheadExit_later split labels final
  rw [needAt, drop_zero, exits, aheadEntries, order, foldl_append, foldl_cons,
    foldl_aheadBlock others]
  exact if_pos rfl

/-! ### Justified checks ahead -/

theorem justifiedInsts_mem {out : Need} {q : Name} {is : List Inst} (mem : q ∈ justifiedInsts once out is) :
    ∃ k lo hi r al ahi p, is[k]? = some (.let_ q .a (.checkAhead lo hi r al ahi) [p]) ∧ (once q).isSome ∧
      aheadNeeded once (aheadInsts once out (is.drop (k + 2))) p hi = true := by
  induction is with
  | nil => cases mem
  | cons i is ih =>
    have later : q ∈ justifiedInsts once out is → ∃ k lo hi r al ahi p,
        (i :: is)[k]? = some (.let_ q .a (.checkAhead lo hi r al ahi) [p]) ∧ (once q).isSome ∧
          aheadNeeded once (aheadInsts once out ((i :: is).drop (k + 2))) p hi = true := by
      intro mem
      obtain ⟨k, lo, hi, r, al, ahi, p, at_, rest⟩ := ih mem
      exact ⟨k + 1, lo, hi, r, al, ahi, p, by simpa using at_, by simpa using rest⟩
    unfold justifiedInsts at mem
    split at mem
    · rename_i q' lo hi r al ahi p
      split at mem
      · rename_i needed
        rcases mem_cons.1 mem with rfl | mem
        · simp only [Bool.and_eq_true] at needed
          refine ⟨0, lo, hi, r, al, ahi, p, rfl, needed.1, ?_⟩
          cases is with
          | nil => simp [needPast, aheadNeeded, noNeed] at needed
          | cons access is => exact needed.2
        · exact later mem
      · exact later mem
    · exact later mem

/-- A justified `check_ahead`'s early bytes are needed past its own access. -/
theorem aheadJustified_needed {params : List Param} (labels : (bs.map (·.label)).Nodup)
    {q : Name} (justified : q ∈ aheadJustified (singleDefinitions params bs) bs) (mem : b ∈ bs) {k : Nat}
    {lo hi ahi al : Int} {r : Rights} {p : Value}
    (at_ : b.insts[k]? = some (.let_ q .a (.checkAhead lo hi r al ahi) [p])) :
    ∃ n e h, (n, e) ∈ exactBases (singleDefinitions params bs) p ∧ nearOffset e = true ∧
      needAt (singleDefinitions params bs) bs b (k + 2) n = some h ∧ h ≥ e + hi := by
  simp only [aheadJustified, mem_flatMap] at justified
  obtain ⟨b', mem', justified⟩ := justified
  obtain ⟨k', lo', hi', r', al', ahi', p', at', known, needed⟩ := justifiedInsts_mem justified
  obtain ⟨d, once⟩ := isSome_iff_exists.1 known
  obtain ⟨e0, _, _, _, unique⟩ := once_unique once
  have here := unique _ (inst_entry mem at_ (by simp [instDefs, instTempDefs])) rfl
  have there := unique _ (inst_entry mem' at' (by simp [instDefs, instTempDefs])) rfl
  rw [← there] at here
  simp only [DefEntry.mk.injEq, Def.inst.injEq, Inst.let_.injEq, Op.checkAhead.injEq, Site.at_.injEq,
    Nat.cast_inj, List.cons.injEq, and_true, true_and] at here
  obtain ⟨⟨⟨_, rfl, _⟩, rfl⟩, same, rfl⟩ := here
  cases label_inj labels mem mem' same
  simp only [aheadNeeded, List.any_eq_true, Bool.and_eq_true, Option.any_eq_true, decide_eq_true_eq] at needed
  obtain ⟨⟨n, e⟩, base, near, h, value, ge⟩ := needed
  exact ⟨n, e, h, base, near, value, ge⟩

end

end Nanofil
