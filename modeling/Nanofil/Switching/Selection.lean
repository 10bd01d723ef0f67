import Mathlib.Data.List.Nodup
import Nanofil.Switching.Labels

/-! A switch that is accepted selects C's case, from any value of its expression. -/
namespace Nanofil.Switching
open List Option Nanofil Results

/-! ### The labels of a body -/

/-- The labels of the enclosing switch in a statement, in source order. -/
def Stmt.labels : Stmt → List Own
  | .code _ | .switch _ _ | .breakS | .continueS => []
  | .seq a b => a.labels ++ b.labels
  | .ite _ thenS elseS => thenS.labels ++ elseS.labels
  | .whileS _ body | .doS body _ => body.labels
  | .forS init _ _ body => init.labels ++ body.labels
  | .case e body => .case e :: body.labels
  | .default body => .default :: body.labels

/-- A lowering that gives the enclosing switch labels: each has a number of its own. -/
structure Lowers (labels : List Own) (s s' : Emit) (ns : List Nat) : Prop where
  blocks : s.blocks <:+ s'.blocks
  n : s.n ≤ s'.n
  each : ns.length = labels.length
  fresh : (∀ n ∈ ns, s.n ≤ n ∧ n < s'.n) ∧ ns.Pairwise (· < ·)
  cases : s'.cases = ((labels.zip (ns.map labelName)).flatMap Own.entries).reverse ++ s.cases

section
variable {s s1 s2 : Emit} {as bs : List Own} {ns ms : List Nat} {c : Code} {ctx : Targets} {stmt : Stmt}

theorem Lowers.of_emits (emits : Emits s s1) : Lowers [] s s1 [] :=
  ⟨emits.blocks, emits.n, rfl, ⟨fun _ mem => absurd mem not_mem_nil, List.Pairwise.nil⟩, emits.cases⟩

theorem Lowers.trans (first : Lowers as s s1 ns) (second : Lowers bs s1 s2 ms) : Lowers (as ++ bs) s s2 (ns ++ ms) where
  blocks := first.blocks.trans second.blocks
  n := Nat.le_trans first.n second.n
  each := by rw [length_append, length_append, first.each, second.each]
  fresh := by
    refine ⟨fun n mem => ?_, pairwise_append.2 ⟨first.fresh.2, second.fresh.2, fun n memN m memM => ?_⟩⟩
    · have le1 := first.n
      have le2 := second.n
      rcases mem_append.1 mem with mem | mem
      · have bounds := first.fresh.1 n mem
        omega
      · have bounds := second.fresh.1 n mem
        omega
    · have boundN := first.fresh.1 n memN
      have boundM := second.fresh.1 m memM
      omega
  cases := by
    have same : as.length = (ns.map labelName).length := by rw [length_map, first.each]
    rw [second.cases, first.cases, map_append, zip_append same, flatMap_append, reverse_append,
      append_assoc]

theorem emits_code : Emits s (c.run s) := ⟨c.blocks s, c.n s, c.cases s⟩

/-- What comes before and after a part has no labels. -/
theorem Lowers.between {s0 s3 : Emit} (before : Emits s0 s) (part : Lowers as s s1 ns) (after : Emits s1 s3) :
    Lowers as s0 s3 ns := by
  have whole := (Lowers.of_emits before).trans (part.trans (.of_emits after))
  rwa [nil_append, nil_append, append_nil, append_nil] at whole

theorem emits_targetJump {t : Option Name} {e : SemaError} (jumps : targetJump t e s = .ok s1) : Emits s s1 := by
  cases t with
  | some l =>
    cases jumps
    exact emits_term
  | none => cases jumps

/-! The lowerings, with the names they take numbered. -/

/-- Names that are taken. -/
def Emit.skip (s : Emit) (k : Nat) : Emit := { s with n := s.n + k }

theorem emits_skip (k : Nat) : Emits s (s.skip k) := ⟨suffix_refl _, Nat.le_add_right _ _, rfl⟩

variable {cond : Name → Name → Code}

theorem lower_ite {thenS elseS : Stmt} : lower (.ite cond thenS elseS) ctx s =
    (lower thenS ctx (((cond (labelName s.n) (labelName (s.n + 1))).run (s.skip 3)).start (labelName s.n)) >>= fun s1 =>
      lower elseS ctx ((s1.term (.goto (.label (labelName (s.n + 2))))).start (labelName (s.n + 1))) >>= fun s2 =>
        pure (s2.start (labelName (s.n + 2)))) := rfl

theorem lower_while {body : Stmt} : lower (.whileS cond body) ctx s =
    (lower body ⟨some (labelName (s.n + 2)), some (labelName s.n)⟩
        (((cond (labelName (s.n + 1)) (labelName (s.n + 2))).run ((s.skip 3).start (labelName s.n))).start (labelName (s.n + 1))) >>=
      fun s1 => pure ((s1.term (.goto (.label (labelName s.n)))).start (labelName (s.n + 2)))) := rfl

theorem lower_do {body : Stmt} : lower (.doS body cond) ctx s =
    (lower body ⟨some (labelName (s.n + 2)), some (labelName (s.n + 1))⟩ ((s.skip 3).start (labelName s.n)) >>= fun s1 =>
      pure (((cond (labelName s.n) (labelName (s.n + 2))).run (s1.start (labelName (s.n + 1)))).start (labelName (s.n + 2)))) := rfl

theorem lower_for {init body : Stmt} {step : Code} : lower (.forS init cond step body) ctx s = (lower init ctx s >>= fun s1 =>
      lower body ⟨some (labelName (s1.n + 3)), some (labelName (s1.n + 2))⟩
          (((cond (labelName (s1.n + 1)) (labelName (s1.n + 3))).run ((s1.skip 4).start (labelName s1.n))).start
            (labelName (s1.n + 1))) >>= fun s2 =>
        pure (((step.run (s2.start (labelName (s1.n + 2)))).term (.goto (.label (labelName s1.n)))).start
          (labelName (s1.n + 3)))) := rfl

/-- The state in the body of a case or default: its label begins, with its entries. -/
def Emit.own (s : Emit) (o : Own) : Emit :=
  let s1 := (s.skip 1).start (labelName s.n)
  { s1 with cases := (Own.entries (o, labelName s.n)).reverse ++ s1.cases }

theorem lower_case {e : CaseLabel} {body : Stmt} : lower (.case e body) ctx s = lower body ctx (s.own (.case e)) := rfl

theorem lower_default {body : Stmt} : lower (.default body) ctx s = lower body ctx (s.own .default) := rfl

theorem lowers_own (o : Own) : Lowers [o] s (s.own o) [s.n] where
  blocks := ((emits_skip 1).trans emits_start).blocks
  n := Nat.le_trans (Nat.le_succ _) (emits_start (s := s.skip 1)).n
  each := rfl
  fresh := by
    refine ⟨fun n mem => ?_, pairwise_singleton _ _⟩
    cases mem_singleton.1 mem
    exact ⟨Nat.le_refl _, (emits_start (s := s.skip 1)).n⟩
  cases := by
    have outer : ((s.skip 1).start (labelName s.n)).cases = s.cases := ((emits_skip 1).trans emits_start).cases
    show (Own.entries (o, labelName s.n)).reverse ++ ((s.skip 1).start (labelName s.n)).cases = _
    rw [outer]
    exact congrArg (·.reverse ++ s.cases) (append_nil _).symm

/-- The state where a switch's body begins: past the expression's code, with the switch's two labels. -/
def Expr.enter (e : Expr) (s : Emit) : Emit := ((e.run s).skip 2).term (.goto (.label (labelName (e.run s).n)))

/-- The state where the dispatch begins. -/
def Expr.leave (e : Expr) (s s1 : Emit) : Emit :=
  { s1.term (.goto (.label (labelName ((e.run s).n + 1)))) with cases := (e.enter s).cases }

theorem lower_switch {e : Expr} {body : Stmt} {t0 : IntType} (type : e.type = some t0) : lower (.switch e body) ctx s =
    (lower body { ctx with brk := some (labelName ((e.run s).n + 1)) } { e.enter s with cases := [] } >>= fun s1 =>
      let cases := (s1.term (.goto (.label (labelName ((e.run s).n + 1))))).cases.reverse
      distinctCases cases (integerPromotion t0) >>= fun _ =>
        pure ((dispatch cases (e.value s) (integerPromotion t0) (labelName ((e.run s).n + 1))
          ((e.leave s s1).start (labelName (e.run s).n))).start (labelName ((e.run s).n + 1)))) := by
  simp only [lower, type]
  rfl

theorem emits_dispatch {cases : List Case} {value : Value} {ty : IntType} {lEnd : Name} :
    Emits s (dispatch cases value ty lEnd s) := by
  cases cases with
  | nil => exact emits_term
  | cons c cases =>
    simp only [dispatch]
    split
    · exact emits_dispatchCases _
    · exact emits_dispatchSearch _

/-- The lowering of a statement gives its labels. -/
theorem lower_labels (lowered : lower stmt ctx s = .ok s1) : ∃ ns, Lowers stmt.labels s s1 ns := by
  induction stmt generalizing ctx s s1 with
  | code c =>
    cases lowered
    exact ⟨[], .of_emits emits_code⟩
  | seq a b ihA ihB =>
    rw [lower] at lowered
    obtain ⟨s2, first, second⟩ := bind_ok.1 lowered
    obtain ⟨ns, first⟩ := ihA first
    obtain ⟨ms, second⟩ := ihB second
    exact ⟨ns ++ ms, first.trans second⟩
  | ite cond thenS elseS ihThen ihElse =>
    rw [lower_ite] at lowered
    obtain ⟨s2, first, lowered⟩ := bind_ok.1 lowered
    obtain ⟨s3, second, done⟩ := bind_ok.1 lowered
    cases done
    obtain ⟨ns, first⟩ := ihThen first
    obtain ⟨ms, second⟩ := ihElse second
    exact ⟨ns ++ ms, (first.between ((emits_skip 3).trans (emits_code.trans emits_start)) (emits_term.trans emits_start)).trans
      (second.between .refl emits_start)⟩
  | whileS cond body ih =>
    rw [lower_while] at lowered
    obtain ⟨s2, inner, done⟩ := bind_ok.1 lowered
    cases done
    obtain ⟨ns, inner⟩ := ih inner
    exact ⟨ns, inner.between ((emits_skip 3).trans (emits_start.trans (emits_code.trans emits_start)))
      (emits_term.trans emits_start)⟩
  | doS body cond ih =>
    rw [lower_do] at lowered
    obtain ⟨s2, inner, done⟩ := bind_ok.1 lowered
    cases done
    obtain ⟨ns, inner⟩ := ih inner
    exact ⟨ns, inner.between ((emits_skip 3).trans emits_start) (emits_start.trans (emits_code.trans emits_start))⟩
  | forS init cond step body ihInit ihBody =>
    rw [lower_for] at lowered
    obtain ⟨s2, first, lowered⟩ := bind_ok.1 lowered
    obtain ⟨s3, inner, done⟩ := bind_ok.1 lowered
    cases done
    obtain ⟨ns, first⟩ := ihInit first
    obtain ⟨ms, inner⟩ := ihBody inner
    exact ⟨ns ++ ms, first.trans (inner.between ((emits_skip 4).trans (emits_start.trans (emits_code.trans emits_start)))
      (emits_start.trans (emits_code.trans (emits_term.trans emits_start))))⟩
  | switch e body ih =>
    cases type : e.type with
    | none =>
      simp only [lower, type] at lowered
      cases lowered
    | some t0 =>
      rw [lower_switch type] at lowered
      obtain ⟨s2, inner, lowered⟩ := bind_ok.1 lowered
      obtain ⟨-, -, done⟩ := bind_ok.1 lowered
      cases done
      obtain ⟨ns, inner⟩ := ih inner
      have enters : Emits s (e.enter s) := emits_code.trans ((emits_skip 2).trans emits_term)
      have leaves : Emits (e.enter s) (e.leave s s2) :=
        ⟨inner.blocks.trans emits_term.blocks, Nat.le_trans inner.n emits_term.n, rfl⟩
      exact ⟨[], .of_emits (enters.trans (leaves.trans (emits_start.trans (emits_dispatch.trans emits_start))))⟩
  | case e body ih =>
    rw [lower_case] at lowered
    obtain ⟨ns, inner⟩ := ih lowered
    exact ⟨[s.n] ++ ns, (lowers_own (.case e)).trans inner⟩
  | default body ih =>
    rw [lower_default] at lowered
    obtain ⟨ns, inner⟩ := ih lowered
    exact ⟨[s.n] ++ ns, (lowers_own .default).trans inner⟩
  | breakS => exact ⟨[], .of_emits (emits_targetJump lowered)⟩
  | continueS => exact ⟨[], .of_emits (emits_targetJump lowered)⟩

end

/-! ### Selection -/

/-- The first default, or the end. -/
def firstDefault (labelled : List (Own × Name)) (lEnd : Name) : Name :=
  (labelled.findSome? fun | (.default, l) => some l | _ => none).getD lEnd

/-- The label C selects: that of a case the value matches; with none, the default's or the end. -/
def Selects (ty : IntType) (labelled : List (Own × Name)) (lEnd : Name) (v : Int) (l : Name) : Prop :=
  (∃ e, (.case e, l) ∈ labelled ∧ e.Matches ty v) ∨
    (∀ o ∈ labelled.map Prod.fst, ¬ o.Matches ty v) ∧ l = firstDefault labelled lEnd

section
variable {ty : IntType} {labelled : List (Own × Name)} {cases : List Case} {lEnd l : Name} {v : Int} {c : Nanofil.Ctx} {env : Env}
  {value : Value} {bs : List Block} {n : Nat} {cs : List Case}

def Case.default? : Case → Option Name
  | .default l => some l
  | _ => none

theorem entries_default (e : CaseLabel) : (caseEntries l e).findSome? Case.default? = none := by
  refine findSome?_eq_none_iff.2 fun c mem => ?_
  rcases e with w | ⟨lo, hi⟩
  · cases mem_singleton.1 mem
    rfl
  · rw [caseEntries] at mem
    split at mem
    case isTrue =>
      cases mem_singleton.1 mem
      rfl
    case isFalse =>
      split at mem
      case isTrue => cases mem
      case isFalse =>
        obtain ⟨i, -, rfl⟩ := List.mem_map.1 mem
        rfl

theorem defaultLabel_entries : defaultLabel (labelled.flatMap Own.entries) lEnd = firstDefault labelled lEnd := by
  have names (cases : List Case) : defaultLabel cases lEnd = (cases.findSome? Case.default?).getD lEnd := rfl
  rw [names]
  induction labelled with
  | nil => rfl
  | cons q labelled ih =>
    rw [flatMap_cons, findSome?_append]
    obtain ⟨e | _, l⟩ := q
    · rw [Own.entries, entries_default, none_or, ih]
      rfl
    · rfl

theorem hit_selects (wide : Promoted ty) (fits : AllFit ty (labelled.map Prod.fst)) (one : OneEach ty (labelled.map Prod.fst)) :
    Selects ty labelled lEnd v ((hit (labelled.flatMap (Own.pairs ty)) v).getD (firstDefault labelled lEnd)) := by
  have apart := (apart_iff wide fits).2 one
  by_cases matched : ∃ q ∈ labelled, q.1.Matches ty v
  case pos =>
    obtain ⟨⟨o, l⟩, mem, is⟩ := matched
    obtain ⟨p, memP, covered⟩ := (pairs_cover (l := l) wide (fits o (List.mem_map_of_mem mem))).2 is
    rw [hit_of_mem apart (mem_flatMap.2 ⟨_, mem, memP⟩) covered, getD_some, pairs_label memP]
    cases o with
    | case e => exact .inl ⟨e, mem, is⟩
    | default => cases is
  case neg =>
    have never : ∀ p ∈ labelled.flatMap (Own.pairs ty), covers p v = false := by
      intro p mem
      obtain ⟨⟨o, l⟩, memQ, memP⟩ := mem_flatMap.1 mem
      refine Bool.eq_false_iff.2 fun covered => matched ⟨_, memQ, ?_⟩
      exact (pairs_cover wide (fits o (List.mem_map_of_mem memQ))).1 ⟨p, memP, covered⟩
    rw [hit_none never]
    refine .inr ⟨fun o mem is => ?_, rfl⟩
    obtain ⟨q, memQ, rfl⟩ := List.mem_map.1 mem
    exact matched ⟨q, memQ, is⟩

theorem dispatch_reaches (wide : Promoted ty) (inV : InRange ty v) (sound : ∀ c ∈ cases, c.Sound ty)
    (apart : (cases.filterMap (·.pair ty)).Pairwise Apart)
    (has : Has c (dispatch cases value ty lEnd (opening l bs n cs)).blocks)
    (reads : valueX c.prep env (typeClass ty) value = .ok (.int (v % span ty))) (old : ∀ j, n ≤ j → value ≠ .tmp (tempName j)) :
    Reaches c l env ((hit (cases.filterMap (·.pair ty)) v).getD (defaultLabel cases lEnd)) (Kept n env) := by
  have fits := fits_casePairs wide sound
  rw [hit_perm casePairs_perm.symm apart]
  have apart' : (casePairs ty cases).Pairwise Apart :=
    (casePairs_perm.pairwise_iff fun {p q} apart v both => apart v both.symm).2 apart
  cases cases with
  | nil => exact .head (goto_step has.head .nil) (.refl .refl)
  | cons entry cases =>
    simp only [dispatch] at has
    split at has
    case isTrue => exact dispatchCases_reaches wide inV fits has reads old
    case isFalse =>
      have perm : (keysort (casePairs ty (entry :: cases))).Perm (casePairs ty (entry :: cases)) := mergeSort_perm _ _
      rw [hit_perm perm.symm apart']
      exact dispatchSearch_reaches wide inV (ordered_keysort fits apart') (fun p mem => fits p (perm.mem_iff.1 mem)) has reads old

end

/-- The lowering of a switch's body. -/
def Expr.body (e : Expr) (body : Stmt) (ctx : Targets) (s : Emit) : Except SemaError Emit :=
  lower body { ctx with brk := some (labelName ((e.run s).n + 1)) } { e.enter s with cases := [] }

section
variable {e : Expr} {body : Stmt} {ctx : Targets} {s s1 s' : Emit} {t0 : IntType} {ns : List Nat}

/-- The labels of a lowered body are the switch's cases, in source order. -/
theorem body_cases (inner : Lowers body.labels { e.enter s with cases := [] } s1 ns) (j : Jump) :
    (s1.term j).cases.reverse = (body.labels.zip (ns.map labelName)).flatMap Own.entries := by
  rw [emits_term.cases, inner.cases, append_nil, reverse_reverse]

theorem labels_zip (inner : Lowers body.labels { e.enter s with cases := [] } s1 ns) :
    (body.labels.zip (ns.map labelName)).map Prod.fst = body.labels := by
  rw [map_fst_zip]
  rw [length_map, inner.each]

theorem lower_switch_body (type : e.type = some t0) (lowered : e.body body ctx s = .ok s1)
    (inner : Lowers body.labels { e.enter s with cases := [] } s1 ns) {labelled : List (Own × Name)}
    (are : labelled = body.labels.zip (ns.map labelName)) :
    lower (.switch e body) ctx s = distinctCases (labelled.flatMap Own.entries) (integerPromotion t0) >>= fun _ =>
      pure ((dispatch (labelled.flatMap Own.entries) (e.value s) (integerPromotion t0) (labelName ((e.run s).n + 1))
        ((e.leave s s1).start (labelName (e.run s).n))).start (labelName ((e.run s).n + 1))) := by
  rw [Expr.body] at lowered
  rw [lower_switch type, lowered, are, ← body_cases inner (.goto (.label (labelName ((e.run s).n + 1))))]
  rfl

theorem Has.of_nodup {c : Nanofil.Ctx} {bs : List Block} (within : ∀ b ∈ bs, b ∈ c.func.blocks)
    (distinct : (c.func.blocks.map (·.label)).Nodup) : Has c bs := by
  intro b mem
  cases found : c.func.block? b.label with
  | none =>
    have other := find?_eq_none.1 found b (within b mem)
    simp at other
  | some b' =>
    rw [Func.block?] at found
    have label : b'.label = b.label := by simpa using find?_some found
    rw [inj_on_of_nodup_map distinct (mem_of_find?_eq_some found) (within b mem) label]

theorem dispatch_selects {c : Nanofil.Ctx} {env : Env} {v : Int} {ty : IntType} {labelled : List (Own × Name)} {lEnd l : Name}
    {value : Value} (wide : Promoted ty) (inV : InRange ty v) (fits : AllFit ty (labelled.map Prod.fst))
    (one : OneEach ty (labelled.map Prod.fst)) (closed : Closed s)
    (has : Has c ((dispatch (labelled.flatMap Own.entries) value ty lEnd (s.start l)).start lEnd).blocks)
    (reads : valueX c.prep env (typeClass ty) value = .ok (.int (v % span ty))) (old : ∀ j, s.n ≤ j → value ≠ .tmp (tempName j)) :
    ∃ target, Selects ty labelled lEnd v target ∧ Reaches c l env target (Kept s.n env) := by
  have sound : ∀ c ∈ labelled.flatMap Own.entries, c.Sound ty := by
    intro c mem
    obtain ⟨q, memQ, memC⟩ := mem_flatMap.1 mem
    exact entries_sound (fits q.1 (List.mem_map_of_mem memQ)) memC
  have apart : ((labelled.flatMap Own.entries).filterMap (·.pair ty)).Pairwise Apart := by
    rw [flatMap_pairs]
    exact (apart_iff wide fits).2 one
  have here : Has c (dispatch (labelled.flatMap Own.entries) value ty lEnd (opening l s.blocks s.n s.cases)).blocks := by
    rw [← closed.start]
    exact has.emits emits_start
  have reaches := dispatch_reaches wide inV sound apart here reads old
  rw [flatMap_pairs, defaultLabel_entries] at reaches
  exact ⟨_, hit_selects wide fits one, reaches⟩

/-- A switch whose body lowers is accepted when its long ranges fit and no value has two labels; it is
refused as having duplicate cases when they fit and one has. From the dispatch of one that is accepted, the
run comes to the label of the one case that the value matches, else to the default's, else to the end. -/
theorem switch_selects (type : e.type = some t0) (lowered : e.body body ctx s = .ok s1) :
    ((∃ s', lower (.switch e body) ctx s = .ok s') ↔
      AllFit (integerPromotion t0) body.labels ∧ OneEach (integerPromotion t0) body.labels) ∧
    ((∃ w, lower (.switch e body) ctx s = .error (.duplicate w)) ↔
      AllFit (integerPromotion t0) body.labels ∧ ¬ OneEach (integerPromotion t0) body.labels) ∧
    ∃ ns, Lowers body.labels { e.enter s with cases := [] } s1 ns ∧
      ∀ s' c env v, lower (.switch e body) ctx s = .ok s' →
        (∀ b ∈ s'.blocks, b ∈ c.func.blocks) → (c.func.blocks.map (·.label)).Nodup →
        InRange (integerPromotion t0) v →
        valueX c.prep env (typeClass (integerPromotion t0)) (e.value s) = .ok (.int (v % span (integerPromotion t0))) →
        ∃ l, Selects (integerPromotion t0) (body.labels.zip (ns.map labelName)) (labelName ((e.run s).n + 1)) v l ∧
          Reaches c (labelName (e.run s).n) env l (Kept s1.n env) := by
  have wide := promoted_integerPromotion t0
  obtain ⟨ns, inner⟩ := lower_labels lowered
  obtain ⟨labelled, are⟩ : ∃ labelled, labelled = body.labels.zip (ns.map labelName) := ⟨_, rfl⟩
  have whole := lower_switch_body type lowered inner are
  obtain ⟨accepted, refused⟩ := @distinctCases_labels _ labelled wide
  have firsts : labelled.map Prod.fst = body.labels := are ▸ labels_zip inner
  rw [firsts] at accepted refused
  rw [whole]
  refine ⟨?_, ?_, ns, inner, fun s' c env v done within distinct inV reads => ?_⟩
  · rw [← accepted]
    cases distinctCases (labelled.flatMap Own.entries) (integerPromotion t0) with
    | ok u => exact ⟨fun _ => rfl, fun _ => ⟨_, rfl⟩⟩
    | error e => exact ⟨fun ⟨_, ok⟩ => (nomatch ok), fun ok => (nomatch ok)⟩
  · rw [← refused]
    cases distinctCases (labelled.flatMap Own.entries) (integerPromotion t0) with
    | ok u => exact ⟨fun ⟨_, error⟩ => (nomatch error), fun ⟨_, error⟩ => (nomatch error)⟩
    | error e => exact ⟨fun ⟨w, same⟩ => ⟨w, congrArg Except.error (Except.error.inj same)⟩,
        fun ⟨w, same⟩ => ⟨w, congrArg Except.error (Except.error.inj same)⟩⟩
  · obtain ⟨_, ok, final⟩ := bind_ok.1 done
    obtain ⟨fits, one⟩ := accepted.1 ok
    cases final
    have closed : Closed (e.leave s s1) :=
      have parts : Closed (s1.term (.goto (.label (labelName ((e.run s).n + 1))))) := closed_term
      ⟨parts.1, parts.2⟩
    have after : s1.n ≤ (e.leave s s1).n := (emits_term (s := s1)).n
    have before : (e.run s).n ≤ s1.n :=
      Nat.le_trans ((emits_skip (s := e.run s) 2).trans emits_term).n inner.n
    obtain ⟨l, selected, reaches⟩ := dispatch_selects wide inV (firsts ▸ fits) (firsts ▸ one) closed (Has.of_nodup within distinct) reads
      fun j le => e.old s j (by omega)
    exact ⟨l, are ▸ selected, reaches.mono fun _ kept => ⟨fun x other => kept.vals x fun j le => other j (by omega), kept.doomed,
      kept.snapshot⟩⟩

end

/-! ### Two switches -/

def Code.idle : Code := ⟨id, fun _ => rfl, fun _ => List.suffix_refl _, fun _ => Nat.le_refl _⟩

/-- The constant 2, an `int`. -/
def two : Expr := ⟨Code.idle, fun _ => .const 2, fun _ _ _ same => (nomatch same), some .int⟩

def noBlocks : Emit := ⟨none, [], [], 0, []⟩

/-- `case -1: case 1 ... 3: default:` -/
def threeLabels : Stmt := .case (.value (-1)) (.case (.range 1 3) (.default (.code .idle)))

/-- `case 0 ... 4294967296: case 5:` -/
def wideRange : Stmt := .case (.range 0 4294967296) (.case (.value 5) (.code .idle))

theorem threeLabels_selects : ∃ s1, two.body threeLabels ⟨none, none⟩ noBlocks = .ok s1 ∧
    (∃ s', lower (.switch two threeLabels) ⟨none, none⟩ noBlocks = .ok s') ∧
    ∃ ns, Lowers threeLabels.labels { two.enter noBlocks with cases := [] } s1 ns := by
  obtain ⟨s1, lowered⟩ : ∃ s1, two.body threeLabels ⟨none, none⟩ noBlocks = .ok s1 := ⟨_, rfl⟩
  obtain ⟨accepted, -, ns, inner, -⟩ := @switch_selects two threeLabels _ _ s1 .int rfl lowered
  refine ⟨s1, lowered, accepted.2 ⟨?_, ?_⟩, ns, inner⟩
  · have fits : ∀ o ∈ threeLabels.labels, o.Fits .int := by
      simp [threeLabels, Stmt.labels, Own.Fits, CaseLabel.Fits]
    exact fits
  · have wide : Promoted .int := .inl rfl
    have apart : ∀ v, ¬ (convertInt (-1) .int = v ∧ ∃ x, 1 ≤ x ∧ x ≤ 3 ∧ convertInt x .int = v) := by
      rintro v ⟨rfl, x, le, ge, same⟩
      have inside : InRange .int x := ⟨Int.le_trans (by decide) le, Int.lt_of_le_of_lt ge (by decide)⟩
      rw [(convertInt_self wide).2 inside, (convertInt_self wide).2 (by decide)] at same
      omega
    simp [threeLabels, Stmt.labels, OneEach, Own.Matches, CaseLabel.Matches] at apart ⊢
    exact apart

theorem wideRange_refused : lower (.switch two wideRange) ⟨none, none⟩ noBlocks = .error (.rangeDoesNotFit 0 4294967296) ∧
    ¬ OneEach .int wideRange.labels := by
  refine ⟨rfl, fun one => ?_⟩
  have apart := rel_of_pairwise_cons one mem_cons_self 5
  exact apart ⟨⟨5, by decide, by decide, rfl⟩, rfl⟩

end Nanofil.Switching
