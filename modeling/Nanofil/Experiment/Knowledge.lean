import Nanofil.Experiment.Bookkeeping

/-! What the tables know of derivations, of which Nix says the same whenever it is asked. -/
namespace Experiment
open List Closures Commits

/-! ### Nix -/

/-- What Nix says of derivations: the inputs of each, and what puts it out of scope. -/
structure Facts where
  inputs : Drv → List Drv
  exclusion : Drv → Option String

/-- An entry that Nix shows says what Nix says of its derivation. -/
structure Facts.Tells (nix : Facts) (e : Drv × Info) : Prop where
  inputs : ∀ d, d ∈ e.2.inputDrvs.map (·.1) ↔ d ∈ nix.inputs e.1
  exclusion : e.2.exclusion = nix.exclusion e.1

/-- The graph of a recipe: its derivation, and all that it depends on. -/
structure Facts.Whole (nix : Facts) (drv : Drv) (graph : Graph) : Prop where
  tells : ∀ e ∈ graph, nix.Tells e
  root : drv ∈ graph.map (·.1)
  closed : ∀ e ∈ graph, ∀ d ∈ nix.inputs e.1, d ∈ graph.map (·.1)

/-- A world in which Nix shows what it is asked for, and planners find whole graphs. -/
structure Truthful (nix : Facts) (w : World) : Prop where
  shown : ∀ drvs, ∀ e ∈ w.shown drvs, e.1 ∈ drvs ∧ nix.Tells e
  whole : ∀ aid, ∀ row ∈ (w.worker aid).rows, ∀ drv graph, row.planned = .recipe drv graph → nix.Whole drv graph

/-! ### Rows -/

def Db.known (db : Db) : List Drv := db.derivations.map (·.drv)

section
variable {nix : Facts} {w : World} {op : Op} {runs : Uuid → Option Drv → Prop} {db db' : Db} {s t : Controller} {a b x : Drv}
  {later : List Drv} {e : Drv × Info}

theorem derivation?_update {p : Derivation → Bool} {f : Derivation → Derivation} (same : ∀ d, p d → (f d).drv = d.drv) :
    (db.updateDerivations p f).derivation? x = (db.derivation? x).map (fun d => if p d then f d else d) := by
  simp only [Db.derivation?, Db.updateDerivations, find?_map, Function.comp_def]
  congr 2
  funext d
  split
  · rw [same d ‹_›]
  · rfl

theorem known_update {p : Derivation → Bool} {f : Derivation → Derivation} (same : ∀ d, p d → (f d).drv = d.drv) :
    (db.updateDerivations p f).known = db.known := by
  simp only [Db.known, Db.updateDerivations, map_map]
  refine map_congr_left fun d _ => ?_
  simp only [Function.comp]
  split
  exacts [same d ‹_›, rfl]

theorem derivation?_known : (db.derivation? x).isSome ↔ x ∈ db.known := by
  simp only [Db.derivation?, find?_isSome, decide_eq_true_eq, Db.known, mem_map]

theorem known_insert {name : String} {outputs : Outputs} : b ∈ (db.insertDerivation a name outputs).known ↔ b ∈ db.known ∨ b = a := by
  rw [Db.insertDerivation]
  split
  · rename_i old
    exact ⟨.inl, fun mem => mem.elim id fun same => same ▸ derivation?_known.1 old⟩
  · simp [Db.known]

theorem exclusionOf_insert {name : String} {outputs : Outputs} : (db.insertDerivation a name outputs).exclusionOf x = db.exclusionOf x := by
  rw [Db.insertDerivation]
  split
  · rfl
  · rename_i new
    simp only [Db.exclusionOf, Db.derivation?, find?_append, find?_singleton]
    cases db.derivations.find? (fun d => decide (d.drv = x)) with
    | some d => rfl
    | none =>
      simp only [Option.none_or]
      split <;> rfl

theorem edge_insert {d : Dependency} : Edge (db.insertDependency d).downward a b ↔ Edge db.downward a b ∨ a = d.parent ∧ b = d.child := by
  rw [Db.insertDependency]
  split
  · rename_i old
    refine ⟨.inl, fun h => h.elim id ?_⟩
    rintro ⟨rfl, rfl⟩
    obtain ⟨d', mem, same⟩ := any_eq_true.1 old
    simp only [Bool.and_eq_true, decide_eq_true_eq] at same
    exact mem_map.2 ⟨d', mem, by rw [same.1, same.2]⟩
  · simp [Edge, Db.downward]

theorem insertDependencies_rows (parent : Drv) (children : List (Drv × List String)) (db : Db) :
    (db.insertDependencies parent children).derivations = db.derivations ∧
      ∀ a b, Edge (db.insertDependencies parent children).downward a b ↔
        Edge db.downward a b ∨ a = parent ∧ b ∈ children.map (·.1) := by
  induction children generalizing db with
  | nil => exact ⟨rfl, fun a b => by simp [Db.insertDependencies]⟩
  | cons child children ih =>
    obtain ⟨rows, edges⟩ := ih (db.insertDependency ⟨parent, child.1, child.2⟩)
    refine ⟨rows.trans ?_, fun a b => (edges a b).trans ?_⟩
    · rw [Db.insertDependency]
      split <;> rfl
    · rw [edge_insert, map_cons, mem_cons]
      tauto

theorem known_fill {outputs : Outputs} {metadata : Metadata} : (db.fillDerivation a outputs metadata).known = db.known :=
  known_update fun _ _ => rfl

theorem exclusionOf_fill {outputs : Outputs} {metadata : Metadata} :
    (db.fillDerivation a outputs metadata).exclusionOf x = db.exclusionOf x := by
  rw [Db.exclusionOf, Db.fillDerivation, derivation?_update, Db.exclusionOf]
  · cases db.derivation? x with
    | none => rfl
    | some d =>
      simp only [Option.map_some, Option.bind_some]
      split <;> rfl
  · exact fun _ _ => rfl

theorem known_judge {reason : Option String} : (db.judgeDerivation a reason).known = db.known := known_update fun _ _ => rfl

/-- A derivation that has no exclusion is given one, if there is one to give. -/
theorem exclusionOf_judge {reason : Option String} (known : a ∈ db.known) :
    (db.judgeDerivation a reason).exclusionOf x = if x = a then (db.exclusionOf x).or reason else db.exclusionOf x := by
  rw [Db.exclusionOf, Db.judgeDerivation, derivation?_update, Db.exclusionOf]
  · cases row : db.derivation? x with
    | none =>
      have other : x ≠ a := fun same => by
        rw [same, ← Option.not_isSome_iff_eq_none, derivation?_known] at row
        exact row known
      rw [if_neg other]
      rfl
    | some d =>
      have named : d.drv = x := by simpa using find?_some row
      simp only [Option.map_some, Option.bind_some, named]
      by_cases here : x = a
      · cases judged : d.exclusion <;> simp [here, judged]
      · simp [here]
  · exact fun _ _ => rfl

/-- A derivation's row and edges, and its exclusion where it has none. -/
theorem addDerivation_rows (db : Db) (e : Drv × Info) :
    (∀ d, d ∈ (db.addDerivation e).known ↔ d ∈ db.known ∨ d = e.1) ∧
    (∀ a b, Edge (db.addDerivation e).downward a b ↔ Edge db.downward a b ∨ a = e.1 ∧ b ∈ e.2.inputDrvs.map (·.1)) ∧
    ∀ x, (db.addDerivation e).exclusionOf x = if x = e.1 then (db.exclusionOf x).or e.2.exclusion else db.exclusionOf x := by
  rw [Db.addDerivation]
  generalize mergedOutputs (db.derivation? e.1) (shownOutputs (db.derivation? e.1) e.2) = merged
  generalize shownOutputs (db.derivation? e.1) e.2 = outputs
  set inserted := db.insertDerivation e.1 e.2.name outputs with inserted_eq
  set filled := inserted.fillDerivation e.1 merged ⟨e.2.system, e.2.features, false⟩ with filled_eq
  have here : e.1 ∈ filled.known := by
    rw [filled_eq, known_fill]
    exact known_insert.2 (.inr rfl)
  obtain ⟨rows, edges⟩ := insertDependencies_rows e.1 e.2.inputDrvs (filled.judgeDerivation e.1 e.2.exclusion)
  refine ⟨fun d => ?_, fun a b => ?_, fun x => ?_⟩
  · rw [Db.known, rows]
    change d ∈ (filled.judgeDerivation e.1 e.2.exclusion).known ↔ _
    rw [known_judge, filled_eq, known_fill, inserted_eq, known_insert]
  · have same : (filled.judgeDerivation e.1 e.2.exclusion).downward = db.downward := by
      simp only [Db.judgeDerivation, filled_eq, Db.fillDerivation, inserted_eq, Db.downward, Db.updateDerivations,
        Db.insertDerivation]
      split <;> rfl
    rw [edges, same]
  · rw [Db.exclusionOf, Db.derivation?, rows]
    change (filled.judgeDerivation e.1 e.2.exclusion).exclusionOf x = _
    rw [exclusionOf_judge here, filled_eq, exclusionOf_fill, inserted_eq, exclusionOf_insert]

/-! ### Agreement -/

/-- The tables say what Nix does, but that some inputs have no rows yet. -/
structure Agrees (nix : Facts) (later : List Drv) (db : Db) : Prop where
  parents : ∀ a b, Edge db.downward a b → a ∈ db.known ∧ b ∈ nix.inputs a
  edges : ∀ a ∈ db.known, ∀ b ∈ nix.inputs a, Edge db.downward a b ∧ (b ∈ db.known ∨ b ∈ later)
  exclusions : ∀ d ∈ db.known, (nix.exclusion d).isSome → (db.exclusionOf d).isSome

theorem Agrees.add (agrees : Agrees nix later db) (tells : nix.Tells e)
    (inputs : ∀ d ∈ nix.inputs e.1, d ∈ db.known ∨ d ∈ later) : Agrees nix later (db.addDerivation e) := by
  obtain ⟨known, edges, exclusions⟩ := addDerivation_rows db e
  refine ⟨fun a b edge => ?_, fun a mem b input => ?_, fun d mem out => ?_⟩
  · rcases (edges a b).1 edge with old | ⟨rfl, child⟩
    · exact ⟨(known a).2 (.inl (agrees.parents a b old).1), (agrees.parents a b old).2⟩
    · exact ⟨(known e.1).2 (.inr rfl), (tells.inputs b).1 child⟩
  · rcases (known a).1 mem with old | rfl
    · obtain ⟨edge, row⟩ := agrees.edges a old b input
      exact ⟨(edges a b).2 (.inl edge), row.imp_left fun row => (known b).2 (.inl row)⟩
    · exact ⟨(edges e.1 b).2 (.inr ⟨rfl, (tells.inputs b).2 input⟩), (inputs b input).imp_left fun row => (known b).2 (.inl row)⟩
  · rw [exclusions]
    split
    · rename_i same
      rw [tells.exclusion, ← same, Option.isSome_or, out, Bool.or_true]
    · rename_i other
      exact agrees.exclusions d (((known d).1 mem).resolve_right other) out

theorem Agrees.addGraph : ∀ {graph : Graph} {db : Db}, Agrees nix later db → (∀ e ∈ graph, nix.Tells e) →
    (∀ e ∈ graph, ∀ d ∈ nix.inputs e.1, d ∈ db.known ∨ d ∈ later) →
    Agrees nix later (db.addGraph graph) ∧ ∀ d, d ∈ (db.addGraph graph).known ↔ d ∈ db.known ∨ d ∈ graph.map (·.1) := by
  intro graph
  induction graph with
  | nil => exact fun agrees _ _ => ⟨agrees, fun d => by simp [Db.addGraph]⟩
  | cons e graph ih =>
    intro db agrees tells inputs
    have known := (addDerivation_rows db e).1
    obtain ⟨agrees', rows⟩ := ih (agrees.add (tells e mem_cons_self) (inputs e mem_cons_self))
      (fun e' mem => tells e' (mem_cons_of_mem _ mem))
      (fun e' mem d input => (inputs e' (mem_cons_of_mem _ mem) d input).imp_left fun row => (known d).2 (.inl row))
    refine ⟨agrees', fun d => (rows d).trans ?_⟩
    rw [known, map_cons, mem_cons, or_assoc]

/-- The same rows, dependencies and exclusions. -/
structure SameScope (db db' : Db) : Prop where
  known : ∀ d, d ∈ db'.known ↔ d ∈ db.known
  edges : ∀ a b, Edge db'.downward a b ↔ Edge db.downward a b
  exclusionOf : ∀ d, db'.exclusionOf d = db.exclusionOf d

theorem SameScope.refl (db : Db) : SameScope db db := ⟨fun _ => .rfl, fun _ _ => .rfl, fun _ => rfl⟩

theorem SameScope.trans {db'' : Db} (first : SameScope db db') (next : SameScope db' db'') : SameScope db db'' :=
  ⟨fun d => (next.known d).trans (first.known d), fun a b => (next.edges a b).trans (first.edges a b),
    fun d => (next.exclusionOf d).trans (first.exclusionOf d)⟩

theorem SameGraph.scope (same : SameGraph db db') : SameScope db db' := by
  obtain ⟨derivations, dependencies⟩ := same
  refine ⟨fun d => ?_, fun a b => ?_, fun d => ?_⟩
  · rw [Db.known, derivations, Db.known]
  · rw [Db.downward, dependencies, Db.downward]
  · rw [Db.exclusionOf, Db.derivation?, derivations, Db.exclusionOf, Db.derivation?]

theorem SameScope.closure (same : SameScope db db') : x ∈ db'.closure a ↔ x ∈ db.closure a := by
  simp only [Db.closure, mem_closure]
  exact ⟨Reaches.mono (fun e => (same.edges e.1 e.2).1) fun _ => id, Reaches.mono (fun e => (same.edges e.1 e.2).2) fun _ => id⟩

/-- More exclusions, and the same otherwise. -/
theorem Agrees.congr (agrees : Agrees nix later db) (known : ∀ d, d ∈ db'.known ↔ d ∈ db.known)
    (edges : ∀ a b, Edge db'.downward a b ↔ Edge db.downward a b)
    (exclusions : ∀ d, (db.exclusionOf d).isSome → (db'.exclusionOf d).isSome) : Agrees nix later db' where
  parents a b edge := (agrees.parents a b ((edges a b).1 edge)).imp_left (known a).2
  edges a mem b input := (agrees.edges a ((known a).1 mem) b input).imp (edges a b).2 (Or.imp_left (known b).2)
  exclusions d mem out := exclusions d (agrees.exclusions d ((known d).1 mem) out)

theorem SameScope.agrees (same : SameScope db db') (agrees : Agrees nix later db) : Agrees nix later db' :=
  agrees.congr same.known same.edges fun d out => by rwa [same.exclusionOf]

/-- What Nix shows of a derivation with a row is there already. -/
theorem shown_again (agrees : Agrees nix later db) (row : e.1 ∈ db.known) (tells : nix.Tells e) :
    SameScope db (db.addDerivation e) := by
  obtain ⟨known, edges, exclusions⟩ := addDerivation_rows db e
  refine ⟨fun d => (known d).trans ⟨fun h => h.elim id fun same => same ▸ row, .inl⟩,
    fun a b => (edges a b).trans ⟨fun h => h.elim id ?_, .inl⟩, fun d => ?_⟩
  · rintro ⟨rfl, child⟩
    exact (agrees.edges e.1 row b ((tells.inputs b).1 child)).1
  · rw [exclusions]
    split
    · rename_i same
      rw [tells.exclusion, same]
      cases judged : db.exclusionOf e.1 with
      | some reason => rfl
      | none =>
        have inside : ¬ (nix.exclusion e.1).isSome := fun out => by simpa [judged] using agrees.exclusions e.1 row out
        rw [Option.none_or, Option.not_isSome_iff_eq_none.1 inside]
    · rfl

theorem addGraph_again : ∀ {graph : Graph} {db : Db}, Agrees nix later db → (∀ e ∈ graph, e.1 ∈ db.known ∧ nix.Tells e) →
    SameScope db (db.addGraph graph) := by
  intro graph
  induction graph with
  | nil => exact fun _ _ => .refl _
  | cons e graph ih =>
    intro db agrees told
    obtain ⟨row, tells⟩ := told e mem_cons_self
    have same := shown_again agrees row tells
    exact same.trans (ih (same.agrees agrees) fun e' mem =>
      (told e' (mem_cons_of_mem _ mem)).imp_left (same.known e'.1).2)

/-! ### Commits -/

/-- The tables say what Nix does, of all derivations that candidates and attempts name. -/
structure Known (nix : Facts) (db : Db) : Prop where
  agrees : Agrees nix [] db
  candidates : ∀ c ∈ db.candidates, ∀ d, c.drv = some d → d ∈ db.known
  attempts : ∀ a ∈ db.attempts, ∀ d ∈ a.spec.derivations, d ∈ db.known

theorem Known.congr (known : Known nix db) (same : SameGraph db db')
    (candidates : ∀ c ∈ db'.candidates, ∀ d, c.drv = some d → ∃ x ∈ db.candidates, x.drv = some d)
    (attempts : ∀ a ∈ db'.attempts, ∀ d ∈ a.spec.derivations, d ∈ db.known) : Known nix db' := by
  have scope := same.scope
  refine ⟨scope.agrees known.agrees, fun c mem d planned => ?_, fun a mem d work => (scope.known d).2 (attempts a mem d work)⟩
  obtain ⟨x, mem', planned'⟩ := candidates c mem d planned
  exact (scope.known d).2 (known.candidates x mem' d planned')

theorem Known.closure (known : Known nix db) (row : a ∈ db.known) : ∀ x ∈ db.closure a, x ∈ db.known := by
  intro x mem
  refine (mem_closure.1 mem).keeps (fun d seed => mem_singleton.1 seed ▸ row) fun p q edge row => ?_
  obtain ⟨-, input⟩ := known.agrees.parents p q edge
  exact (known.agrees.edges p row q input).2.resolve_right not_mem_nil

theorem same_ingest_graph (db : Db) (aid : Uuid) (log : List Record) : SameGraph db (db.ingest aid log) := by
  induction log generalizing db with
  | nil => exact ⟨rfl, rfl⟩
  | cons r log ih =>
    have first : SameGraph db (db.observe aid r) := by
      cases r with
      | start act drv =>
        rw [Db.observe]
        split <;> exact ⟨rfl, rfl⟩
      | phase => exact ⟨rfl, rfl⟩
    have rest := ih (db.observe aid r)
    exact ⟨rest.1.trans first.1, rest.2.trans first.2⟩

theorem same_insertTests_graph (db : Db) (aid : Uuid) (drv : Drv) (phases : List String) :
    SameGraph db (db.insertTests aid drv phases) := by
  induction phases generalizing db with
  | nil => exact ⟨rfl, rfl⟩
  | cons phase phases ih =>
    rw [Db.insertTests, foldl_cons]
    split
    · exact ih db
    · exact ih _

theorem Known.shown {graph : Graph} (known : Known nix db) (told : ∀ e ∈ graph, e.1 ∈ db.known ∧ nix.Tells e) :
    Known nix (db.addGraph graph) := by
  have scope := addGraph_again known.agrees told
  have same := same_addGraph db graph
  exact ⟨scope.agrees known.agrees, fun c mem d planned => (scope.known d).2 (known.candidates c (same.candidates ▸ mem) d planned),
    fun a mem d work => (scope.known d).2 (known.attempts a (same.attempts ▸ mem) d work)⟩

theorem Known.whole {drv : Drv} {graph : Graph} (known : Known nix db) (whole : nix.Whole drv graph) :
    Known nix (db.addGraph graph) ∧ drv ∈ (db.addGraph graph).known := by
  have start : Agrees nix (graph.map (·.1)) db :=
    ⟨known.agrees.parents, fun a mem b input => (known.agrees.edges a mem b input).imp_right
      fun row => row.imp_right fun never => absurd never not_mem_nil, known.agrees.exclusions⟩
  obtain ⟨agrees, rows⟩ := start.addGraph whole.tells fun e mem d input => .inr (whole.closed e mem d input)
  have same := same_addGraph db graph
  refine ⟨⟨⟨agrees.parents, fun a mem b input => ?_, agrees.exclusions⟩, fun c mem d planned => ?_, fun a mem d work => ?_⟩,
    (rows drv).2 (.inr whole.root)⟩
  · obtain ⟨edge, row⟩ := agrees.edges a mem b input
    exact ⟨edge, .inl (row.elim id fun later => (rows b).2 (.inr later))⟩
  · exact (rows d).2 (.inl (known.candidates c (same.candidates ▸ mem) d planned))
  · exact (rows d).2 (.inl (known.attempts a (same.attempts ▸ mem) d work))

theorem Known.planRow {attempt : Attempt} {row : PlanRow} (truthful : Truthful nix w) (known : Known nix db)
    (found : row ∈ (w.worker attempt.id).rows) : Known nix (db.planRow attempt row) := by
  rw [Db.planRow]
  cases planned : row.planned with
  | error message =>
    refine known.congr ⟨rfl, rfl⟩ (fun c mem d planned => ?_) known.attempts
    obtain ⟨x, mem', rfl⟩ := mem_map.1 mem
    refine ⟨x, mem', ?_⟩
    split at planned
    exacts [planned, planned]
  | recipe drv graph =>
    obtain ⟨known', root⟩ := known.whole (truthful.whole attempt.id row found drv graph planned)
    refine ⟨known'.agrees.congr (fun _ => .rfl) (fun _ _ => .rfl) (fun _ out => out), fun c mem d planned => ?_, known'.attempts⟩
    obtain ⟨x, mem', rfl⟩ := mem_map.1 mem
    split at planned
    · cases planned
      exact root
    · exact known'.candidates x mem' d planned

theorem Written.known (truthful : Truthful nix w) (written : Written w runs db db') (known : Known nix db) : Known nix db' := by
  induction written with
  | refl => exact known
  | trans _ _ first next => exact next (first known)
  | @candidates db p f turns drv =>
    refine known.congr ⟨rfl, rfl⟩ (fun c mem d planned => ?_) known.attempts
    obtain ⟨x, mem', rfl⟩ := mem_map.1 mem
    refine ⟨x, mem', ?_⟩
    split at planned
    · rwa [drv] at planned
    · exact planned
  | @derivations db p f same =>
    have rows : (db.updateDerivations p f).known = db.known := known_update fun d chosen => (same d chosen).1
    refine ⟨known.agrees.congr (fun d => by rw [rows]) (fun _ _ => .rfl) fun d out => ?_,
      fun c mem d planned => rows ▸ known.candidates c mem d planned, fun a mem d work => rows ▸ known.attempts a mem d work⟩
    rw [Db.exclusionOf, derivation?_update fun d chosen => (same d chosen).1]
    rw [Db.exclusionOf] at out
    cases row : db.derivation? d with
    | none => simp [row] at out
    | some r =>
      simp only [row, Option.bind_some, Option.map_some] at out ⊢
      split
      · exact (same r ‹_›).2 out
      · exact out
  | @attempts db p f same =>
    refine known.congr ⟨rfl, rfl⟩ (fun c mem d planned => ⟨c, mem, planned⟩) fun a mem d work => ?_
    obtain ⟨b, mem', rfl⟩ := mem_map.1 mem
    refine known.attempts b mem' d ?_
    split at work
    · rwa [(same b mem' ‹_›).spec] at work
    · exact work
  | campaign | event => exact known.congr ⟨rfl, rfl⟩ (fun c mem d planned => ⟨c, mem, planned⟩) known.attempts
  | @shown db drvs asked =>
    refine known.shown fun e mem => ?_
    obtain ⟨here, tells⟩ := truthful.shown drvs e mem
    refine ⟨(asked e.1 here).elim id ?_, tells⟩
    rintro ⟨c, mem, planned⟩
    exact known.candidates c mem e.1 planned
  | planned found => exact known.planRow truthful found
  | @ingested db aid log =>
    have same := same_ingest db aid log
    exact known.congr (same_ingest_graph db aid log) (fun c mem d planned => ⟨c, same.candidates ▸ mem, planned⟩)
      fun a mem => known.attempts a (same.attempts ▸ mem)
  | @tested db aid drv phases =>
    have same := same_insertTests db aid drv phases
    exact known.congr (same_insertTests_graph db aid drv phases) (fun c mem d planned => ⟨c, same.candidates ▸ mem, planned⟩)
      fun a mem => known.attempts a (same.attempts ▸ mem)

/-- What an intent does to candidates: they stay, each with its derivation or without one. -/
theorem intend_candidates {c : Campaign} {spec : Spec} {x' : Candidate} (mem : x' ∈ (db.intend c spec).candidates) :
    ∃ x ∈ db.candidates, x'.id = x.id ∧ x'.campaign = x.campaign ∧ (x'.drv = x.drv ∨ x'.drv = none) := by
  rw [Db.intend] at mem
  cases targets : spec.targets with
  | build drvs =>
    simp only [targets] at mem
    obtain ⟨x, mem', rfl⟩ := mem_map.1 mem
    refine ⟨x, mem', ?_⟩
    split <;> exact ⟨rfl, rfl, .inl rfl⟩
  | plan ids =>
    simp only [targets, Db.event] at mem
    split at mem
    · exact ⟨x', mem, rfl, rfl, .inl rfl⟩
    · obtain ⟨x, mem', rfl⟩ := mem_map.1 mem
      refine ⟨x, mem', ?_⟩
      split
      exacts [⟨rfl, rfl, .inr rfl⟩, ⟨rfl, rfl, .inl rfl⟩]

theorem Known.intend {c : Campaign} {spec : Spec} (known : Known nix db) (rows : ∀ d ∈ spec.derivations, d ∈ db.known) :
    Known nix (db.intend c spec) := by
  refine known.congr (intend_graph db c spec) (fun x' mem d planned => ?_) fun a mem d work => ?_
  · obtain ⟨x, mem', -, -, same | gone⟩ := intend_candidates mem
    exacts [⟨x, mem', same ▸ planned⟩, absurd (gone.symm.trans planned) nofun]
  · rw [intend_attempts] at mem
    rcases mem_append.1 mem with mem | new
    · exact known.attempts a mem d work
    · rw [mem_singleton.1 new] at work
      exact rows d work

theorem buildSpec_derivations {c : Campaign} {it : BuildIntent} {spec : Spec} (submitted : buildSpec w c it s = .ok spec) :
    spec.derivations = it.derivations := by
  obtain ⟨-, -, submitted⟩ := bind_ok submitted
  obtain ⟨-, -, submitted⟩ := bind_ok submitted
  obtain ⟨effective, -, submitted⟩ := bind_ok submitted
  obtain ⟨available, -, submitted⟩ := bind_ok submitted
  cases submitted
  rfl

theorem planSpec_derivations {c : Campaign} {it : PlanIntent} {spec : Spec} (submitted : planSpec c it s = .ok spec) :
    spec.derivations = [] := by
  obtain ⟨-, -, submitted⟩ := bind_ok submitted
  cases submitted
  rfl

theorem Commit.known (truthful : Truthful nix w) (commit : Commit w op s t) (known : Known nix s.db) : Known nix t.db := by
  cases commit with
  | written written => exact written.known truthful known
  | imported created source revision policy selections asked db =>
    rw [db]
    refine known.congr ⟨rfl, rfl⟩ (fun c mem d planned => ?_) known.attempts
    rcases mem_append.1 mem with mem | new
    · exact ⟨c, mem, planned⟩
    · obtain ⟨r, -, rfl⟩ := mem_map.1 new
      cases planned
  | scheduled cid old new ahead db =>
    exact db ▸ known.congr ⟨rfl, rfl⟩ (fun c mem d planned => ⟨c, mem, planned⟩) known.attempts
  | built c it spec row submitted covers derivations rooted db =>
    refine db ▸ known.intend fun d work => ?_
    rw [buildSpec_derivations submitted, derivations, mem_dedup, mem_flatMap] at work
    obtain ⟨target, mem, inside⟩ := work
    obtain ⟨x, mem', planned⟩ := rooted target mem
    exact known.closure (known.candidates x mem' target planned) d inside
  | planned c it spec row submitted ids db =>
    refine db ▸ known.intend fun d work => ?_
    rw [planSpec_derivations submitted] at work
    cases work
  | finished a mid reason result live written released db =>
    rw [db]
    refine (written.known truthful known).congr ⟨rfl, rfl⟩ (fun c mem d planned => ⟨c, mem, planned⟩) fun b mem d work => ?_
    obtain ⟨b', mem', rfl⟩ := mem_map.1 mem
    refine (written.known truthful known).attempts b' mem' d ?_
    split at work <;> exact work
  | queued c o ids pending now command distinct source found db =>
    exact db ▸ known.congr ⟨rfl, rfl⟩ (fun c mem d planned => ⟨c, mem, planned⟩) known.attempts
  | skipped cid drvs db =>
    rw [db, Db.skipReplans]
    simp only
    split
    · exact known
    · exact known.congr ⟨rfl, rfl⟩ (fun c mem d planned => ⟨c, mem, planned⟩) known.attempts

theorem known_empty : Known nix .empty :=
  ⟨⟨nofun, forall_mem_nil _, forall_mem_nil _⟩, forall_mem_nil _, forall_mem_nil _⟩

end

/-! What a tick relies on in every state that a run reaches. -/

variable {nix : Facts} {w : World} {op : Op} {db db' : Db} {r s t : Controller} {c : Campaign}

/-- The sources of queued requests are in the store. -/
def Stored (w : World) (db : Db) : Prop :=
  ∀ r ∈ db.replans, w.onDisk (r.source ++ "/flake.nix") ∧ w.onDisk (r.source ++ "/flake.lock")

/-- An operation in a world where Nix is truthful and keeps the sources of queued requests; a
campaign is imported with the policy that `import_campaign` gives it. -/
structure Permitted (nix : Facts) (w : World) (op : Op) (s : Controller) : Prop where
  truthful : Truthful nix w
  imports : ∀ created source revision policy selections, op = .import_ created source revision policy selections →
    policy = .default
  stored : op = .tick → Stored w s.db

/-- A request is of candidates of one campaign. -/
def Db.Owned (db : Db) : Prop :=
  ∃ owner : Uuid → Uuid, ∀ r ∈ db.replans, ∃ x ∈ db.candidates, x.id = r.candidate ∧ x.campaign = owner r.request

structure Standing (nix : Facts) (db : Db) : Prop where
  known : Known nix db
  books : Bookkept db
  unplanned : ∀ c ∈ db.candidates, c.state = .unplanned → c.drv = none
  owned : db.Owned
  sources : ∀ r ∈ db.replans, sourceName r.source r.revision
  lookahead : ∀ c ∈ db.campaigns, c.policy.rolling → c.policy.planAhead ≠ 0

theorem Commit.unplanned (commit : Commit w op s t) (unplanned : ∀ c ∈ s.db.candidates, c.state = .unplanned → c.drv = none) :
    ∀ c ∈ t.db.candidates, c.state = .unplanned → c.drv = none := by
  obtain ⟨cs, new, turns, same, added⟩ := commit.turns
  intro c' mem new_
  rcases mem_append.1 (same ▸ mem) with mem | mem
  · obtain ⟨c, mem, turn⟩ := mem_right turns mem
    rcases turn.unplanned new_ with none_ | ⟨old, kept⟩
    · exact none_
    · exact kept.trans (unplanned c mem old)
  · exact (added c' mem).1

/-- A request of candidates of a campaign that is queued as the next event. -/
structure Asked (db : Db) (cid : Uuid) (r : Replan) : Prop where
  request : r.request = db.events.length
  source : sourceName r.source r.revision
  found : ∃ x ∈ db.candidates, x.id = r.candidate ∧ x.campaign = cid

/-- The requests after a commit: those there were, or some of them, and those of one command. -/
theorem Commit.requests (commit : Commit w op s t) : ∃ cid, ∀ r ∈ t.db.replans, r ∈ s.db.replans ∨
    op ≠ .tick ∧ Asked s.db cid r := by
  have fewer : (∀ r ∈ t.db.replans, r ∈ s.db.replans) → ∃ cid, ∀ r ∈ t.db.replans, r ∈ s.db.replans ∨
      op ≠ .tick ∧ Asked s.db cid r := fun sub => ⟨0, fun r mem => .inl (sub r mem)⟩
  cases commit with
  | written written => exact fewer fun r mem => written.kept.replans ▸ mem
  | imported created source revision policy selections asked db => exact fewer fun r mem => by rw [db] at mem; exact mem
  | scheduled cid old new ahead db => exact fewer fun r mem => by rw [db] at mem; exact mem
  | built c it spec row submitted covers derivations rooted db =>
    refine fewer fun r mem => ?_
    rw [db, intend_replans] at mem
    exact mem_of_mem_filter mem
  | planned c it spec row submitted ids db =>
    refine fewer fun r mem => ?_
    rw [db, intend_replans] at mem
    exact mem_of_mem_filter mem
  | finished a mid reason result live written released db =>
    refine fewer fun r mem => ?_
    rw [db] at mem
    exact written.kept.replans ▸ mem
  | queued c o ids pending now command distinct source found db =>
    refine ⟨c.id, fun r mem => ?_⟩
    rw [db] at mem
    rcases mem_append.1 mem with mem | mem
    · exact .inl mem
    · obtain ⟨id, asked, rfl⟩ := mem_map.1 mem
      exact .inr ⟨command, rfl, source, ((pendingReplans_ok found).2 id asked).found⟩
  | skipped cid drvs db => exact fewer fun r mem => skipReplans_sub s.db cid drvs r (db ▸ mem)

theorem Commit.owned (ledger : Ledger s.db) (commit : Commit w op s t) (owned : s.db.Owned) : t.db.Owned := by
  obtain ⟨owner, owns⟩ := owned
  obtain ⟨cid, requests⟩ := commit.requests
  obtain ⟨cs, new, turns, same, -⟩ := commit.turns
  have stays : ∀ x ∈ s.db.candidates, ∃ x' ∈ t.db.candidates, x'.id = x.id ∧ x'.campaign = x.campaign := fun x mem => by
    obtain ⟨x', mem', turn⟩ := mem_left turns mem
    exact ⟨x', same ▸ mem_append_left _ mem', turn.id, turn.campaign⟩
  refine ⟨Function.update owner s.db.events.length cid, fun r mem => ?_⟩
  rcases requests r mem with old | ⟨-, here, -, x, mem', id, own⟩
  · obtain ⟨x, mem', id, own⟩ := owns r old
    obtain ⟨x', mem'', id', own'⟩ := stays x mem'
    -- The new request is of the event that this commit adds, which no earlier one is of.
    have asked : r.key ∈ s.db.asked :=
      ledger.accounted.mem_iff.2 (mem_append_left _ (mem_append_left _ (mem_map_of_mem old)))
    have issued : r.request ≠ s.db.events.length := (ledger.issued _ asked).ne
    exact ⟨x', mem'', id'.trans id, by rw [Function.update_of_ne issued, own', own]⟩
  · obtain ⟨x', mem'', id', own'⟩ := stays x mem'
    exact ⟨x', mem'', id'.trans id, by rw [here, Function.update_self, own', own]⟩

theorem Commit.sources (commit : Commit w op s t) (sources : ∀ r ∈ s.db.replans, sourceName r.source r.revision) :
    ∀ r ∈ t.db.replans, sourceName r.source r.revision := by
  obtain ⟨cid, requests⟩ := commit.requests
  intro r mem
  rcases requests r mem with old | ⟨-, asked⟩
  exacts [sources r old, asked.source]

/-- A tick queues no request. -/
theorem Commit.stored (commit : Commit w .tick s t) (stored : Stored w s.db) : Stored w t.db := by
  obtain ⟨cid, requests⟩ := commit.requests
  intro r mem
  rcases requests r mem with old | ⟨command, -⟩
  exacts [stored r old, absurd rfl command]

theorem Commit.lookahead (permitted : Permitted nix w op r) (commit : Commit w op s t)
    (lookahead : ∀ c ∈ s.db.campaigns, c.policy.rolling → c.policy.planAhead ≠ 0) :
    ∀ c ∈ t.db.campaigns, c.policy.rolling → c.policy.planAhead ≠ 0 := by
  have kept : ∀ {runs db}, Kept runs s.db db → ∀ c ∈ db.campaigns, c.policy.rolling → c.policy.planAhead ≠ 0 := by
    intro runs db kept c mem
    obtain ⟨c', mem', same⟩ := mem_map.1 (kept.campaigns ▸ mem_map_of_mem (f := fun c : Campaign => (c.id, c.policy)) mem)
    rw [← (Prod.mk.inj same).2]
    exact lookahead c' mem'
  cases commit with
  | written written => exact kept written.kept
  | imported created source revision policy selections asked db =>
    rw [db]
    intro c mem
    rcases mem_append.1 mem with mem | mem
    · exact lookahead c mem
    · rw [mem_singleton.1 mem, permitted.imports _ _ _ _ _ asked]
      nofun
  | scheduled cid old new ahead db =>
    rw [db]
    intro c mem
    obtain ⟨c', mem', rfl⟩ := mem_map.1 mem
    split
    · intro rolling none_
      exact ahead ⟨of_decide_eq_true rolling, none_⟩
    · exact lookahead c' mem'
  | built c it spec row submitted covers derivations rooted db => rwa [db, intend_campaigns]
  | planned c it spec row submitted ids db => rwa [db, intend_campaigns]
  | finished a mid reason result live written released db =>
    have held := kept written.kept
    rwa [db]
  | queued c o ids pending now command distinct source found db => rwa [db]
  | skipped cid drvs db => rwa [db, (skipReplans_rows s.db cid drvs).1]

theorem Commit.standing (permitted : Permitted nix w op r) (indexed : Indexed s.db) (commit : Commit w op s t)
    (standing : Standing nix s.db) : Standing nix t.db where
  known := commit.known permitted.truthful standing.known
  books := commit.bookkept indexed standing.books
  unplanned := commit.unplanned standing.unplanned
  owned := commit.owned standing.books.ledger standing.owned
  sources := commit.sources standing.sources
  lookahead := commit.lookahead permitted standing.lookahead

theorem standing_empty : Standing nix .empty where
  known := known_empty
  books := bookkept_empty
  unplanned := forall_mem_nil _
  owned := ⟨id, forall_mem_nil _⟩
  sources := forall_mem_nil _
  lookahead := forall_mem_nil _

theorem atRest_standing (rest : AtRest (Permitted nix) s) : Indexed s.db ∧ Standing nix s.db :=
  atRest_keeps standing_empty (fun permitted indexed commit => commit.standing permitted indexed) rest

end Experiment
