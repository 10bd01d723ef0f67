import Nanofil.Invocations

/-! The image a valid module's runs start from: every symbol gets an address, every object
its bytes and capabilities. -/
namespace Nanofil
open List Option Results

/-- A plain module's data names only symbols that the module defines. -/
def symbolsDefined (m : Module) : Bool :=
  m.datas.all (fun d => d.items.all (fun item => match item with | .sym .l s _ => dataNamed m s | _ => true))

/-- Laying out and filling an accepted image never fails. -/
abbrev Never : RunError → Prop := fun _ => False

/-! ### Layouts -/

/-- The name an item's place in the image is known by. -/
def laidName : Item → Option Name
  | .func f => some f.name
  | .data d => if d.linkage = .externWeak ∧ d.items = [] then none else some d.name
  | .alias _ => none

/-- A capability that an image may hold: of one of its objects, or of a function. -/
def LaidCap (m : Module) (regions : List Region) (c : Cap) : Prop :=
  (∀ base, capBase c = some base → ∃ r ∈ regions, r.base = base) ∧ ∀ g, c = .fn g → ∃ f ∈ m.funcs, f.name = g

def PlainWord (_ : List Region) (x : Word) : Prop := ∃ a, x = .int a ∧ 0 ≤ a
def FilcWord (m : Module) (regions : List Region) (x : Word) : Prop :=
  ∃ a c, x = .ptr a c ∧ (0 ≤ a ∧ a % 8 = 0) ∧ LaidCap m regions c

/-- A layout of the items seen so far, each symbol's word as `Q` says. -/
structure Laid (Q : List Region → Word → Prop) (seen : List Item) (lay : Layout) : Prop where
  at_ : 0 ≤ lay.at_
  globals : ∀ g x, lay.globals g = some x → Q lay.regions x
  kinds : ∀ r ∈ lay.regions, r.kind = .global

/-- The names of the items seen that have a place. -/
def NamesLaid (named : Item → Option Name) (seen : List Item) (globals : Name → Option Word) : Prop :=
  ∀ item ∈ seen, ∀ n, named item = some n → (globals n).isSome

section
variable {m : Module} {regions : List Region} {seen : List Item} {lay : Layout}

theorem put_some {f : Name → Option Word} {d n : Name} {x y : Word} (known : put f d x n = some y) :
    y = x ∨ f n = some y := by
  unfold Nanofil.put at known
  split at known
  · exact .inl (Option.some.inj known).symm
  · exact .inr known

theorem LaidCap.cons {c : Cap} (cap : LaidCap m regions c) (r : Region) : LaidCap m (r :: regions) c :=
  ⟨fun base h => by
    obtain ⟨r', mem_r, based⟩ := cap.1 base h
    exact ⟨r', mem_cons_of_mem _ mem_r, based⟩, cap.2⟩

theorem FilcWord.cons {x : Word} (word : FilcWord m regions x) (r : Region) : FilcWord m (r :: regions) x := by
  obtain ⟨a, c, is, low, cap⟩ := word
  exact ⟨a, c, is, low, cap.cons r⟩

variable {globals : Name → Option Word} {mode : Mode} {stage : Stage} {d : Data} {c : Contents}

theorem NamesLaid.put {named : Item → Option Name} (laid : NamesLaid named seen globals)
    {item : Item} {n : Name} (x : Word) (this : ∀ n', named item = some n' → n' = n) :
    NamesLaid named (item :: seen) (put globals n x) := by
  intro item' h n' is
  unfold Nanofil.put
  split
  · rfl
  · rename_i other
    rcases mem_cons.1 h with rfl | h
    · exact absurd (this n' is) other
    · exact laid item' h n' is

theorem NamesLaid.skip {named : Item → Option Name} {globals : Name → Option Word} (laid : NamesLaid named seen globals)
    {item : Item} (none : named item = none) : NamesLaid named (item :: seen) globals := by
  intro item' h n' is
  rcases mem_cons.1 h with rfl | h
  · rw [none] at is
    cases is
  · exact laid item' h n' is

theorem dataAlign_pos {n : Int} (aligned : dataAlign n = true) : 0 < n := by
  simp only [dataAlign, dataAligns, decide_eq_true_eq, mem_cons, not_mem_nil, or_false] at aligned
  omega

theorem roundUp_eighth (n : Int) {align : Int} (eighth : align % 8 = 0) : roundUp n align % 8 = 0 := by
  rw [roundUp, Int.mul_emod, eighth]
  simp

theorem dataAlign_eighth {n : Int} (aligned : dataAlign n = true) : max n 16 % 8 = 0 := by
  simp only [dataAlign, dataAligns, decide_eq_true_eq, mem_cons, not_mem_nil, or_false] at aligned
  omega

def dataName : Item → Option Name
  | .data d => some d.name
  | _ => none

theorem plainLayout_ends {item : Item} (valid : validItem m mode stage item = true)
    (notAlias : ∀ a, item ≠ .alias a) (laid : Laid PlainWord seen lay) (named : NamesLaid dataName seen lay.globals) :
    Ends Never (fun lay' => Laid PlainWord (item :: seen) lay' ∧ NamesLaid dataName (item :: seen) lay'.globals)
      (plainLayout lay item) := by
  rcases item with f | d | a
  · exact Ends.ok ⟨⟨laid.at_, laid.globals, laid.kinds⟩, named.skip rfl⟩
  · simp only [validItem, validData, Bool.and_eq_true, List.all_eq_true] at valid
    have size := itemsSize_nonneg fun i mem => (valid.1.2 i mem).1.2
    have aligned : 0 < d.align := dataAlign_pos valid.1.1.1
    have above := roundUp_ge (n := lay.at_) aligned
    have low := laid.at_
    refine Ends.ok ⟨⟨by dsimp only; omega, fun g x known => ?_, fun r h => ?_⟩,
      named.put _ fun n' is => (Option.some.inj is).symm⟩
    · rcases put_some known with rfl | old
      · exact ⟨_, rfl, by omega⟩
      · exact laid.globals g x old
    · rcases mem_cons.1 h with rfl | h
      · rfl
      · exact laid.kinds r h
  · exact absurd rfl (notAlias a)

theorem dataCap_ends {linkage : Linkage} (placed : linkage ≠ .externWeak) (base : Int) :
    Ends Never (fun c => capBase c = some base) (dataCap linkage base) := by
  cases linkage <;> first | exact absurd rfl placed | exact Ends.ok rfl

theorem externWeak_empty (linkage : dataLinkage m mode d = true) (weak : d.linkage = .externWeak) : d.items = [] := by
  simp only [dataLinkage, weak, Bool.and_eq_true, decide_eq_true_eq] at linkage
  exact linkage.1.2

theorem filcLayout_ends {item : Item} (mem_item : item ∈ m.items)
    (valid : validItem m mode stage item = true) (laid : Laid (FilcWord m) seen lay)
    (named : NamesLaid laidName seen lay.globals) :
    Ends Never (fun lay' => Laid (FilcWord m) (item :: seen) lay' ∧ NamesLaid laidName (item :: seen) lay'.globals)
      (filcLayout lay item) := by
  have low := laid.at_
  rcases item with f | d | a
  · have above : lay.at_ ≤ roundUp lay.at_ 16 := roundUp_ge (by omega)
    refine Ends.ok ⟨⟨by dsimp only; omega, fun g x known => ?_, laid.kinds⟩, named.put _ fun n' is => (Option.some.inj is).symm⟩
    rcases put_some known with rfl | old
    · refine ⟨_, _, rfl, ⟨by omega, roundUp_eighth _ rfl⟩, fun base h => (by cases h), fun g h => ?_⟩
      cases h
      exact ⟨f, mem_filterMap.2 ⟨_, mem_item, rfl⟩, rfl⟩
    · exact laid.globals g x old
  · simp only [validItem, validData, Bool.and_eq_true, List.all_eq_true] at valid
    unfold filcLayout
    dsimp only
    split
    · rename_i absent
      exact Ends.ok ⟨⟨laid.at_, laid.globals, laid.kinds⟩, named.skip (by simp [laidName, absent])⟩
    · rename_i present
      have size := itemsSize_nonneg fun i mem => (valid.1.2 i mem).1.2
      have above : lay.at_ ≤ roundUp lay.at_ (max d.align 16) := roundUp_ge (by omega)
      have round : itemsSize d.items ≤ roundUp (itemsSize d.items) 8 := roundUp_ge (by omega)
      have placed : d.linkage ≠ .externWeak := fun weak => present ⟨weak, externWeak_empty valid.1.1.2 weak⟩
      refine (dataCap_ends placed _).bind fun c based => Ends.pure ⟨⟨by dsimp only; omega, fun g x known => ?_, fun r h => ?_⟩,
        named.put _ fun n' is => ?_⟩
      · rcases put_some known with rfl | old
        · refine ⟨_, c, rfl, ⟨by omega, roundUp_eighth _ (dataAlign_eighth valid.1.1.1)⟩, fun base h => ⟨_, mem_cons_self, ?_⟩, fun g h => ?_⟩
          · rw [based] at h
            exact Option.some.inj h
          · subst h
            cases based
        · exact (laid.globals g x old).cons _
      · rcases mem_cons.1 h with rfl | h
        · rfl
        · exact laid.kinds r h
      · simp only [laidName] at is
        split at is
        · cases is
        · exact (Option.some.inj is).symm
  · exact Ends.ok ⟨⟨laid.at_, laid.globals, laid.kinds⟩, named.skip rfl⟩

theorem funcNamed_mem {g : Name} (named : (funcNamed m g).isSome) : ∃ f, .func f ∈ m.items ∧ f.name = g := by
  obtain ⟨f, found⟩ := isSome_iff_exists.1 named
  have mem_f : f ∈ m.funcs := mem_of_find?_eq_some found
  simp only [Module.funcs, mem_filterMap] at mem_f
  obtain ⟨item, mem_item, is⟩ := mem_f
  split at is <;> cases is
  exact ⟨f, mem_item, by simpa using find?_some found⟩

theorem dataItem_mem {g : Name} (named : dataItem m g = some d) : .data d ∈ m.items ∧ d.name = g ∧ d.linkage ≠ .externWeak := by
  have mem_d : d ∈ m.datas := mem_of_find?_eq_some named
  simp only [Module.datas, mem_filterMap] at mem_d
  obtain ⟨item, mem_item, is⟩ := mem_d
  split at is <;> cases is
  have found : d.name = g ∧ d.linkage ≠ .externWeak := by simpa using find?_some named
  exact ⟨mem_item, found.1, found.2⟩

/-- An alias is of a function or of an object with a place. -/
theorem validAlias_target {a : Alias} (valid : validAlias m mode a = true)
    (named : NamesLaid laidName m.items globals) : (globals a.target).isSome := by
  simp only [validAlias, Bool.and_eq_true, Bool.or_eq_true] at valid
  rcases valid.2 with func | ⟨data, _⟩
  · obtain ⟨f, mem_f, same⟩ := funcNamed_mem func
    exact named _ mem_f _ (congrArg some same)
  · obtain ⟨d, found, _⟩ := (Option.any_eq_true _ _).1 data
    obtain ⟨mem_d, same, placed⟩ := dataItem_mem found
    exact named _ mem_d _ (by simp [laidName, placed, same])

theorem aliasGlobal_ends {Q : Word → Prop} {item : Item} (valid : validItem m mode stage item = true) (named : NamesLaid laidName m.items globals) (words : ∀ g x, globals g = some x → Q x) :
    Ends Never (fun globals' => NamesLaid laidName m.items globals' ∧ ∀ g x, globals' g = some x → Q x)
      (aliasGlobal globals item) := by
  rcases item with f | d | a
  · exact Ends.ok ⟨named, words⟩
  · exact Ends.ok ⟨named, words⟩
  · obtain ⟨p, known⟩ := isSome_iff_exists.1 (validAlias_target valid named)
    simp only [aliasGlobal, known]
    refine Ends.ok ⟨fun item h n is => ?_, fun g x there => ?_⟩
    · unfold Nanofil.put
      split
      · rfl
      · exact named item h n is
    · rcases put_some there with rfl | old
      · exact words _ _ known
      · exact words g x old

/-! ### Contents -/

structure Filled (m : Module) (regions : List Region) (c : Contents) : Prop where
  bytes : BytesOk c.bytes
  caps : ∀ a cap, c.aux a = some cap → LaidCap m regions cap

theorem itemBytes_ends {item : DataItem} (shape : dataItemShape item = true)
    (modeOk : itemModeOk mode item = true) (notPointer : ∀ s off, item ≠ .sym .p s off)
    (symbols : mode = .plain → ∀ s off, item = .sym .l s off → ∃ a, globals s = some (.int a)) :
    Ends Never (fun bs => (bs.length : Int) = itemSize item ∧ ∀ x ∈ bs, 0 ≤ x ∧ x < 256) (itemBytes globals item) := by
  cases item with
  | zero n =>
    have nonneg : 0 ≤ n := by simpa [dataItemShape] using shape
    refine Ends.ok ⟨?_, fun x h => ?_⟩
    · rw [length_replicate]
      exact Int.toNat_of_nonneg nonneg
    · rw [eq_of_mem_replicate h]
      omega
  | str wd cs =>
    simp only [dataItemShape, Bool.and_eq_true, decide_eq_true_eq, List.all_eq_true] at shape
    obtain ⟨rfl, small⟩ := shape
    refine Ends.ok ⟨by simp [itemSize], fun x h => ?_⟩
    obtain ⟨c, mem_c, rfl⟩ := List.mem_map.1 h
    have := small c mem_c
    omega
  | const wd n => exact Ends.ok ⟨congrArg Nat.cast leBytes_length, fun x h => leBytes_fit h⟩
  | sym wd s off =>
    simp only [dataItemShape, Bool.or_eq_true, decide_eq_true_eq] at shape
    rcases shape with rfl | rfl
    · have plain : mode = .plain := by simpa [itemModeOk] using modeOk
      obtain ⟨a, known⟩ := symbols plain s off rfl
      simp only [itemBytes, known]
      exact Ends.ok ⟨congrArg Nat.cast leBytes_length, fun x h => leBytes_fit h⟩
    · exact absurd rfl (notPointer s off)

theorem Filled.written (filled : Filled m regions c) {bs : List Int} (fits : ∀ x ∈ bs, 0 ≤ x ∧ x < 256)
    (at_ a : Int) : Filled m regions { c with at_ := at_, bytes := writtenBytes bs a c.bytes } :=
  ⟨bytesOk_written filled.bytes fits, filled.caps⟩

/-- The parts of an item's acceptance that filling it rests on. -/
structure ItemOk (m : Module) (mode : Mode) (item : DataItem) : Prop where
  shape : dataItemShape item = true
  modeOk : itemModeOk mode item = true
  symbols : mode = .plain → ∀ s off, item = .sym .l s off → dataNamed m s = true

theorem plainItems_ends (named : NamesLaid dataName m.items globals)
    (words : ∀ g x, globals g = some x → PlainWord regions x) {items : List DataItem}
    (oks : ∀ item ∈ items, ItemOk m .plain item) (filled : Filled m regions c) :
    Ends Never (Filled m regions) (items.foldlM (plainItemContents globals) c) := by
  refine Ends.foldlM (P := fun _ => Filled m regions) (fun _ item c h filled => ?_) filled
  have ok := oks item h
  have notPointer : ∀ s off, item ≠ .sym .p s off := by
    rintro s off rfl
    simpa [itemModeOk, itemWidth] using ok.modeOk
  refine (itemBytes_ends ok.shape ok.modeOk notPointer fun plain s off is => ?_).bind fun bs fits =>
    Ends.pure (filled.written fits.2 _ _)
  obtain ⟨d, found⟩ := isSome_iff_exists.1 (ok.symbols plain s off is)
  obtain ⟨mem_d, same, _⟩ := dataItem_mem found
  obtain ⟨x, known⟩ := isSome_iff_exists.1 (named _ mem_d _ rfl)
  rw [same] at known
  obtain ⟨a, rfl, _⟩ := words s x known
  exact ⟨a, known⟩

theorem symbolPointer_ends (words : ∀ g x, globals g = some x → FilcWord m regions x) (s : Name) :
    Ends Never (fun p => LaidCap m regions p.2) (symbolPointer globals s) := by
  unfold symbolPointer
  split
  · rename_i a cap known
    obtain ⟨_, _, is, _, laid⟩ := words _ _ known
    cases is
    exact Ends.ok laid
  · rename_i x notPointer known
    obtain ⟨a, c, rfl, _⟩ := words _ _ known
    exact absurd rfl (notPointer a c)
  · exact Ends.ok ⟨fun base h => (by cases h), fun g h => (by cases h)⟩

theorem filcItems_ends (words : ∀ g x, globals g = some x → FilcWord m regions x)
    {items : List DataItem} (oks : ∀ item ∈ items, ItemOk m .filc item) :
    ∀ {c : Contents} {off : Int}, pointerItemsAligned items off = true → c.at_ % 8 = off % 8 → Filled m regions c →
    Ends Never (Filled m regions) (items.foldlM (filcItemContents globals) c) := by
  induction items with
  | nil => exact fun _ _ filled => Ends.ok filled
  | cons item items ih =>
    intro c off aligned position filled
    have ok := oks item mem_cons_self
    simp only [pointerItemsAligned, Bool.and_eq_true] at aligned
    rw [foldlM_cons]
    have rest : ∀ c' : Contents, Filled m regions c' → c'.at_ = c.at_ + itemSize item →
        Ends Never (Filled m regions) (items.foldlM (filcItemContents globals) c') := fun c' filled' at_ =>
      ih (fun item h => oks item (mem_cons_of_mem _ h)) aligned.2 (by omega) filled'
    by_cases pointer : ∃ s o, item = .sym .p s o
    · obtain ⟨s, o, rfl⟩ := pointer
      have first : off % 8 = 0 := by simpa using aligned.1
      have step : Ends Never (fun c' => Filled m regions c' ∧ c'.at_ = c.at_ + 8) (filcItemContents globals c (.sym .p s o)) := by
        unfold filcItemContents
        dsimp only
        rw [if_pos (by omega)]
        refine (symbolPointer_ends words s).bind fun p laid => Ends.pure ⟨⟨?_, fun a cap known => ?_⟩, rfl⟩
        · exact bytesOk_written filled.bytes fun x h => leBytes_fit h
        · simp only [update] at known
          split at known
          · cases known
            exact laid
          · exact filled.caps a cap known
      exact step.bind fun c' h => rest c' h.1 h.2
    · have notPointer : ∀ s o, item ≠ .sym .p s o := fun s o is => pointer ⟨s, o, is⟩
      have step : filcItemContents globals c item = plainItemContents globals c item := by
        unfold filcItemContents
        split
        · exact absurd rfl (notPointer _ _)
        · rfl
      rw [step]
      refine Ends.bind (Q := fun c' => Filled m regions c' ∧ c'.at_ = c.at_ + itemSize item) ?_ fun c' h => rest c' h.1 h.2
      exact (itemBytes_ends ok.shape ok.modeOk notPointer fun plain => by cases plain).bind fun bs fits =>
        Ends.pure ⟨filled.written fits.2 _ _, by dsimp only; rw [fits.1]⟩

theorem dataItems_ok (mem_d : .data d ∈ m.items) (valid : validData m mode d = true)
    (defined : mode = .plain → symbolsDefined m = true) : ∀ item ∈ d.items, ItemOk m mode item := by
  intro item h
  simp only [validData, Bool.and_eq_true, List.all_eq_true] at valid
  have ok := valid.1.2 item h
  refine ⟨ok.1.2, ok.1.1.2, fun plain s off is => ?_⟩
  have named := List.all_eq_true.1 (List.all_eq_true.1 (defined plain) d (mem_filterMap.2 ⟨_, mem_d, rfl⟩)) item h
  rw [is] at named
  exact named

/-- What an item's contents need of the layout in a mode. -/
def LaidIn (m : Module) (regions : List Region) (globals : Name → Option Word) : Mode → Prop
  | .plain => NamesLaid dataName m.items globals ∧ ∀ g x, globals g = some x → PlainWord regions x
  | .filc => NamesLaid laidName m.items globals ∧ ∀ g x, globals g = some x → FilcWord m regions x

theorem dataContents_ends (laid : LaidIn m regions globals mode)
    (defined : mode = .plain → symbolsDefined m = true) {item : Item} (mem_item : item ∈ m.items)
    (valid : validItem m mode stage item = true) (filled : Filled m regions c) :
    Ends Never (Filled m regions) (dataContents mode globals c item) := by
  rcases item with f | d | a
  · exact Ends.ok filled
  · have oks := dataItems_ok mem_item valid defined
    unfold dataContents
    dsimp only
    split
    · exact Ends.ok filled
    · rename_i present
      cases mode with
      | plain =>
        obtain ⟨x, known⟩ := isSome_iff_exists.1 (laid.1 _ mem_item _ rfl)
        obtain ⟨a, rfl, _⟩ := laid.2 _ x known
        simp only [known]
        exact plainItems_ends laid.1 laid.2 oks ⟨filled.bytes, filled.caps⟩
      | filc =>
        have placed : laidName (.data d) = some d.name := by
          simp only [laidName]
          rw [if_neg fun absent => present ⟨rfl, absent⟩]
        obtain ⟨x, known⟩ := isSome_iff_exists.1 (laid.1 _ mem_item _ placed)
        obtain ⟨a, cap, rfl, place, _⟩ := laid.2 _ x known
        simp only [known]
        simp only [validItem, validData, Bool.and_eq_true] at valid
        exact filcItems_ends laid.2 oks valid.2 place.2 ⟨filled.bytes, filled.caps⟩
  · exact Ends.ok filled

end

/-! ### The prepared module -/

section
variable {m : Module} (valid : validModule m = true)
include valid

theorem validModule_item {item : Item} (mem_item : item ∈ m.items) :
    validItem m (moduleMode m) (moduleStage m) item = true := by
  simp only [validModule, Bool.and_eq_true, List.all_eq_true] at valid
  exact valid.2 item mem_item

theorem initialLayout_ends : Ends Never (fun lay => LaidIn m lay.regions lay.globals (moduleMode m) ∧
    ∀ r ∈ lay.regions, r.kind = .global) (initialLayout m) := by
  have none : ∀ named globals, NamesLaid named [] globals := fun _ _ item h => by cases h
  have all : ∀ {named globals}, NamesLaid named m.items.reverse globals → NamesLaid named m.items globals :=
    fun laid item h => laid item (mem_reverse.2 h)
  unfold initialLayout
  cases mode : moduleMode m with
  | plain =>
    have notAlias : ∀ item ∈ m.items, ∀ a, item ≠ .alias a := by
      rintro item h a rfl
      have aliased := validModule_item valid h
      simp [validItem, validAlias, mode] at aliased
    refine (Ends.foldlM (P := fun seen lay => Laid PlainWord seen lay ∧ NamesLaid dataName seen lay.globals)
      (fun seen item lay h laid => plainLayout_ends (validModule_item valid h) (notAlias item h) laid.1 laid.2)
      ⟨⟨by decide, fun g x h => (by cases h), fun r h => (by cases h)⟩, none _ _⟩).mono fun lay laid =>
        ⟨⟨all laid.2, laid.1.globals⟩, laid.1.kinds⟩
  | filc =>
    refine (Ends.foldlM (P := fun seen lay => Laid (FilcWord m) seen lay ∧ NamesLaid laidName seen lay.globals)
      (fun seen item lay h laid => filcLayout_ends h (validModule_item valid h) laid.1 laid.2)
      ⟨⟨by decide, fun g x h => (by cases h), fun r h => (by cases h)⟩, none _ _⟩).bind fun lay laid => ?_
    refine (Ends.foldlM (P := fun _ globals => NamesLaid laidName m.items globals ∧ ∀ g x, globals g = some x → FilcWord m lay.regions x)
      (fun _ item globals h laid => aliasGlobal_ends (validModule_item valid h) laid.1 laid.2)
      ⟨all laid.2, laid.1.globals⟩).bind fun globals laid' => Ends.pure ⟨laid', laid.1.kinds⟩

theorem initialMemory_ends (defined : moduleMode m = .plain → symbolsDefined m = true) (unknown : Int → Fin 256) :
    Ends Never (fun r => LaidIn m r.2.regions r.1.globals (moduleMode m) ∧ BytesOk r.2.bytes ∧
      (∀ a c, r.2.aux a = some c → LaidCap m r.2.regions c) ∧ (∀ r' ∈ r.2.regions, r'.kind = .global) ∧ r.2.next = stackBase)
      (initialMemory m unknown) :=
  (initialLayout_ends valid).bind fun lay laid =>
    (Ends.foldlM (P := fun _ => Filled m lay.regions)
      (fun _ item c h filled => dataContents_ends laid.1 defined h (validModule_item valid h) filled)
      ⟨fun a b h => (by cases h), fun a c h => (by cases h)⟩).bind fun c filled =>
        Ends.pure ⟨laid.1, filled.bytes, filled.caps, laid.2, rfl⟩

theorem LaidCap.ok {prep : Prep} {mem : Mem} (funcs : prep.funcs = preparedFuncs m) {c : Cap} (cap : LaidCap m mem.regions c) :
    CapOk prep mem c := by
  refine ⟨fun base h => registered_iff.2 (cap.1 base h), fun g h => ?_⟩
  obtain ⟨f, mem_f, rfl⟩ := cap.2 g h
  have found : (bodied m f.name).isSome := by
    refine find?_isSome.2 ⟨f, mem_f, ?_⟩
    obtain ⟨entry, rest, blocks, _⟩ := (validModule_func valid mem_f).entryBlock
    simp [blocks]
  obtain ⟨f', found⟩ := isSome_iff_exists.1 found
  rw [funcs, preparedFuncs, found]
  rfl

/-- A valid module is ready to run, unless its plain data names a symbol from outside. -/
theorem modulePrepared_ends (defined : moduleMode m = .plain → symbolsDefined m = true) (unknown : Int → Fin 256) :
    Ends Never (fun prep => Prepared m prep ∧ MemOk prep prep.mem ∧ GlobalsOk m prep prep.mem) (modulePrepared m unknown) := by
  refine (initialMemory_ends valid defined unknown).bind fun r ⟨laid, bytes, caps, kinds, next⟩ => Ends.pure ?_
  refine ⟨⟨valid, rfl, rfl⟩, ⟨bytes, fun a c h => (caps a c h).ok valid rfl, fun r' h stack => ?_, by rw [next]; decide⟩,
    fun plain g named => ?_, fun filc g x known => ?_⟩
  · rw [kinds r' h] at stack
    cases stack
  · have plain : moduleMode m = .plain := plain
    rw [plain] at laid
    obtain ⟨d, found⟩ := isSome_iff_exists.1 named
    obtain ⟨mem_d, rfl, _⟩ := dataItem_mem found
    obtain ⟨x, known⟩ := isSome_iff_exists.1 (laid.1 _ mem_d _ rfl)
    obtain ⟨a, rfl, low⟩ := laid.2 _ x known
    exact ⟨a, known, low⟩
  · have filc : moduleMode m = .filc := filc
    rw [filc] at laid
    obtain ⟨a, c, is, place, cap⟩ := laid.2 g x known
    exact ⟨a, c, is, place.1, cap.ok valid rfl⟩

end

end Nanofil
