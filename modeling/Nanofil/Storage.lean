import Nanofil.Words
import Nanofil.Objects

/-! Memory accesses of typed words: each gives words of its class, and leaves bytes that are
bytes, capabilities of registered objects and the objects that were there. -/
namespace Nanofil
open List Option Results Bits

def BytesOk (bytes : Int → Option Int) : Prop := ∀ a b, bytes a = some b → 0 ≤ b ∧ b < 256

structure MemOk (prep : Prep) (mem : Mem) : Prop where
  bytes : BytesOk mem.bytes
  caps : ∀ a c, mem.aux a = some c → CapOk prep mem c
  stack : ∀ r ∈ mem.regions, r.kind = .stack → r.base < mem.next
  next : 0 ≤ mem.next

/-- No object is forgotten, no address given out again and no stack object ended. -/
structure Grows (mem mem' : Mem) : Prop where
  objects : ∀ base, Registered mem base → Registered mem' base
  next : mem.next ≤ mem'.next
  stack : ∀ r ∈ mem.regions, r.kind = .stack → r.life = .live → r ∈ mem'.regions

theorem Grows.refl (mem : Mem) : Grows mem mem := ⟨fun _ h => h, le_rfl, fun _ h _ _ => h⟩

theorem Grows.trans {m1 m2 m3 : Mem} (first : Grows m1 m2) (second : Grows m2 m3) : Grows m1 m3 :=
  ⟨fun base h => second.objects base (first.objects base h), first.next.trans second.next,
    fun r mem kind live => second.stack r (first.stack r mem kind live) kind live⟩

theorem SameObjects.grows {mem mem' : Mem} (same : SameObjects mem mem') : Grows mem mem' := by
  obtain ⟨regions, next⟩ := same
  refine ⟨fun base registered => ?_, next.ge, fun r h _ _ => regions ▸ h⟩
  unfold Registered at registered ⊢
  rwa [regions]

section
variable {prep : Prep} {mem mem' : Mem}

/-! A word's class rests only on the objects that are registered and the addresses given out. -/

variable {c : Cap} {x addr : Word} {align base : Int} {mode : Mode} {t : LoadType} {r : Region}

theorem CapOk.moved (ok : CapOk prep mem c) (objects : ∀ base, Registered mem base → Registered mem' base) : CapOk prep mem' c :=
  ⟨fun base based => objects base (ok.1 base based), ok.2⟩

theorem Within.moved {k : Cls} {n : Int} (within : Within prep mem k n) (next : mem.next ≤ mem'.next) :
    Within prep mem' k n :=
  ⟨within.1, fun fit => within.2 fun addresses => ⟨(fit addresses).symbols, next.trans (fit addresses).next⟩⟩

theorem WordOk.moved {k : Cls} (ok : WordOk prep mem k x)
    (objects : ∀ base, Registered mem base → Registered mem' base) (next : mem.next ≤ mem'.next) :
    WordOk prep mem' k x := by
  cases ok with
  | int numeric within => exact .int numeric (within.moved next)
  | ptr cap within => exact .ptr (cap.moved objects) (within.moved next)
  | proof proof cap => exact .proof proof (cap.moved objects)

theorem CapOk.grows (ok : CapOk prep mem c) (grows : Grows mem mem') : CapOk prep mem' c :=
  ok.moved grows.objects

theorem AddressesFit.before (fit : AddressesFit prep mem') (grows : Grows mem mem') : AddressesFit prep mem :=
  ⟨fit.symbols, grows.next.trans fit.next⟩

theorem WordOk.grows {k : Cls} (ok : WordOk prep mem k x) (grows : Grows mem mem') : WordOk prep mem' k x :=
  ok.moved grows.objects grows.next

theorem MemOk.same (ok : MemOk prep mem) (same : SameObjects mem mem') (bytes : BytesOk mem'.bytes)
    (caps : ∀ a c, mem'.aux a = some c → CapOk prep mem' c) : MemOk prep mem' :=
  ⟨bytes, caps, fun r h kind => by rw [same.2]; exact ok.stack r (same.1 ▸ h) kind, by rw [same.2]; exact ok.next⟩

/-! ### Bytes -/

theorem bytesOk_written : ∀ {xs : List Int} {a : Int} {bytes : Int → Option Int}, BytesOk bytes →
    (∀ x ∈ xs, 0 ≤ x ∧ x < 256) → BytesOk (writtenBytes xs a bytes) := by
  intro xs
  induction xs with
  | nil => exact fun ok _ => ok
  | cons x xs ih =>
    intro a bytes ok fits
    refine ih (fun b y known => ?_) fun y h => fits y (mem_cons_of_mem _ h)
    unfold update at known
    split at known
    · cases known
      exact fits x mem_cons_self
    · exact ok b y known

theorem leBytes_fit {n : Nat} : ∀ {v x : Int}, x ∈ leBytes n v → 0 ≤ x ∧ x < 256 := by
  induction n with
  | zero => exact fun h => by cases h
  | succ n ih =>
    intro v x h
    rcases mem_cons.1 h with rfl | h
    · omega
    · exact ih h

theorem leBytes_length {n : Nat} : ∀ {v : Int}, (leBytes n v).length = n := by
  induction n with
  | zero => exact rfl
  | succ n ih => exact congrArg (· + 1) ih

theorem leValue_fits {xs : List Int} (fits : ∀ x ∈ xs, 0 ≤ x ∧ x < 256) : Fits (8 * xs.length) (leValue xs) := by
  induction xs with
  | nil => exact ⟨le_rfl, by norm_num [leValue]⟩
  | cons x xs ih =>
    obtain ⟨low, high⟩ := ih fun y h => fits y (mem_cons_of_mem _ h)
    obtain ⟨byteLow, byteHigh⟩ := fits x mem_cons_self
    have split : (2 : Int) ^ (8 * (x :: xs).length) = 2 ^ (8 * xs.length) * 256 := by
      rw [length_cons, mul_add, pow_add]
      norm_num
    constructor
    · simp only [leValue]
      omega
    · rw [split]
      simp only [leValue]
      omega

/-- What a read finds are bytes, and what it binds of plain memory are too. -/
theorem bytesAt_ok {mode : Mode} {unknown : Int → Fin 256} {n : Nat} : ∀ {a : Int} {bytes : Int → Option Int},
    BytesOk bytes → (∀ x ∈ (bytesAt mode unknown n a bytes).1, 0 ≤ x ∧ x < 256) ∧
      (bytesAt mode unknown n a bytes).1.length = n ∧ BytesOk (bytesAt mode unknown n a bytes).2 := by
  induction n with
  | zero => exact fun ok => ⟨fun x h => by (cases h), rfl, ok⟩
  | succ n ih =>
    intro a bytes ok
    have found : ∃ x bytes', (0 ≤ x ∧ x < 256) ∧ BytesOk bytes' ∧ bytesAt mode unknown (n + 1) a bytes =
        (x :: (bytesAt mode unknown n (a + 1) bytes').1, (bytesAt mode unknown n (a + 1) bytes').2) := by
      cases known : bytes a with
      | some x => exact ⟨x, bytes, ok a x known, ok, by simp only [bytesAt, known]⟩
      | none =>
        cases mode with
        | filc => exact ⟨0, bytes, by decide, ok, by simp only [bytesAt, known]⟩
        | plain =>
          refine ⟨(unknown a : Int), update bytes a (unknown a : Int), by omega, fun b y bound => ?_,
            by simp only [bytesAt, known]⟩
          unfold update at bound
          split at bound
          · cases bound
            omega
          · exact ok b y bound
    obtain ⟨x, bytes', byte, ok', same⟩ := found
    obtain ⟨all, length, ok''⟩ := ih (a := a + 1) ok'
    rw [same]
    refine ⟨fun y h => ?_, by simp [length], ok''⟩
    rcases mem_cons.1 h with rfl | h
    · exact byte
    · exact all y h

/-! ### Accesses -/

theorem accessRes_ends {a size : Int} {kind : Rights} (cap : CapOk prep mem c) :
    Ends Gap (fun _ => True) (accessRes mem a c size kind align) := by
  unfold accessRes capAccessRes
  cases c with
  | none => exact trivial
  | fn f => exact trivial
  | ext n => exact .inr ⟨n, rfl⟩
  | obj base | ro base =>
    obtain ⟨r, found⟩ := cap.1 base rfl
    simp only [found]
    exact trivial

/-- What a read of memory gives, when it is not out of bounds. -/
structure Read (prep : Prep) (mem : Mem) (size : Nat) (r : Res Int × Mem) : Prop where
  fits : ∀ n, r.1 = .val n → Fits (8 * size) n
  ok : MemOk prep r.2
  same : SameObjects mem r.2

theorem loadRes_loaded (ok : MemOk prep mem) (mode : Mode) (a : Int) (size : Nat) :
    Read prep mem size (loadRes mode mem a size) := by
  have found := @bytesAt_ok mode mem.unknown size a mem.bytes ok.bytes
  unfold loadRes
  split
  · refine ⟨fun n h => ?_, ok.same ⟨rfl, rfl⟩ found.2.2 ok.caps, ⟨rfl, rfl⟩⟩
    cases h
    have fits := leValue_fits found.1
    rwa [found.2.1] at fits
  · exact ⟨fun n h => by (cases h), ok, ⟨rfl, rfl⟩⟩

theorem loadRes_filc (mem : Mem) (a : Int) (size : Nat) : ∃ n, (loadRes .filc mem a size).1 = .val n := ⟨_, rfl⟩

/-- A result of an operation: a word of its class, and a memory that is still in order. -/
structure OpOk (prep : Prep) (mem : Mem) (k : Cls) (r : Res Word × Mem) : Prop where
  word : ∀ x, r.1 = .val x → WordOk prep r.2 k x
  ok : MemOk prep r.2
  grows : Grows mem r.2

theorem OpOk.stopped {k : Cls} {res : Res Word} (ok : MemOk prep mem) (stops : ∀ x, res ≠ .val x) :
    OpOk prep mem k (res, mem) :=
  ⟨fun x h => absurd h (stops x), ok, .refl mem⟩

theorem OpOk.val {k : Cls} (ok : MemOk prep mem) (word : WordOk prep mem k x) : OpOk prep mem k (.val x, mem) :=
  ⟨fun y h => by cases h; exact word, ok, .refl mem⟩

/-- Where an access may be made: an integer in plain mode, a pointer with its capability in Fil-C. -/
inductive Address (prep : Prep) (mem : Mem) : Mode → Word → Prop
  | plain (a : Int) : Address prep mem .plain (.int a)
  | filc (a : Int) {c : Cap} : CapOk prep mem c → Address prep mem .filc (.ptr a c)

theorem WordOk.address (word : WordOk prep mem (addrClass mode) x) : Address prep mem mode x := by
  cases mode with
  | plain =>
    obtain ⟨a, rfl, _⟩ := word.toInt rfl
    exact .plain a
  | filc =>
    obtain ⟨a, c, rfl, cap, _⟩ := word.toPtr
    exact .filc a cap

/-! ### Loads -/

theorem intLoadRes_ends (ok : MemOk prep mem) (size : Nat)
    (address : Address prep mem mode addr) : Ends Gap (Read prep mem size) (intLoadRes mode size addr mem) := by
  cases address with
  | plain a =>
    exact Ends.ok (loadRes_loaded ok .plain a size)
  | filc a cap =>
    refine (accessRes_ends cap).bind fun check _ => ?_
    cases check with
    | ok => exact Ends.ok (loadRes_loaded ok .filc a size)
    | trap why => exact Ends.ok ⟨fun n h => by (cases h), ok, ⟨rfl, rfl⟩⟩

theorem auxCap_ok (ok : MemOk prep mem) (a : Int) : CapOk prep mem (auxCap mem a) := by
  unfold auxCap
  cases known : mem.aux a with
  | none => exact capOk_none
  | some c => exact ok.caps a c known

theorem pointerAccessLoad_ends (ok : MemOk prep mem) (a : Int) :
    Ends Gap (fun r => WordOk prep r.2 .p r.1 ∧ MemOk prep r.2 ∧ SameObjects mem r.2) (pointerAccessLoad mem a) := by
  have read := loadRes_loaded ok .filc a 8
  obtain ⟨n, val⟩ := loadRes_filc mem a 8
  unfold pointerAccessLoad
  generalize loadRes .filc mem a 8 = r at read val
  obtain ⟨res, mem'⟩ := r
  cases val
  exact Ends.ok ⟨.ptr (auxCap_ok read.ok a) (.fits (read.fits n rfl)), read.ok, read.same⟩

theorem pointerLoadRes_ends (ok : MemOk prep mem) (address : Address prep mem .filc addr) :
    Ends Gap (OpOk prep mem .p) (pointerLoadRes .filc addr mem) := by
  cases address with | filc a cap =>
  refine (accessRes_ends cap).bind fun check _ => ?_
  cases check with
  | ok =>
    refine (pointerAccessLoad_ends ok a).bind fun r ⟨word, ok', same⟩ => Ends.pure ?_
    exact ⟨fun x h => by cases h; exact word, ok', same.grows⟩
  | trap why => exact Ends.ok (.stopped ok fun x h => by cases h)

theorem extendedRes_ends {k : Cls} (narrow : (narrowType t).isSome) (int : intClass k = true)
    (res : Res Int) : Ends Gap (fun r => ∀ x, r = .val x → WordOk prep mem k x) (extendedRes res t k) := by
  cases res with
  | val u =>
    refine (extension_ends narrow u).bind fun n _ =>
      (ends_orNoRule (Q := fun m => modulus k = some m) ?_ fun a h => h).bind fun m known => Ends.pure fun x h => ?_
    · rcases intClass_cases int with rfl | rfl <;> rfl
    · cases h
      exact .int (numeric_int int) (.emod known n)
  | ub | trap | unchecked => exact Ends.ok fun x h => by cases h

theorem loadResult_narrow {k : Cls} (result : loadResultOk t mode k = true) :
    (t = .p ∧ k = .p ∧ mode = .filc) ∨ ((narrowType t).isSome ∧ intClass k = true) ∨
      (narrowType t = none ∧ numericClass k = true ∧ 8 * loadBytes t = classWidth k ∧ (t = .l ∨ t = .s ∨ t = .d ∨ t = .x)) := by
  cases t <;> simp [loadResultOk, narrowType] at result ⊢ <;> simp_all [numericClass, loadBytes, classWidth, classTable,
    intClass, floatClass]

theorem loadOpRes_ends (ok : MemOk prep mem) {k : Cls}
    (result : loadResultOk t mode k = true) (address : Address prep mem mode addr) :
    Ends Gap (OpOk prep mem k) (loadOpRes t k mode addr mem) := by
  have read := intLoadRes_ends ok (loadBytes t) address
  rcases loadResult_narrow result with ⟨rfl, rfl, filc⟩ | ⟨narrow, int⟩ | ⟨_, numeric, width, wide⟩
  · subst filc
    exact pointerLoadRes_ends ok address
  · have step : loadOpRes t k mode addr mem = (do
        let r ← intLoadRes mode (loadBytes t) addr mem
        return (← extendedRes r.1 t k, r.2)) := by cases t <;> first | rfl | cases narrow
    rw [step]
    refine read.bind fun r read => ?_
    have extended : Ends Gap (fun res => ∀ x, res = .val x → WordOk prep r.2 k x) (extendedRes r.1 t k) :=
      extendedRes_ends narrow int r.1
    exact extended.bind fun res word => Ends.pure ⟨word, read.ok, read.same.grows⟩
  · have step : loadOpRes t k mode addr mem = (do
        let r ← intLoadRes mode (loadBytes t) addr mem
        return (r.1.word, r.2)) := by rcases wide with rfl | rfl | rfl | rfl <;> rfl
    rw [step]
    refine read.bind fun r read => Ends.pure ⟨fun x h => ?_, read.ok, read.same.grows⟩
    cases val : r.1 with
    | val n =>
      rw [val] at h
      cases h
      exact .int numeric (.fits (width ▸ read.fits n val))
    | ub | trap | unchecked =>
      rw [val] at h
      cases h

/-! ### Stores -/

theorem writeBytes_ok (ok : MemOk prep mem) (a : Int) (size : Nat) (v : Int) : MemOk prep (writeBytes mem a size v) :=
  ok.same ⟨rfl, rfl⟩ (bytesOk_written ok.bytes fun _ h => leBytes_fit h) ok.caps

theorem lowerWrite_ok (ok : MemOk prep mem) (a : Int) (cap : CapOk prep mem c) : MemOk prep (lowerWrite a c mem) := by
  refine ok.same ⟨rfl, rfl⟩ ok.bytes fun b d known => ?_
  simp only [lowerWrite, update] at known
  split at known
  · cases known
    exact cap
  · exact ok.caps b d known

theorem accessStore_ends (ok : MemOk prep mem) (check : Check) (a : Int) (size : Nat) (n : Int) {stored : Option Cap}
    (cap : ∀ c, stored = some c → CapOk prep mem c) :
    Ends Gap (fun mem' => MemOk prep mem' ∧ SameObjects mem mem') (accessStore check mem a size (.int n) stored) := by
  cases check with
  | trap why => exact Ends.ok ⟨ok, rfl, rfl⟩
  | ok =>
    cases stored with
    | none => exact Ends.ok ⟨writeBytes_ok ok a size n, rfl, rfl⟩
    | some c => exact Ends.ok ⟨lowerWrite_ok (writeBytes_ok ok a size n) a (cap c rfl), rfl, rfl⟩

theorem widthWord_ends {wd : Width} (word : WordOk prep mem (widthValueClass wd) x) :
    Ends Gap (fun vas => ∃ n, vas.1 = .int n ∧ ∀ c, vas.2.2 = some c → CapOk prep mem c) (widthWord wd x) := by
  by_cases pointer : wd = .p
  · subst pointer
    obtain ⟨a, c, rfl, cap, _⟩ := word.toPtr
    exact Ends.ok ⟨a, rfl, fun d h => by cases h; exact cap⟩
  · obtain ⟨n, rfl, _⟩ := word.toInt (by cases wd <;> first | rfl | contradiction)
    cases wd <;> first | contradiction | exact Ends.ok ⟨n, rfl, fun c h => by cases h⟩

theorem storeRes_ends (ok : MemOk prep mem) {wd : Width}
    (address : Address prep mem mode addr) (word : WordOk prep mem (widthValueClass wd) x)
    (pointer : wd = .p → mode = .filc) :
    Ends Gap (fun r => MemOk prep r.2 ∧ SameObjects mem r.2) (storeRes mode wd mem addr x) := by
  cases address with
  | plain a =>
    have notPointer : wd ≠ .p := fun h => by cases pointer h
    obtain ⟨n, rfl, _⟩ := word.toInt (by cases wd <;> first | rfl | contradiction)
    simp only [storeRes]
    split
    · exact Ends.ok ⟨writeBytes_ok ok a _ n, rfl, rfl⟩
    · exact Ends.ok ⟨ok, rfl, rfl⟩
  | filc a cap =>
    refine (widthWord_ends word).bind fun vas ⟨n, int, stored⟩ => (accessRes_ends cap).bind fun check _ => ?_
    rw [int]
    exact (accessStore_ends ok check a _ n stored).bind fun mem' done => Ends.pure done

/-! ### Pointer protocols -/

theorem pointerLoadEffectsRes_ends (ok : MemOk prep mem) (check : Check) {effects : List Effect} (a : Int)
    (protocol : effects = pointerMemoryEffects .load ∨ effects = pointerMemoryEffects .localLoad ∨
      effects = pointerMemoryEffects .atomicLoad) :
    Ends Gap (OpOk prep mem .p) (pointerLoadEffectsRes check effects a mem) := by
  cases check with
  | trap why => exact Ends.ok (.stopped ok fun x h => by cases h)
  | ok =>
    have read := loadRes_loaded ok .filc a 8
    have loaded : ∀ n, (loadRes .filc mem a 8).1 = .val n → OpOk prep mem .p
        (.val (.ptr n (auxCap mem a)), (loadRes .filc mem a 8).2) := fun n val =>
      ⟨fun x h => by
        cases h
        exact .ptr ((auxCap_ok ok a).grows read.same.grows) (.fits (read.fits n val)), read.ok, read.same.grows⟩
    rcases protocol with rfl | rfl | rfl <;> exact Ends.ok (loaded _ rfl)

theorem pointerStoreEffectsRes_ends (ok : MemOk prep mem) (check : Check) {effects : List Effect} (a : Int)
    (word : WordOk prep mem .p x) (protocol : effects = pointerMemoryEffects .store ∨
      effects = pointerMemoryEffects .localStore ∨ effects = pointerMemoryEffects .atomicStore) :
    Ends Gap (fun r => MemOk prep r.2 ∧ SameObjects mem r.2) (pointerStoreEffectsRes check effects a x mem) := by
  obtain ⟨u, c, rfl, cap, _⟩ := word.toPtr
  cases check with
  | trap why => exact Ends.ok ⟨ok, rfl, rfl⟩
  | ok =>
    have stored := writeBytes_ok (lowerWrite_ok ok a cap) a 8 u
    rcases protocol with rfl | rfl | rfl <;> exact Ends.ok ⟨stored, rfl, rfl⟩

/-! ### Compare-exchange -/

theorem casChecked_ends (ok : MemOk prep mem) {k : Cls} {e n : Word} (a : Int) (cas : casType t = true)
    (result : loadResultOk t .filc k = true) (expected : WordOk prep mem k e) (new : WordOk prep mem k n) :
    Ends Gap (OpOk prep mem k) (casChecked t k e n a (loadBytes t) mem) := by
  rcases loadResult_narrow result with ⟨rfl, rfl, _⟩ | ⟨narrow, int⟩ | ⟨_, numeric, width, wide⟩
  · obtain ⟨eu, ec, rfl, _⟩ := expected.toPtr
    obtain ⟨nu, nc, rfl, cap, _⟩ := new.toPtr
    refine (pointerAccessLoad_ends ok a).bind fun r ⟨word, ok', same⟩ => ?_
    obtain ⟨u, c, ptr, _⟩ := word.toPtr
    rw [ptr]
    refine Ends.pure ?_
    split
    · have grows : Grows r.2 (writeBytes (lowerWrite a nc r.2) a 8 nu) := SameObjects.grows ⟨rfl, rfl⟩
      refine ⟨fun x h => ?_, writeBytes_ok (lowerWrite_ok ok' a (cap.grows same.grows)) a 8 nu, same.grows.trans grows⟩
      cases h
      rw [← ptr]
      exact word.grows grows
    · exact ⟨fun x h => by cases h; rw [← ptr]; exact word, ok', same.grows⟩
  all_goals
    have numeric : numericClass k = true := by first | exact numeric_int int | exact numeric
    obtain ⟨ev, rfl, _⟩ := expected.toInt numeric
    obtain ⟨nv, rfl, _⟩ := new.toInt numeric
    have read := loadRes_loaded ok .filc a (loadBytes t)
    obtain ⟨u, val⟩ := loadRes_filc mem a (loadBytes t)
    have fits := read.fits u val
    have notPointer : t ≠ .p := by
      rintro rfl
      first
        | cases narrow
        | rcases wide with h | h | h | h <;> cases h
    have step : casChecked t k (.int ev) (.int nv) a (loadBytes t) mem = (do
        let res ← casResult t k u
        return (res, if u = ev % 2 ^ (8 * loadBytes t) then
          writeBytes (loadRes .filc mem a (loadBytes t)).2 a (loadBytes t) nv
          else (loadRes .filc mem a (loadBytes t)).2)) := by
      unfold casChecked
      generalize loadRes .filc mem a (loadBytes t) = r at val
      obtain ⟨res, mem'⟩ := r
      cases val
      cases t <;> first | contradiction | rfl
    rw [step]
    have yields : Ends Gap (fun r => ∀ x, r = .val x → WordOk prep mem k x) (casResult t k u) := by
      unfold casResult
      split
      · rename_i long
        subst long
        exact Ends.ok fun x h => by
          cases h
          first
            | cases narrow
            | exact .int numeric (.fits (width ▸ fits))
      · rename_i short
        first
          | exact extendedRes_ends narrow int _
          | (cases t <;> contradiction)
    refine yields.bind fun res word => Ends.pure ?_
    have grows : Grows mem (if u = ev % 2 ^ (8 * loadBytes t) then
        writeBytes (loadRes .filc mem a (loadBytes t)).2 a (loadBytes t) nv
        else (loadRes .filc mem a (loadBytes t)).2) := by
      split
      · exact read.same.grows.trans (writeBytes_same _ a _ nv).grows
      · exact read.same.grows
    refine ⟨fun x h => (word x h).grows grows, ?_, grows⟩
    dsimp only
    split
    · exact writeBytes_ok read.ok a _ nv
    · exact read.ok

theorem casRes_ends (ok : MemOk prep mem) {k : Cls} {e n : Word} (a : Int)
    (cas : casType t = true) (result : loadResultOk t .filc k = true) (expected : WordOk prep mem k e)
    (new : WordOk prep mem k n) (cap : CapOk prep mem c) : Ends Gap (OpOk prep mem k) (casRes t k e n a c mem) := by
  have size : accessSizeAlign (.cas t) = some ((loadBytes t : Int), (loadBytes t : Int)) := by simp [accessSizeAlign, cas]
  unfold casRes
  rw [size]
  refine (ends_orNoRule (Q := fun sa => sa = ((loadBytes t : Int), (loadBytes t : Int))) rfl fun sa h => by
    cases h; rfl).bind fun sa same => ?_
  subst same
  refine (accessRes_ends cap).bind fun check _ => ?_
  cases check with
  | ok => exact casChecked_ends ok a cas result expected new
  | trap why => exact Ends.ok (.stopped ok fun x h => by cases h)

/-! ### Objects -/

theorem registered_iff : Registered mem base ↔ ∃ r ∈ mem.regions, r.base = base := by
  constructor
  · rintro ⟨r, found⟩
    exact ⟨r, objectRegion_mem found⟩
  · rintro ⟨r, h, based⟩
    have some_ : (mem.regions.find? (fun r => r.base = base)).isSome := find?_isSome.2 ⟨r, h, by simpa using based⟩
    obtain ⟨r', found⟩ := isSome_iff_exists.1 some_
    exact ⟨r', by rw [objectRegion, found]⟩

/-- Freeing an object keeps every object's identity, and every other region. -/
theorem freeRegion_keeps (mem : Mem) (based : r.base = base) :
    let mem' := { mem with regions := freeRegion base r mem.regions }
    (∀ b, Registered mem b → Registered mem' b) ∧ ∀ r' ∈ mem.regions, r' ≠ r → r' ∈ mem'.regions := by
  refine ⟨fun b registered => ?_, fun r' h other => mem_cons_of_mem _ ((mem_erase_of_ne other).2 h)⟩
  obtain ⟨r', h, same⟩ := registered_iff.1 registered
  by_cases here : r' = r
  · exact registered_iff.2 ⟨_, mem_cons_self, by rw [← same, here, based]⟩
  · exact registered_iff.2 ⟨r', mem_cons_of_mem _ ((mem_erase_of_ne here).2 h), same⟩

theorem freeRegion_memOk (ok : MemOk prep mem) (mem_r : r ∈ mem.regions) (based : r.base = base) :
    MemOk prep { mem with regions := freeRegion base r mem.regions } := by
  have keeps := freeRegion_keeps mem based
  refine ⟨ok.bytes, fun a c known => ?_, fun r' h kind => ?_, ok.next⟩
  · obtain ⟨objects, functions⟩ := ok.caps a c known
    exact ⟨fun b cap => keeps.1 b (objects b cap), functions⟩
  · rcases mem_cons.1 h with rfl | h
    · exact based ▸ ok.stack r mem_r kind
    · exact ok.stack r' (mem_of_mem_erase h) kind

theorem freeRegion_grows (based : r.base = base) (notStack : r.kind ≠ .stack) :
    Grows mem { mem with regions := freeRegion base r mem.regions } := by
  have keeps := freeRegion_keeps mem based
  exact ⟨keeps.1, le_rfl, fun r' h kind _ => keeps.2 r' h fun same => notStack (same ▸ kind)⟩

theorem objectFreeRes_ends (ok : MemOk prep mem) (registered : Registered mem base) (a : Int) :
    Ends Gap (fun r => MemOk prep r.2 ∧ Grows mem r.2) (objectFreeRes base a mem) := by
  unfold objectFreeRes
  split
  · exact Ends.ok ⟨ok, .refl mem⟩
  · obtain ⟨r, found⟩ := registered
    rw [found]
    refine Ends.ok ?_
    obtain ⟨mem_r, based⟩ := objectRegion_mem found
    split
    · exact ⟨ok, .refl mem⟩
    split
    · exact ⟨ok, .refl mem⟩
    split
    · exact ⟨ok, .refl mem⟩
    rename_i heap _ _
    have isHeap : r.kind = .heap := by simpa using heap
    exact ⟨freeRegion_memOk ok mem_r based, freeRegion_grows based (by rw [isHeap]; decide)⟩

theorem freeRes_ends (ok : MemOk prep mem) {p : Word} (word : WordOk prep mem .p p) :
    Ends Gap (fun r => MemOk prep r.2 ∧ Grows mem r.2) (freeRes p mem) := by
  obtain ⟨a, c, rfl, cap, _⟩ := word.toPtr
  cases c with
  | ext n => exact .inr ⟨n, rfl⟩
  | none | fn f => exact Ends.ok ⟨ok, .refl mem⟩
  | obj base | ro base => exact objectFreeRes_ends ok (cap.1 base rfl) a

/-- An allocation's object is new, and at an address that was not given out. -/
structure Allocated (prep : Prep) (mem : Mem) (mode : AllocMode) (base : Int) (mem' : Mem) : Prop where
  ok : MemOk prep mem'
  grows : Grows mem mem'
  new : mem.next ≤ base
  below : base < mem'.next
  region : ∃ r ∈ mem'.regions, r.base = base ∧ r.life = .live ∧ (mode = .local_ → r.kind = .stack)
  others : ∀ r ∈ mem.regions, r ∈ mem'.regions

theorem allocBase_allocated (ok : MemOk prep mem) {mode : AllocMode} {size : Int} {mem' : Mem}
    (aligned : mode = .plain → 0 < align) (nonneg : 0 ≤ size)
    (done : allocBase mode mem align size = some (base, mem')) : Allocated prep mem mode base mem' := by
  have positive : 0 < allocAlign mode align := by
    cases mode with
    | plain => exact aligned rfl
    | filc => exact lt_of_lt_of_le (by norm_num) (le_max_right _ _)
    | local_ => norm_num [allocAlign]
  have start := roundUp_ge positive (n := mem.next)
  have rounded := roundUp_ge (by norm_num : (0 : Int) < 16) (n := size)
  have stride : 0 ≤ allocationStride mode size (allocExtent mode size).1 := by
    cases mode <;> simp only [allocationStride, allocExtent] <;> omega
  have nonneg := ok.next
  unfold allocBase at done
  simp only [ite_none_right_eq_some, Option.some.injEq, Prod.mk.injEq] at done
  obtain ⟨_, based, rfl⟩ := done
  rw [based] at start ⊢
  have grows : Grows mem { mem with
      regions := ⟨base, base + (allocExtent mode size).1, (allocExtent mode size).2, .live⟩ :: mem.regions
      next := base + allocationStride mode size (allocExtent mode size).1 + 16 } := by
    refine ⟨fun b registered => ?_, by dsimp only; omega, fun r h _ _ => mem_cons_of_mem _ h⟩
    obtain ⟨r, h, same⟩ := registered_iff.1 registered
    exact registered_iff.2 ⟨r, mem_cons_of_mem _ h, same⟩
  refine ⟨⟨ok.bytes, fun a c known => (ok.caps a c known).grows grows, fun r h kind => ?_, by dsimp only; omega⟩, grows,
    start, by dsimp only; omega, ⟨_, mem_cons_self, rfl, rfl, fun h => by subst h; rfl⟩,
    fun r h => mem_cons_of_mem _ h⟩
  dsimp only
  rcases mem_cons.1 h with rfl | h
  · dsimp only
    omega
  · have := ok.stack r h kind
    omega

theorem allocRes_ok (ok : MemOk prep mem) {size : Int} (aligned : 0 < align) (nonneg : 0 ≤ size) :
    OpOk prep mem (addrClass mode) (allocRes mode mem align size) := by
  unfold allocRes
  split
  · exact .stopped ok fun x h => by cases h
  · split
    · rename_i base mem' done
      have allocated := allocBase_allocated ok (fun _ => aligned) nonneg done
      obtain ⟨r, mem_r, based, _⟩ := allocated.region
      have low := ok.next.trans allocated.new
      refine ⟨fun x h => ?_, allocated.ok, allocated.grows⟩
      cases h
      cases mode with
      | plain => exact .int rfl ⟨low, fun fit => lt_of_lt_of_le allocated.below (fit (.inl rfl)).next⟩
      | filc =>
        refine .ptr ⟨fun b h => ?_, fun f h => by cases h⟩
          ⟨low, fun fit => lt_of_lt_of_le allocated.below (fit (.inr rfl)).next⟩
        cases h
        exact registered_iff.2 ⟨r, mem_r, based⟩
    · exact .stopped ok fun x h => by cases h

/-! ### Variadic arguments -/

theorem cursorStore_ends (ok : MemOk prep mem) (cap : CapOk prep mem c) (a n : Int) :
    Ends Gap (fun r => MemOk prep r.2 ∧ SameObjects mem r.2) (storeRes .filc .l mem (.ptr a c) (.int n)) := by
  refine (Ends.ok (Q := fun vas => vas = (Word.int n, (1 : Int), (none : Option Cap))) rfl).bind fun vas same => ?_
  subst same
  refine (accessRes_ends cap).bind fun check _ => ?_
  exact (accessStore_ends ok check a _ n fun d h => by cases h).bind fun mem' done => Ends.pure done

theorem pointerStore_ends (ok : MemOk prep mem) {d : Cap} (cap : CapOk prep mem c) (stored : CapOk prep mem d)
    (a n : Int) : Ends Gap (fun r => MemOk prep r.2 ∧ SameObjects mem r.2) (storeRes .filc .p mem (.ptr a c) (.ptr n d)) := by
  refine (Ends.ok (Q := fun vas => vas = (Word.int n, (8 : Int), some d)) rfl).bind fun vas same => ?_
  subst same
  refine (accessRes_ends cap).bind fun check _ => ?_
  exact (accessStore_ends ok check a _ n fun e h => by cases h; exact stored).bind fun mem' done => Ends.pure done

theorem vaCheckedRes_ends (ok : MemOk prep mem) {k : Cls} (any : anyClass k = true) {a : Int}
    (cap : CapOk prep mem c) (at_ step : Int) : Ends Gap (OpOk prep mem k) (vaCheckedRes k (.ptr a c) at_ step mem) := by
  refine (cursorStore_ends ok cap a (at_ + step)).bind fun st ⟨stored, same⟩ => ?_
  have read : Ends Gap (OpOk prep mem k) (if k = .p then (do
        let r ← pointerAccessLoad st.2 at_
        return (.val r.1, r.2))
      else (do
        let r := loadRes .filc st.2 at_ (classBytes k)
        return (r.1.word, r.2))) := by
    split
    · rename_i pointer
      subst pointer
      exact (pointerAccessLoad_ends stored at_).bind fun r ⟨word, ok', same'⟩ =>
        Ends.pure ⟨fun x h => by cases h; exact word, ok', (same.trans same').grows⟩
    · rename_i notPointer
      have read := loadRes_loaded stored .filc at_ (classBytes k)
      obtain ⟨n, val⟩ := loadRes_filc st.2 at_ (classBytes k)
      refine Ends.pure ⟨fun x h => ?_, read.ok, (same.trans read.same).grows⟩
      have numeric : numericClass k = true ∧ 8 * classBytes k = classWidth k := by
        cases k <;> first | contradiction | exact ⟨rfl, rfl⟩
      simp only [val, Res.word] at h
      cases h
      exact .int numeric.1 (.fits (numeric.2 ▸ read.fits n val))
  obtain ⟨res, mem'⟩ := st
  cases res with
  | trap why => exact Ends.ok ⟨fun x h => by (cases h), stored, same.grows⟩
  | val | ub | unchecked => exact read

theorem vaArgRes_ends (ok : MemOk prep mem) {k : Cls} {p : Word} (any : anyClass k = true)
    (word : WordOk prep mem .p p) : Ends Gap (OpOk prep mem k) (vaArgRes k p mem) := by
  obtain ⟨a, c, rfl, cap, _⟩ := word.toPtr
  have cursor : Ends Gap (fun r => MemOk prep r.2 ∧ SameObjects mem r.2 ∧
      ((∃ why, r.1 = .trap why) ∨ ∃ b d, r.1 = .val (.ptr b d) ∧ CapOk prep r.2 d)) (pointerLoadRes .filc (.ptr a c) mem) := by
    refine (accessRes_ends cap).bind fun check _ => ?_
    cases check with
    | trap why => exact Ends.ok ⟨ok, .refl mem, .inl ⟨why, rfl⟩⟩
    | ok =>
      refine (pointerAccessLoad_ends ok a).bind fun r ⟨word, ok', same⟩ => Ends.pure ⟨ok', same, .inr ?_⟩
      obtain ⟨b, d, ptr, cap, _⟩ := word.toPtr
      exact ⟨b, d, by rw [ptr], cap⟩
  refine cursor.bind fun ⟨res, mem1⟩ ⟨ok1, same, yields⟩ => ?_
  rcases yields with ⟨why, rfl⟩ | ⟨b, d, rfl, capD⟩
  · exact Ends.ok ⟨fun x h => by (cases h), ok1, same.grows⟩
  · refine (accessRes_ends capD).bind fun check _ => ?_
    cases check with
    | trap why => exact Ends.ok ⟨fun x h => by (cases h), ok1, same.grows⟩
    | ok =>
      exact (vaCheckedRes_ends ok1 any (cap.grows same.grows) _ _).mono fun r done =>
        ⟨done.word, done.ok, same.grows.trans done.grows⟩

end

end Nanofil
