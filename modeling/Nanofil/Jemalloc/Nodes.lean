import Mathlib.Algebra.Group.Nat.Defs

/-! `jemalloc_fugc.c`: `mallctl` by name and by MIB, its table of nodes and their handlers.
A string is the list of its characters. What `/proc/self/statm` says, the version and
where the texts are come from the process. -/
namespace Nanofil.Jemalloc

inductive Errno
  | ENOENT | EPERM | EINVAL | EFAULT
deriving DecidableEq, Repr

inductive Kind
  | void | bool | unsigned | size | ssize | u64 | str
deriving DecidableEq

def kindSize : Kind → Nat
  | .void => 0
  | .bool => 1
  | .unsigned => 4
  | .size | .ssize | .u64 | .str => 8

inductive Access
  | RO | RW | WO
deriving DecidableEq

inductive Handler
  | epoch | resident | pactive | arenaZero | arenaVoid | arenaDecay | arenasDecay | arenaInitialized | narenas | arenasCreate
  | tcacheCreate | bin | arenaBinZero
deriving DecidableEq

/-- A union's initial value: its bits, or a text's address. -/
inductive Init
  | bits (x : UInt64)
  | text (s : String)
  | version

structure Node where
  name : String
  kind : Kind
  access : Access
  fn : Option Handler
  init : Init

structure Process where
  resident : UInt64
  version : String
  address : String → UInt64

structure Controls where
  narenas : UInt32
  ntcaches : UInt32
  epoch : UInt64
  dirtyDecay : UInt64
  muzzyDecay : UInt64
deriving DecidableEq

def MINALIGN : UInt64 := 16
def PAGE : UInt64 := 4096
def MALLCTL_ARENAS_ALL : UInt64 := 4096
def MALLCTL_ARENAS_DESTROYED : UInt64 := 4097
def MAXDEPTH : Nat := 8

/-! ### Handlers -/

def arenaOk (s : Controls) (i : UInt64) : Bool :=
  i ≤ s.narenas.toUInt64 || i = MALLCTL_ARENAS_ALL || i = MALLCTL_ARENAS_DESTROYED

def arenaHasMemory (s : Controls) (i : UInt64) : Bool := i = 0 || i = MALLCTL_ARENAS_ALL || i = s.narenas.toUInt64

/-- A member of a union is written: its other bytes stay. -/
def setBool (v : UInt64) (b : Bool) : UInt64 := v / 256 * 256 + (if b then 1 else 0)
def setUnsigned (v : UInt64) (u : UInt32) : UInt64 := v / 4294967296 * 4294967296 + u.toUInt64

abbrev Handled := Option Errno × UInt64 × Controls

def hResident (p : Process) (idx : List UInt64) (v : UInt64) (s : Controls) : Handled :=
  if idx.getD 0 0 = -1 then (none, p.resident, s)
  else if !arenaOk s (idx.getD 0 0) then (some .ENOENT, v, s)
  else (none, if arenaHasMemory s (idx.getD 0 0) then p.resident else 0, s)

def strstr (needle : List Char) : List Char → Bool
  | [] => needle.isEmpty
  | c :: cs => needle.isPrefixOf (c :: cs) || strstr needle cs

def isMuzzy (n : Node) : Bool := strstr "muzzy".toList n.name.toList

def hArenaDecay (n : Node) (idx : List UInt64) (v : UInt64) (nv : Option UInt64) (s : Controls) : Handled :=
  if !arenaOk s (idx.getD 0 0) then (some .EFAULT, v, s)
  else if isMuzzy n then (none, s.muzzyDecay, { s with muzzyDecay := nv.getD s.muzzyDecay })
  else (none, s.dirtyDecay, { s with dirtyDecay := nv.getD s.dirtyDecay })

def handle (p : Process) (n : Node) (idx : List UInt64) (v : UInt64) (nv : Option UInt64) (s : Controls) : Handler → Handled
  | .epoch =>
    let s := if nv.isSome then { s with epoch := s.epoch + 1 } else s
    (none, s.epoch, s)
  | .resident => hResident p idx v s
  | .pactive =>
    let (ret, v, s) := hResident p idx v s
    (ret, v / PAGE, s)
  | .arenaZero => if !arenaOk s (idx.getD 0 0) then (some .ENOENT, v, s) else (none, 0, s)
  | .arenaVoid => (if arenaOk s (idx.getD 0 0) then none else some .EFAULT, v, s)
  | .arenaDecay => hArenaDecay n idx v nv s
  | .arenasDecay => hArenaDecay n [0] v nv s
  | .arenaInitialized => if !arenaOk s (idx.getD 0 0) then (some .EFAULT, v, s) else (none, setBool v true, s)
  | .narenas => (none, setUnsigned v s.narenas, s)
  | .arenasCreate => (none, setUnsigned v s.narenas, { s with narenas := s.narenas + 1 })
  | .tcacheCreate => (none, setUnsigned v s.ntcaches, { s with ntcaches := s.ntcaches + 1 })
  | .bin =>
    if idx.getD 0 0 ≠ 0 then (some .ENOENT, v, s)
    else if n.name = "arenas.bin.#.size" then (none, MINALIGN, s)
    else if n.name = "arenas.bin.#.nregs" then (none, setUnsigned v (PAGE / MINALIGN).toUInt32, s)
    else if n.name = "arenas.bin.#.slab_size" then (none, PAGE, s)
    else (none, setUnsigned v 0, s)
  | .arenaBinZero => if !arenaOk s (idx.getD 0 0) || idx.getD 1 0 ≠ 0 then (some .ENOENT, v, s) else (none, 0, s)

/-! ### The table -/

def B (name : String) (value : Bool) : Node := ⟨name, .bool, .RO, none, .bits (if value then 1 else 0)⟩
def S (name value : String) : Node := ⟨name, .str, .RO, none, .text value⟩
def U (name : String) (value : UInt64) : Node := ⟨name, .unsigned, .RO, none, .bits value⟩
def Z (name : String) (value : UInt64) : Node := ⟨name, .size, .RO, none, .bits value⟩
def SS (name : String) (value : UInt64) : Node := ⟨name, .ssize, .RO, none, .bits value⟩
def Q (name : String) (value : UInt64) : Node := ⟨name, .u64, .RO, none, .bits value⟩
def H (name : String) (kind : Kind) (access : Access) (fn : Option Handler) : Node := ⟨name, kind, access, fn, .bits 0⟩

def nodes : List Node := [
  ⟨"version", .str, .RO, none, .version⟩,
  H "epoch" .u64 .RW (some .epoch),
  ⟨"background_thread", .bool, .RW, none, .bits 0⟩,
  ⟨"max_background_threads", .size, .RW, none, .bits 0⟩,

  B "config.cache_oblivious" false,
  B "config.debug" false,
  B "config.fill" false,
  B "config.lazy_lock" false,
  S "config.malloc_conf" "",
  B "config.opt_safety_checks" false,
  B "config.prof" false,
  B "config.prof_libgcc" false,
  B "config.prof_libunwind" false,
  B "config.stats" true,
  B "config.utrace" false,
  B "config.xmalloc" false,

  B "opt.abort" false,
  B "opt.abort_conf" false,
  B "opt.retain" true,
  S "opt.dss" "disabled",
  U "opt.narenas" 1,
  S "opt.percpu_arena" "disabled",
  Z "opt.oversize_threshold" 0,
  B "opt.background_thread" false,
  Z "opt.max_background_threads" 0,
  SS "opt.dirty_decay_ms" 10000,
  SS "opt.muzzy_decay_ms" 0,
  B "opt.stats_print" false,
  S "opt.stats_print_opts" "",
  S "opt.junk" "false",
  B "opt.zero" true,
  B "opt.utrace" false,
  B "opt.xmalloc" false,
  B "opt.tcache" false,
  Z "opt.tcache_max" 0,
  S "opt.thp" "disabled",
  B "opt.prof" false,

  ⟨"thread.arena", .unsigned, .RW, none, .bits 0⟩,
  Q "thread.allocated" 0,
  Q "thread.deallocated" 0,
  ⟨"thread.tcache.enabled", .bool, .RW, none, .bits 0⟩,
  H "thread.tcache.flush" .void .RO none,
  ⟨"thread.idle", .void, .RO, none, .bits 0⟩,

  H "tcache.create" .unsigned .RO (some .tcacheCreate),
  ⟨"tcache.flush", .unsigned, .WO, none, .bits 0⟩,
  ⟨"tcache.destroy", .unsigned, .WO, none, .bits 0⟩,

  H "arena.#.initialized" .bool .RO (some .arenaInitialized),
  H "arena.#.decay" .void .RO (some .arenaVoid),
  H "arena.#.purge" .void .RO (some .arenaVoid),
  H "arena.#.reset" .void .RO (some .arenaVoid),
  H "arena.#.destroy" .void .RO (some .arenaVoid),
  H "arena.#.dirty_decay_ms" .ssize .RW (some .arenaDecay),
  H "arena.#.muzzy_decay_ms" .ssize .RW (some .arenaDecay),

  H "arenas.narenas" .unsigned .RO (some .narenas),
  H "arenas.dirty_decay_ms" .ssize .RW (some .arenasDecay),
  H "arenas.muzzy_decay_ms" .ssize .RW (some .arenasDecay),
  Z "arenas.quantum" MINALIGN,
  Z "arenas.page" PAGE,
  Z "arenas.tcache_max" 0,
  U "arenas.nbins" 1,
  U "arenas.nhbins" 0,
  U "arenas.nlextents" 0,
  H "arenas.bin.#.size" .size .RO (some .bin),
  H "arenas.bin.#.nregs" .unsigned .RO (some .bin),
  H "arenas.bin.#.slab_size" .size .RO (some .bin),
  H "arenas.bin.#.nshards" .unsigned .RO (some .bin),
  H "arenas.create" .unsigned .RO (some .arenasCreate),

  H "stats.allocated" .size .RO (some .resident),
  H "stats.active" .size .RO (some .resident),
  Z "stats.metadata" 0,
  H "stats.resident" .size .RO (some .resident),
  H "stats.mapped" .size .RO (some .resident),
  Z "stats.retained" 0,
  Z "stats.zero_reallocs" 0,

  H "stats.arenas.#.pactive" .size .RO (some .pactive),
  H "stats.arenas.#.pdirty" .size .RO (some .arenaZero),
  H "stats.arenas.#.pmuzzy" .size .RO (some .arenaZero),
  H "stats.arenas.#.mapped" .size .RO (some .resident),
  H "stats.arenas.#.retained" .size .RO (some .arenaZero),
  H "stats.arenas.#.resident" .size .RO (some .resident),
  H "stats.arenas.#.base" .size .RO (some .arenaZero),
  H "stats.arenas.#.internal" .size .RO (some .arenaZero),
  H "stats.arenas.#.small.allocated" .size .RO (some .resident),
  H "stats.arenas.#.small.resident" .size .RO (some .resident),
  H "stats.arenas.#.small.nmalloc" .u64 .RO (some .arenaZero),
  H "stats.arenas.#.small.ndalloc" .u64 .RO (some .arenaZero),
  H "stats.arenas.#.large.allocated" .size .RO (some .arenaZero),
  H "stats.arenas.#.large.nmalloc" .u64 .RO (some .arenaZero),
  H "stats.arenas.#.large.ndalloc" .u64 .RO (some .arenaZero),
  H "stats.arenas.#.bins.#.curregs" .size .RO (some .arenaBinZero),
  H "stats.arenas.#.bins.#.curslabs" .size .RO (some .arenaBinZero),
  H "stats.arenas.#.bins.#.nmalloc" .u64 .RO (some .arenaBinZero),
  H "stats.arenas.#.bins.#.ndalloc" .u64 .RO (some .arenaBinZero),
  H "stats.arenas.#.bins.#.nslabs" .u64 .RO (some .arenaBinZero)]

/-! ### Names and MIBs -/

/-- `strtoull` at a digit: the number, where it fits, and what follows. -/
def strtoull (name : List Char) : Option UInt64 × List Char :=
  let v := Nat.ofDigitChars 10 (name.takeWhile Char.isDigit) 0
  (if v < 2 ^ 64 then some (UInt64.ofNat v) else none, name.dropWhile Char.isDigit)

/-- `match`, with the numeric components so far. -/
def matches_ : List Char → List Char → List UInt64 → Option (List UInt64)
  | [], [], idx => some idx
  | p :: pat, c :: name, idx =>
    if p = '#' then
      if !c.isDigit then none
      else
        match strtoull (c :: name) with
        | (some v, rest) => if idx.length = MAXDEPTH then none else matches_ pat rest (idx ++ [v])
        | (none, _) => none
    else if p ≠ c then none
    else matches_ pat name idx
  | _, _, _ => none

/-- The buffers of a call: is there an output buffer, the length it points to, what is read, and its length. -/
structure Args where
  oldp : Bool
  oldlenp : Option UInt64
  newp : Option (Nat → UInt8)
  newlen : UInt64

/-- What a call returns, the bytes it stores to the output buffer, and the output length it leaves. -/
structure Reply where
  ret : Option Errno
  output : List UInt8
  oldlenp : Option UInt64
deriving DecidableEq

/-- A union's first bytes in memory. -/
def bytesOf (v : UInt64) (n : Nat) : List UInt8 := (List.range n).map fun (i : Nat) => (v.toNat / 256 ^ i).toUInt8

def ofBytes (mem : Nat → UInt8) : Nat → Nat
  | 0 => 0
  | n + 1 => ofBytes mem n + (mem n).toNat * 256 ^ n

def initial (p : Process) : Init → UInt64
  | .bits x => x
  | .text s => p.address s
  | .version => p.address p.version

/-- The checks of a call's buffers. -/
def refusal (n : Node) (a : Args) : Option Errno :=
  if a.newp.isSome then
    if n.access = .RO then some .EPERM
    else if a.newlen.toNat ≠ kindSize n.kind then some .EINVAL
    else if a.oldp ∧ n.access = .WO then some .EPERM
    else none
  else if n.access = .WO ∧ n.kind ≠ .void then some .EINVAL
  else if a.oldp ∧ n.access = .WO then some .EPERM
  else none

/-- What the node's handler does, or its constant. -/
def act (p : Process) (n : Node) (idx : Option (List UInt64)) (a : Args) (s : Controls) : Handled :=
  match n.fn with
  | some h =>
    let nv := a.newp.map fun mem => UInt64.ofNat (ofBytes mem (kindSize n.kind))
    handle p n (idx.getD [-1]) (initial p n.init) nv s h
  | none => (none, initial p n.init, s)

/-- The output: a wrong length gets a part, and an error. -/
def answer (n : Node) (a : Args) : Handled → Reply × Controls
  | (some e, _, s) => (⟨some e, [], a.oldlenp⟩, s)
  | (none, v, s) =>
    match a.oldlenp with
    | none => (⟨none, [], none⟩, s)
    | some len =>
      if a.oldp ∧ kindSize n.kind ≠ 0 then
        if len.toNat ≠ kindSize n.kind then
          let copy := min len.toNat (kindSize n.kind)
          (⟨some .EINVAL, bytesOf v copy, some (UInt64.ofNat copy)⟩, s)
        else (⟨none, bytesOf v (kindSize n.kind), some len⟩, s)
      else (⟨none, [], some len⟩, s)

def ctl (p : Process) (n : Node) (idx : Option (List UInt64)) (a : Args) (s : Controls) : Reply × Controls :=
  match refusal n a with
  | some e => (⟨some e, [], a.oldlenp⟩, s)
  | none => answer n a (act p n idx a s)

/-- The first node that a name matches, with its place and the numeric components. -/
def findNode (name : List Char) : Option (Nat × Node × List UInt64) :=
  nodes.zipIdx.findSome? fun x => (matches_ x.1.name.toList name []).map fun idx => (x.2, x.1, idx)

def someIdx (idx : List UInt64) : Option (List UInt64) := if idx = [] then none else some idx

def mallctl (p : Process) (name : List Char) (a : Args) (s : Controls) : Reply × Controls :=
  match findNode name with
  | some (_, n, idx) => ctl p n (someIdx idx) a s
  | none => (⟨some .ENOENT, [], a.oldlenp⟩, s)

def depth (pat : List Char) : Nat := pat.count '.' + 1

/-- The components after the first: the one that is open, `mib`, ends at each dot. -/
def mibRest : List Char → UInt64 → List UInt64 → List UInt64
  | [], open_, _ => [open_]
  | c :: pat, open_, idx =>
    if c = '.' then open_ :: mibRest pat 0 idx
    else if c = '#' then mibRest pat (idx.headD open_) idx.tail
    else mibRest pat open_ idx

def nametomib (name : List Char) (miblen : Nat) : Except Errno (List UInt64) :=
  match findNode name with
  | some (i, n, idx) =>
    if miblen < depth n.name.toList then .error .ENOENT else .ok (mibRest n.name.toList (UInt64.ofNat i) idx)
  | none => .error .ENOENT

/-- The numeric components that a MIB gives a pattern. -/
def mibIndex : List Char → List UInt64 → List UInt64
  | [], _ => []
  | c :: pat, mib =>
    if c = '.' then mibIndex pat mib.tail
    else if c = '#' then mib.headD 0 :: mibIndex pat mib
    else mibIndex pat mib

def mallctlbymib (p : Process) (mib : List UInt64) (a : Args) (s : Controls) : Reply × Controls :=
  let missing : Reply × Controls := (⟨some .ENOENT, [], a.oldlenp⟩, s)
  match mib with
  | [] => missing
  | i :: _ =>
    match nodes[i.toNat]? with
    | none => missing
    | some n =>
      if mib.length ≠ depth n.name.toList then missing
      else ctl p n (someIdx (mibIndex n.name.toList mib)) a s

end Nanofil.Jemalloc
