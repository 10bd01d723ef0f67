import Nanofil.Syntax
import Mathlib.Data.List.Sort
import Mathlib.Data.String.Basic

/-! `cfg.pl`: the control-flow graph of a function's blocks, its immediate
dominators (Cooper, Harvey and Kennedy) and the preorder intervals of the
dominator tree. A recursion the source leaves to the data is given a bound here,
and none stands for running past it as for a failure. -/
namespace Nanofil

structure Cfg where
  entry : Name
  rpo : List Name
  succs : Name → List Name
  preds : Name → List Name

def sortNames (ns : List Name) : List Name := ns.insertionSort (· ≤ ·)

def jumpSuccs (j : Jump) : List Name := sortNames (jumpLabels j).dedup

def blockSuccs (bs : List Block) (l : Name) : List Name :=
  match bs.find? (fun b => b.label = l) with
  | some b => jumpSuccs b.jump
  | none => []

def blockPreds (bs : List Block) (l : Name) : List Name :=
  sortNames ((bs.filter (fun b => l ∈ jumpSuccs b.jump)).map (·.label))

/-- The labels reachable from `ls` without passing `seen`, in reverse postorder before `post`. -/
def reversePostorder (succs : Name → List Name) :
    Nat → List Name → List Name → List Name → Option (List Name × List Name)
  | _, [], seen, post => some (seen, post)
  | 0, _ :: _, _, _ => none
  | n + 1, l :: ls, seen, post =>
    if l ∈ seen then reversePostorder succs n ls seen post
    else do
      let r ← reversePostorder succs n (succs l) (l :: seen) post
      reversePostorder succs n ls r.1 (l :: r.2)

def labelsExist (bs : List Block) : Bool :=
  bs.all (fun b => (jumpLabels b.jump).all (fun l => bs.any (fun b' => b'.label = l)))

def funcCfg (bs : List Block) : Option Cfg :=
  match bs with
  | [] => none
  | entry :: _ =>
    if labelsExist bs then do
      let r ← reversePostorder (blockSuccs bs) (3 * bs.length + 2) [entry.label] [] []
      return { entry := entry.label, rpo := r.2, succs := blockSuccs bs, preds := blockPreds bs }
    else none

/-! ### Immediate dominators -/

abbrev Idom := Name → Option Name

def setIdom (idom : Idom) (b d : Name) : Idom := fun l => if l = b then some d else idom l

/-- Climbs from the later of the two in reverse postorder until they meet. -/
def commonDominator (num : Name → Nat) (idom : Idom) : Nat → Name → Name → Option Name
  | 0, _, _ => none
  | n + 1, a, b =>
    if a = b then some a
    else if num a > num b then do
      let a' ← idom a
      commonDominator num idom n a' b
    else do
      let b' ← idom b
      commonDominator num idom n a b'

def newIdom (cfg : Cfg) (idom : Idom) (b : Name) : Option Name :=
  match (cfg.preds b).filter (fun p => (idom p).isSome) with
  | [] => none
  | first :: others =>
    others.foldlM (fun a p => commonDominator (fun l => cfg.rpo.idxOf l) idom
      (2 * cfg.rpo.length + 2) p a) first

def labelIdoms (cfg : Cfg) (st : Idom × Bool) (b : Name) : Option (Idom × Bool) := do
  let new ← newIdom cfg st.1 b
  return if st.1 b = some new then st else (setIdom st.1 b new, true)

def idomFixpoint (cfg : Cfg) (labels : List Name) : Nat → Idom → Option Idom
  | 0, _ => none
  | n + 1, idom => do
    let r ← labels.foldlM (labelIdoms cfg) (idom, false)
    if r.2 then idomFixpoint cfg labels n r.1 else some r.1

def cfgIdoms (cfg : Cfg) : Option Idom := do
  let idom ← idomFixpoint cfg cfg.rpo.tail (cfg.rpo.length * cfg.rpo.length + 2)
    (setIdom (fun _ => none) cfg.entry cfg.entry)
  return fun l => if l = cfg.entry then none else idom l

/-! ### The dominator tree's intervals -/

def domChildren (cfg : Cfg) (idom : Idom) (p : Name) : List Name :=
  cfg.rpo.filter (fun l => idom l = some p)

abbrev Intervals := Name → Option (Nat × Nat)

def setInterval (iv : Intervals) (l : Name) (i : Nat × Nat) : Intervals :=
  fun l' => if l' = l then some i else iv l'

def subtreeIntervals (kids : Name → List Name) :
    Nat → Name → Nat → Intervals → Option (Nat × Intervals)
  | 0, _, _, _ => none
  | n + 1, l, pre, iv => do
    let r ← (kids l).foldlM (fun acc k => subtreeIntervals kids n k acc.1 acc.2) (pre + 1, iv)
    return (r.1, setInterval r.2 l (pre, r.1 - 1))

def domIntervals (cfg : Cfg) (idom : Idom) : Option Intervals := do
  let r ← subtreeIntervals (domChildren cfg idom) (cfg.rpo.length + 1) cfg.entry 0 (fun _ => none)
  return r.2

def dominatesByInterval (iv : Intervals) (a b : Name) : Bool :=
  match iv a, iv b with
  | some (preA, lastA), some (preB, _) => preA ≤ preB ∧ preB ≤ lastA
  | _, _ => false

/-- The intervals of a function's blocks, none when a jump names no block. -/
def blockIntervals (bs : List Block) : Option Intervals := do
  let cfg ← funcCfg bs
  let idom ← cfgIdoms cfg
  domIntervals cfg idom

end Nanofil
