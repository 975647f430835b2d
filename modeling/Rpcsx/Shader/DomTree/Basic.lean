import Mathlib.Algebra.GroupWithZero.Nat
import Mathlib.Logic.Function.Basic

/-!
# `graph::DomTree` and `graph::DomTreeBuilder`

The dominator tree of a graph that is given by the successors of each block. The builder numbers the
blocks by a depth-first search, finds the semidominators with path compression, and from them the
immediate dominators.

Blocks are pointers; the null pointer is the default value of their type. The maps are functions, as the
order of their keys does not matter here. A pointer to an entry of a map is its key. The result is `none`
where a loop does not come to an end or a null pointer is followed. The counters, which are `unsigned` in the
source, do not wrap for fewer than `2 ^ 31` blocks: each block takes two numbers.
-/

namespace Rpcsx.Shader

structure DomTreeNode (B : Type) [Inhabited B] where
  block : B := default
  immDom : Option B := none
  dfsNumIn : Nat := 0xffffffff
  dfsNumOut : Nat := 0xffffffff
  level : Nat := 0
  children : List B := []

structure DomTree (B : Type) [Inhabited B] where
  bbToNodes : B → Option (DomTreeNode B)
  rootNode : Option B

variable {B : Type} [DecidableEq B] [Inhabited B]

def DomTreeNode.dominatedBy (node other : DomTreeNode B) : Bool :=
  other.dfsNumIn ≤ node.dfsNumIn && node.dfsNumOut ≤ other.dfsNumOut

namespace DomTree

def empty : DomTree B := ⟨fun _ => none, none⟩

def setNode (t : DomTree B) (bb : B) (node : DomTreeNode B) : DomTree B :=
  { t with bbToNodes := Function.update t.bbToNodes bb (some node) }

def getNode (t : DomTree B) (bb : B) : Option (DomTreeNode B) := t.bbToNodes bb

def createChild (t : DomTree B) (bb parent : B) : Option (DomTree B) :=
  (t.getNode parent).bind fun parentNode =>
    let t := t.setNode bb { (t.getNode bb).getD {} with
      block := bb, immDom := some parent, level := parentNode.level + 1 }
    (t.getNode parent).map fun parentNode =>
      t.setNode parent { parentNode with children := parentNode.children ++ [bb] }

def createRoot (t : DomTree B) (bb : B) : DomTree B :=
  { t.setNode bb { (t.getNode bb).getD {} with block := bb } with rootNode := some bb }

/-- The loop of `updateDFSNumbers`; an iterator is the list of the children that are left. -/
def numberLoop : Nat → DomTree B → List (B × List B) → Nat → Option (DomTree B)
  | 0, _, _, _ => none
  | _ + 1, t, [], _ => some t
  | fuel + 1, t, (bb, []) :: workStack, dfsNum => (t.getNode bb).bind fun node =>
    numberLoop fuel (t.setNode bb { node with dfsNumOut := dfsNum }) workStack (dfsNum + 1)
  | fuel + 1, t, (bb, child :: children) :: workStack, dfsNum => (t.getNode child).bind fun node =>
    numberLoop fuel (t.setNode child { node with dfsNumIn := dfsNum })
      ((child, node.children) :: (bb, children) :: workStack) (dfsNum + 1)

def updateDFSNumbers (fuel : Nat) (t : DomTree B) : Option (DomTree B) :=
  match t.rootNode with
  | none => some t
  | some root => (t.getNode root).bind fun node =>
    numberLoop fuel (t.setNode root { node with dfsNumIn := 0 }) [(root, node.children)] 1

def dominates (t : DomTree B) (a b : B) : Option Bool :=
  (t.getNode a).bind fun aNode => (t.getNode b).map fun bNode =>
    if a = b ∨ bNode.immDom = some a then true
    else if aNode.immDom = some b ∨ aNode.level ≥ bNode.level then false
    else bNode.dominatedBy aNode

def getImmediateDominator (t : DomTree B) (a : B) : Option B :=
  (t.getNode a).bind fun node =>
    match node.immDom with
    | some immDom => (t.getNode immDom).map DomTreeNode.block
    | none => some default

def commonLoop (t : DomTree B) : Nat → B → B → Option B
  | 0, _, _ => none
  | fuel + 1, a, b =>
    (t.getNode a).bind fun aNode => (t.getNode b).bind fun bNode =>
      if a = b then some aNode.block
      else
        let (aNode, b) := if aNode.level < bNode.level then (bNode, a) else (aNode, b)
        aNode.immDom.bind fun a => commonLoop t fuel a b

/-- `findNearestCommonDominator(a, b)`; every turn of the loop goes up one level. -/
def findNearestCommonDominator (t : DomTree B) (a b : B) : Option B :=
  (t.getNode a).bind fun aNode => (t.getNode b).bind fun bNode =>
    if t.rootNode = some a ∨ t.rootNode = some b then
      t.rootNode.bind fun root => (t.getNode root).map DomTreeNode.block
    else t.commonLoop (aNode.level + bNode.level + 1) a b

end DomTree

structure NodeInfo (B : Type) [Inhabited B] where
  dfsNum : Nat := 0
  parent : Nat := 0
  semi : Nat := 0
  label : B := default
  immDom : B := default
  revChildren : List B := []

structure DomTreeBuilder (B : Type) [Inhabited B] where
  indexToNode : List B := [default]
  nodeToInfo : B → Option (NodeInfo B) := fun _ => none

namespace DomTreeBuilder

def info (s : DomTreeBuilder B) (block : B) : NodeInfo B := (s.nodeToInfo block).getD {}

def setInfo (s : DomTreeBuilder B) (block : B) (i : NodeInfo B) : DomTreeBuilder B :=
  { s with nodeToInfo := Function.update s.nodeToInfo block (some i) }

def node (s : DomTreeBuilder B) (i : Nat) : B := s.indexToNode.getD i default

/-! ## `runDFS` -/

/-- What `walk` does with each successor of `bb`, the block that has got the number `index`. -/
def walkEdge (bb : B) (index : Nat) (x : DomTreeBuilder B × List B) (successor : B) : DomTreeBuilder B × List B :=
  let (s, workList) := x
  let succInfo := s.info successor
  if (s.nodeToInfo successor).isSome ∧ succInfo.dfsNum ≠ 0 then
    if successor ≠ bb then
      (s.setInfo successor { succInfo with revChildren := succInfo.revChildren ++ [bb] }, workList)
    else (s, workList)
  else
    (s.setInfo successor
      { succInfo with parent := index, revChildren := succInfo.revChildren ++ [bb] },
      successor :: workList)

/-- The loop of `runDFS`; the head of the list is the back of `workList`. -/
def dfsLoop (walk : B → List B) : Nat → DomTreeBuilder B → List B → Nat → Option (DomTreeBuilder B)
  | 0, _, _, _ => none
  | _ + 1, s, [], _ => some s
  | fuel + 1, s, bb :: workList, index =>
    if (s.info bb).dfsNum ≠ 0 then dfsLoop walk fuel s workList index
    else
      let index := index + 1
      let s := s.setInfo bb { s.info bb with dfsNum := index, semi := index, label := bb }
      let s := { s with indexToNode := s.indexToNode ++ [bb] }
      let (s, workList) := (walk bb).foldl (walkEdge bb index) (s, workList)
      dfsLoop walk fuel s workList index

def runDFS (walk : B → List B) (fuel : Nat) (root : B) : Option (DomTreeBuilder B) :=
  dfsLoop walk fuel {} [root] 0

/-! ## `eval` -/

def climb (s : DomTreeBuilder B) (lastLinked : Nat) : Nat → B → List B → Option (B × List B)
  | 0, _, _ => none
  | fuel + 1, block, stack =>
    let parent := s.node (s.info block).parent
    if (s.info parent).parent ≥ lastLinked then climb s lastLinked fuel parent (block :: stack)
    else some (parent, block :: stack)

/-- The second loop of `eval`: each block of the stack gets the parent of `p` above it, and its label if
that has the smaller semidominator. -/
def compress (s : DomTreeBuilder B) (p pLabel : B) : List B → DomTreeBuilder B × B
  | [] => (s, p)
  | block :: stack =>
    let blockInfo := { s.info block with parent := (s.info p).parent }
    if (s.info pLabel).semi < (s.info blockInfo.label).semi then
      compress (s.setInfo block { blockInfo with label := (s.info p).label }) block pLabel stack
    else compress (s.setInfo block blockInfo) block blockInfo.label stack

/-- `eval(block, LastLinked, stack)`; every turn of the first loop goes to a smaller number. -/
def eval (s : DomTreeBuilder B) (block : B) (lastLinked : Nat) : Option (DomTreeBuilder B × B) :=
  if (s.info block).parent < lastLinked then some (s, (s.info block).label)
  else (s.climb lastLinked s.indexToNode.length block []).map fun (p, stack) =>
    let (s, block) := s.compress p (s.info p).label stack
    (s, (s.info block).label)

/-! ## `runSemiNCA` -/

def initImmDom (s : DomTreeBuilder B) (i : Nat) : DomTreeBuilder B :=
  let node := s.node i
  s.setInfo node { s.info node with immDom := s.node (s.info node).parent }

def semiOf (node : B) (i : Nat) (s : DomTreeBuilder B) (child : B) : Option (DomTreeBuilder B) :=
  if (s.nodeToInfo child).isNone then some s
  else (s.eval child (i + 1)).map fun (s, label) =>
    let childSemi := (s.info label).semi
    if childSemi < (s.info node).semi then s.setInfo node { s.info node with semi := childSemi } else s

def findSemi (s : DomTreeBuilder B) (i : Nat) : Option (DomTreeBuilder B) :=
  let node := s.node i
  let s := s.setInfo node { s.info node with semi := (s.info node).parent }
  (s.info node).revChildren.foldlM (semiOf node i) s

def immDomLoop (s : DomTreeBuilder B) (sDomNum : Nat) : Nat → B → Option B
  | 0, _ => none
  | fuel + 1, immDom =>
    if (s.info immDom).dfsNum > sDomNum then immDomLoop s sDomNum fuel (s.info immDom).immDom
    else some immDom

def findImmDom (s : DomTreeBuilder B) (i : Nat) : Option (DomTreeBuilder B) :=
  let node := s.node i
  let sDomNum := (s.info (s.node (s.info node).semi)).dfsNum
  (s.immDomLoop sDomNum s.indexToNode.length (s.info node).immDom).map fun immDom =>
    s.setInfo node { s.info node with immDom }

def runSemiNCA (s : DomTreeBuilder B) : Option (DomTreeBuilder B) :=
  let nextDFS := s.indexToNode.length
  let s := (List.range' 1 (nextDFS - 1)).foldl initImmDom s
  ((List.range' 2 (nextDFS - 2)).reverse.foldlM findSemi s).bind fun s =>
    (List.range' 2 (nextDFS - 2)).foldlM findImmDom s

/-! ## `build` -/

def getIDom (s : DomTreeBuilder B) (bb : B) : B :=
  match s.nodeToInfo bb with
  | none => default
  | some i => i.immDom

def getNodeForBlock (s : DomTreeBuilder B) : Nat → B → DomTree B → Option (DomTree B)
  | 0, _, _ => none
  | fuel + 1, bb, t =>
    if (t.getNode bb).isSome then some t
    else
      let immDom := s.getIDom bb
      (getNodeForBlock s fuel immDom t).bind fun t => t.createChild bb immDom

def attach (s : DomTreeBuilder B) (t : DomTree B) (i : Nat) : Option (DomTree B) :=
  let node := s.node i
  if (t.getNode node).isSome then some t
  else
    let immDom := s.getIDom node
    (s.getNodeForBlock s.indexToNode.length immDom t).bind fun t => t.createChild node immDom

def build (walkSuccessors : B → List B) (fuel : Nat) (root : B) : Option (DomTree B) := do
  let s ← runDFS walkSuccessors fuel root
  let s ← s.runSemiNCA
  let t := DomTree.empty.createRoot root
  let first := s.node 1
  let s := s.setInfo first { s.info first with immDom := root }
  let t ← (List.range' 1 (s.indexToNode.length - 1)).foldlM s.attach t
  t.updateDFSNumbers fuel

end DomTreeBuilder

end Rpcsx.Shader
