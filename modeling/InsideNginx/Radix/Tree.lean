import InsideNginx.Fault

/-! The 32-bit radix tree on its node heap: creation with preallocation, insertion, deletion,
lookup, and the allocation of nodes from the free list and from pages. -/
namespace InsideNginx.Radix

structure RadixNode where
  right : Option ℕ
  left : Option ℕ
  parent : Option ℕ
  value : BitVec 64
  deriving DecidableEq, Repr

/-- NGX_RADIX_NO_VALUE. -/
def noValue : BitVec 64 := BitVec.allOnes 64

/-- `sizeof(ngx_radix_node_t)`. -/
def nodeSize : ℕ := 32

/-- The tree with the memory that its nodes live in. `calls` counts the calls of
`ngx_pmemalign` so far. -/
structure RadixTree where
  heap : ℕ → RadixNode
  calls : ℕ
  root : Option ℕ
  freeList : Option ℕ
  start : Option ℕ
  size : ℕ

inductive Rc
  | ok
  | error
  | busy
  deriving DecidableEq, Repr

/-- The child on the side of a bit: right for one, left for zero. -/
def RadixNode.child (node : RadixNode) (b : Bool) : Option ℕ := if b then node.right else node.left

def RadixNode.setChild (node : RadixNode) (b : Bool) (c : Option ℕ) : RadixNode :=
  if b then { node with right := c } else { node with left := c }

/-- `node->right || node->left`. -/
def RadixNode.hasChild (node : RadixNode) : Bool := node.right.isSome || node.left.isSome

/-- Store a node. -/
def RadixTree.store (t : RadixTree) (a : ℕ) (node : RadixNode) : RadixTree :=
  { t with heap := Function.update t.heap a node }

/-- The end of `ngx_radix_alloc`: carve a node from the current page. -/
def RadixTree.carve (t : RadixTree) : Option ℕ × RadixTree :=
  (t.start,{ t with start := t.start.map (· + nodeSize), size := t.size - nodeSize })

/-- `ngx_radix_alloc`. `page k` is what the call number `k` of `ngx_pmemalign` returns. -/
def radixAlloc (pagesize : ℕ) (page : ℕ → Option ℕ) (t : RadixTree) : Option ℕ × RadixTree :=
  match t.freeList with
  | some p => (some p,{ t with freeList := (t.heap p).right })
  | none =>
    if t.size < nodeSize then
      match page t.calls with
      | none => (none,{ t with calls := t.calls + 1, start := none })
      | some q => { t with calls := t.calls + 1, start := some q, size := pagesize }.carve
    else t.carve

/-- The first bit that is looked at. -/
def topBit : BitVec 32 := 0x80000000#32

/-- The first loop of `ngx_radix32tree_insert`. The first argument bounds its iterations:
after thirty-two of them `bit` is zero. -/
def insertDescend (heap : ℕ → RadixNode) (key mask : BitVec 32) :
    ℕ → BitVec 32 → ℕ → Except Fault (BitVec 32 × ℕ × Option ℕ)
  | 0,_,_ => .error .noReturn
  | fuel+1,bit,node =>
    if bit &&& mask = 0 then .ok (bit,node,some node)
    else match (heap node).child (decide (key &&& bit ≠ 0)) with
      | none => .ok (bit,node,none)
      | some next => insertDescend heap key mask fuel (bit >>> 1) next

/-- The second loop of `ngx_radix32tree_insert`: the last node of the new path, or `none` when
an allocation fails. -/
def insertExtend (pagesize : ℕ) (page : ℕ → Option ℕ) (key mask : BitVec 32) :
    ℕ → BitVec 32 → ℕ → RadixTree → Except Fault (Option ℕ × RadixTree)
  | 0,_,_,_ => .error .noReturn
  | fuel+1,bit,node,t =>
    if bit &&& mask = 0 then .ok (some node,t)
    else match radixAlloc pagesize page t with
      | (none,t) => .ok (none,t)
      | (some next,t) =>
        let t := t.store next ⟨none,none,some node,noValue⟩
        let t := t.store node ((t.heap node).setChild (decide (key &&& bit ≠ 0)) (some next))
        insertExtend pagesize page key mask fuel (bit >>> 1) next t

/-- `ngx_radix32tree_insert`. -/
def radix32treeInsert (pagesize : ℕ) (page : ℕ → Option ℕ) (t : RadixTree) (key mask : BitVec 32)
    (value : BitVec 64) : Except Fault (Rc × RadixTree) := do
  let root ← orFault .nullDeref t.root
  match ← insertDescend t.heap key mask 33 topBit root with
  | (_,node,some _) =>
    if (t.heap node).value ≠ noValue then return (.busy,t)
    else return (.ok,t.store node { t.heap node with value := value })
  | (bit,node,none) =>
    match ← insertExtend pagesize page key mask 33 bit node t with
    | (none,t) => return (.error,t)
    | (some node,t) => return (.ok,t.store node { t.heap node with value := value })

/-- The loop of `ngx_radix32tree_delete` that looks for the node. -/
def deleteDescend (heap : ℕ → RadixNode) (key mask : BitVec 32) :
    ℕ → BitVec 32 → Option ℕ → Except Fault (Option ℕ)
  | 0,_,_ => .error .noReturn
  | _+1,_,none => .ok none
  | fuel+1,bit,some node =>
    if bit &&& mask = 0 then .ok (some node)
    else deleteDescend heap key mask fuel (bit >>> 1) ((heap node).child (decide (key &&& bit ≠ 0)))

/-- The loop of `ngx_radix32tree_delete` that takes the node and the nodes above it that became
useless out of the tree and puts them on the free list. -/
def deletePrune : ℕ → ℕ → RadixTree → Except Fault RadixTree
  | 0,_,_ => .error .noReturn
  | fuel+1,node,t => do
    let parent ← orFault .nullDeref (t.heap node).parent
    let t := t.store parent
      ((t.heap parent).setChild (decide ((t.heap parent).right = some node)) none)
    let t := t.store node { t.heap node with right := t.freeList }
    let t := { t with freeList := some node }
    if (t.heap parent).hasChild then return t
    else if (t.heap parent).value ≠ noValue then return t
    else if (t.heap parent).parent = none then return t
    else deletePrune fuel parent t

/-- `ngx_radix32tree_delete`. -/
def radix32treeDelete (t : RadixTree) (key mask : BitVec 32) : Except Fault (Rc × RadixTree) := do
  match ← deleteDescend t.heap key mask 33 topBit t.root with
  | none => return (.error,t)
  | some node =>
    if (t.heap node).hasChild then
      if (t.heap node).value ≠ noValue then
        return (.ok,t.store node { t.heap node with value := noValue })
      else return (.error,t)
    else
      let t ← deletePrune 33 node t
      return (.ok,t)

/-- The loop of `ngx_radix32tree_find`. -/
def findLoop (heap : ℕ → RadixNode) (key : BitVec 32) :
    ℕ → BitVec 32 → BitVec 64 → Option ℕ → Except Fault (BitVec 64)
  | 0,_,_,_ => .error .noReturn
  | _+1,_,value,none => .ok value
  | fuel+1,bit,value,some node =>
    findLoop heap key fuel (bit >>> 1)
      (if (heap node).value ≠ noValue then (heap node).value else value)
      ((heap node).child (decide (key &&& bit ≠ 0)))

/-- `ngx_radix32tree_find`. -/
def radix32treeFind (t : RadixTree) (key : BitVec 32) : Except Fault (BitVec 64) :=
  findLoop t.heap key 34 topBit noValue t.root

/-- The loop over the keys of one preallocated level, which ends when `key` wraps to zero;
`none` when an insertion fails. -/
def preallocateLevel (pagesize : ℕ) (page : ℕ → Option ℕ) (mask inc : BitVec 32) :
    ℕ → BitVec 32 → RadixTree → Except Fault (Option RadixTree)
  | 0,_,_ => .error .noReturn
  | fuel+1,key,t => do
    match ← radix32treeInsert pagesize page t key mask noValue with
    | (.ok,t) =>
      if key + inc = 0 then return some t
      else preallocateLevel pagesize page mask inc fuel (key + inc) t
    | _ => return none

/-- The loop over the preallocated levels. -/
def preallocate (pagesize : ℕ) (page : ℕ → Option ℕ) :
    ℕ → BitVec 32 → BitVec 32 → RadixTree → Except Fault (Option RadixTree)
  | 0,_,_,t => .ok (some t)
  | levels+1,mask,inc,t => do
    let mask := mask >>> 1 ||| topBit
    match ← preallocateLevel pagesize page mask inc (2^32) 0 t with
    | none => return none
    | some t => preallocate pagesize page levels mask (inc >>> 1) t

/-- The number of levels for `preallocate == -1`. -/
def defaultLevels (pagesize : ℕ) : ℕ :=
  if pagesize/nodeSize = 128 then 6
  else if pagesize/nodeSize = 256 then 7
  else 8

/-- `ngx_radix_tree_create`; `none` for NULL. `palloc` tells whether the tree itself could be
allocated, `heap` is what the memory holds. -/
def radixTreeCreate (palloc : Bool) (pagesize : ℕ) (page : ℕ → Option ℕ) (heap : ℕ → RadixNode)
    (levels : ℤ) : Except Fault (Option RadixTree) :=
  if palloc then
    match radixAlloc pagesize page ⟨heap,0,none,none,none,0⟩ with
    | (none,_) => .ok none
    | (some root,t) =>
      let t := { t.store root ⟨none,none,none,noValue⟩ with root := some root }
      if levels = -1 then preallocate pagesize page (defaultLevels pagesize) 0 topBit t
      else if levels < 0 then .error .noReturn
      else preallocate pagesize page levels.toNat 0 topBit t
  else .ok none

end InsideNginx.Radix
