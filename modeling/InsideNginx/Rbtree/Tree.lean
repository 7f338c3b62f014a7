import InsideNginx.Fault
import InsideNginx.General.ColorTree

/-! The red-black tree on its node memory: rotations, insertion and deletion, pointer by
pointer. `->p` is read as `->parent`, and the nodes are kept by fields. -/
namespace InsideNginx.Rbtree
open ColorTree

abbrev RbtreeKey := BitVec 64

/-- The memory of the nodes, one function for each field, with the root and the sentinel of
the tree. -/
structure RbtreeMem where
  key : ℕ → RbtreeKey
  left : ℕ → Option ℕ
  right : ℕ → Option ℕ
  parent : ℕ → Option ℕ
  color : ℕ → Color
  root : Option ℕ
  sentinel : ℕ

namespace RbtreeMem

@[simps -fullyApplied] def setKey (t : RbtreeMem) (a : ℕ) (k : RbtreeKey) : RbtreeMem :=
  { t with key := Function.update t.key a k }
@[simps -fullyApplied] def setLeft (t : RbtreeMem) (a : ℕ) (p : Option ℕ) : RbtreeMem :=
  { t with left := Function.update t.left a p }
@[simps -fullyApplied] def setRight (t : RbtreeMem) (a : ℕ) (p : Option ℕ) : RbtreeMem :=
  { t with right := Function.update t.right a p }
@[simps -fullyApplied] def setParent (t : RbtreeMem) (a : ℕ) (p : Option ℕ) : RbtreeMem :=
  { t with parent := Function.update t.parent a p }
@[simps -fullyApplied] def setColor (t : RbtreeMem) (a : ℕ) (c : Color) : RbtreeMem :=
  { t with color := Function.update t.color a c }
@[simps -fullyApplied] def setRoot (t : RbtreeMem) (p : Option ℕ) : RbtreeMem := { t with root := p }

end RbtreeMem

/-- Dereference a pointer. -/
def deref : Option ℕ → Except Fault ℕ := orFault .nullDeref

/-- `if (p != sentinel) p->parent = node`. -/
def adopt (t : RbtreeMem) (p : Option ℕ) (node : ℕ) : Except Fault RbtreeMem :=
  if p = some t.sentinel then .ok t
  else do return t.setParent (← deref p) (some node)

/-- The part of both rotations that puts `temp` into the place of `node`. -/
def replaceChild (t : RbtreeMem) (node temp : ℕ) : Except Fault RbtreeMem :=
  if some node = t.root then .ok (t.setRoot (some temp))
  else do
    let p ← deref (t.parent node)
    if some node = t.left p then return t.setLeft p (some temp)
    else return t.setRight p (some temp)

/-- `ngx_rbtree_left_rotate`. -/
def leftRotate (t : RbtreeMem) (node : ℕ) : Except Fault RbtreeMem := do
  let temp ← deref (t.right node)
  let t := t.setRight node (t.left temp)
  let t ← adopt t (t.left temp) node
  let t := t.setParent temp (t.parent node)
  let t ← replaceChild t node temp
  let t := t.setLeft temp (some node)
  return t.setParent node (some temp)

/-- `ngx_rbtree_right_rotate`: unlike the left rotation it does not store `x->parent`. -/
def rightRotate (t : RbtreeMem) (node : ℕ) : Except Fault RbtreeMem := do
  let x ← deref (t.left node)
  let t := t.setLeft node (t.right x)
  let t ← adopt t (t.right x) node
  let t ← replaceChild t node x
  let t := t.setRight x (some node)
  return t.setParent node (some x)

/-- The loop of `ngx_rbtree_insert_value` and the stores after it. -/
def rbtreeInsertValue : ℕ → RbtreeMem → ℕ → ℕ → Except Fault RbtreeMem
  | 0,_,_,_ => .error .noReturn
  | fuel+1,t,temp,node =>
    let less := decide (t.key node < t.key temp)
    let p := if less then t.left temp else t.right temp
    if p = some t.sentinel then
      let t := if less then t.setLeft temp (some node) else t.setRight temp (some node)
      let t := t.setParent node (some temp)
      let t := t.setLeft node (some t.sentinel)
      let t := t.setRight node (some t.sentinel)
      .ok (t.setColor node .red)
    else do rbtreeInsertValue fuel t (← deref p) node

/-- A red uncle: parent and uncle become black, the grandparent red. -/
def raiseRed (t : RbtreeMem) (parent uncle grandparent : ℕ) : RbtreeMem :=
  ((t.setColor parent .black).setColor uncle .black).setColor grandparent .red

/-- `ngx_rbt_black(node->parent)` and `ngx_rbt_red(node->parent->parent)`; the result contains
`node->parent->parent`. -/
def lowerRed (t : RbtreeMem) (node : ℕ) : Except Fault (RbtreeMem × ℕ) := do
  let parent ← deref (t.parent node)
  let t := t.setColor parent .black
  let grandparent ← deref (t.parent parent)
  return (t.setColor grandparent .red,grandparent)

/-- A black uncle on the right: the inner rotation, if `node` is a right child, and the outer one. -/
def insertRotateRight (t : RbtreeMem) (parent node : ℕ) : Except Fault (RbtreeMem × ℕ) := do
  if some node = t.right parent then
    let t ← leftRotate t parent
    let (t,grandparent) ← lowerRed t parent
    return (← rightRotate t grandparent,parent)
  else
    let (t,grandparent) ← lowerRed t node
    return (← rightRotate t grandparent,node)

/-- A black uncle on the left. -/
def insertRotateLeft (t : RbtreeMem) (parent node : ℕ) : Except Fault (RbtreeMem × ℕ) := do
  if some node = t.left parent then
    let t ← rightRotate t parent
    let (t,grandparent) ← lowerRed t parent
    return (← leftRotate t grandparent,parent)
  else
    let (t,grandparent) ← lowerRed t node
    return (← leftRotate t grandparent,node)

/-- The body of the loop that re-balances the tree after an insertion. -/
def insertRebalance (t : RbtreeMem) (node : ℕ) : Except Fault (RbtreeMem × ℕ) := do
  let parent ← deref (t.parent node)
  let grandparent ← deref (t.parent parent)
  if some parent = t.left grandparent then
    let uncle ← deref (t.right grandparent)
    if t.color uncle = .red then return (raiseRed t parent uncle grandparent,grandparent)
    else insertRotateRight t parent node
  else
    let uncle ← deref (t.left grandparent)
    if t.color uncle = .red then return (raiseRed t parent uncle grandparent,grandparent)
    else insertRotateLeft t parent node

/-- The loop that re-balances the tree after an insertion. -/
def insertFixup : ℕ → RbtreeMem → ℕ → Except Fault RbtreeMem
  | 0,_,_ => .error .noReturn
  | fuel+1,t,node =>
    if some node = t.root then .ok t
    else do
      let parent ← deref (t.parent node)
      if t.color parent = .black then return t
      else
        let (t,node) ← insertRebalance t node
        insertFixup fuel t node

/-- `ngx_rbtree_insert` with `ngx_rbtree_insert_value` as `tree->insert`. The fuel bounds the
iterations of each loop. -/
def rbtreeInsert (fuel : ℕ) (t : RbtreeMem) (node : ℕ) : Except Fault RbtreeMem :=
  if t.root = some t.sentinel then
    let t := t.setParent node none
    let t := t.setLeft node (some t.sentinel)
    let t := t.setRight node (some t.sentinel)
    let t := t.setColor node .black
    .ok (t.setRoot (some node))
  else do
    let t ← rbtreeInsertValue fuel t (← deref t.root) node
    let t ← insertFixup fuel t node
    return t.setColor (← deref t.root) .black

/-- The stores of `ngx_rbtree_transplant` above `u`. -/
def transplantAbove (t : RbtreeMem) (u v : ℕ) : Except Fault RbtreeMem :=
  if t.parent u = some t.sentinel then .ok (t.setRoot (some v))
  else do
    let p ← deref (t.parent u)
    if some u = t.left p then return t.setLeft p (some v)
    else return t.setRight p (some v)

/-- `ngx_rbtree_transplant`. -/
def rbtreeTransplant (t : RbtreeMem) (u v : ℕ) : Except Fault RbtreeMem := do
  let t ← transplantAbove t u v
  return t.setParent v (t.parent u)

/-- `ngx_rbtree_min`. -/
def rbtreeMin : ℕ → RbtreeMem → ℕ → Except Fault ℕ
  | 0,_,_ => .error .noReturn
  | fuel+1,t,node =>
    if t.left node = some t.sentinel then .ok node
    else do rbtreeMin fuel t (← deref (t.left node))

/-- Take the successor `y` of `node` out of its place; `x` is its right child. -/
def detachSuccessor (t : RbtreeMem) (node y x : ℕ) : Except Fault RbtreeMem :=
  if some y = t.right node then .ok (t.setParent x (some y))
  else do
    let t ← rbtreeTransplant t y x
    let t := t.setRight y (t.right node)
    return t.setParent (← deref (t.right node)) (some y)

/-- The first part of `ngx_rbtree_delete`, up to the DEBUG stores: the tree, the node `x` that
took the place of the removed one, and the color that was removed. -/
def deleteSplice (fuel : ℕ) (t : RbtreeMem) (node : ℕ) : Except Fault (RbtreeMem × ℕ × Color) := do
  if t.left node = some t.sentinel then
    let x ← deref (t.right node)
    return (← rbtreeTransplant t node x,x,t.color node)
  else if t.right node = some t.sentinel then
    let x ← deref (t.left node)
    return (← rbtreeTransplant t node x,x,t.color node)
  else
    let y ← rbtreeMin fuel t (← deref (t.right node))
    let originColor := t.color y
    let x ← deref (t.right y)
    let t ← detachSuccessor t node y x
    let t ← rbtreeTransplant t node y
    let t := t.setLeft y (t.left node)
    let t := t.setParent (← deref (t.left node)) (some y)
    return (t.setColor y (t.color node),x,originColor)

/-- `ngx_rbt_is_black(sibling->left) && ngx_rbt_is_black(sibling->right)`. -/
def bothBlack (t : RbtreeMem) (sibling : ℕ) : Except Fault Bool := do
  if t.color (← deref (t.left sibling)) = .black then
    return decide (t.color (← deref (t.right sibling)) = .black)
  else return false

/-- Case 1 on the left: a red sibling is rotated above the parent of `x`. -/
def redSiblingLeft (t : RbtreeMem) (x parent sibling : ℕ) : Except Fault (RbtreeMem × ℕ) := do
  if t.color sibling = .red then
    let t := (t.setColor sibling .black).setColor parent .red
    let t ← leftRotate t parent
    return (t,← deref (t.right (← deref (t.parent x))))
  else return (t,sibling)

/-- Case 1 on the right. -/
def redSiblingRight (t : RbtreeMem) (x parent sibling : ℕ) : Except Fault (RbtreeMem × ℕ) := do
  if t.color sibling = .red then
    let t := (t.setColor sibling .black).setColor parent .red
    let t ← rightRotate t parent
    return (t,← deref (t.left (← deref (t.parent x))))
  else return (t,sibling)

/-- Case 3 on the left: a red left child of the sibling is rotated above it. -/
def innerRedLeft (t : RbtreeMem) (x sibling : ℕ) : Except Fault (RbtreeMem × ℕ) := do
  if t.color (← deref (t.right sibling)) = .black then
    let t := t.setColor (← deref (t.left sibling)) .black
    let t := t.setColor sibling .red
    let t ← rightRotate t sibling
    return (t,← deref (t.right (← deref (t.parent x))))
  else return (t,sibling)

/-- Case 3 on the right. -/
def innerRedRight (t : RbtreeMem) (x sibling : ℕ) : Except Fault (RbtreeMem × ℕ) := do
  if t.color (← deref (t.left sibling)) = .black then
    let t := t.setColor (← deref (t.right sibling)) .black
    let t := t.setColor sibling .red
    let t ← leftRotate t sibling
    return (t,← deref (t.left (← deref (t.parent x))))
  else return (t,sibling)

/-- Case 4 on the left. -/
def outerRedLeft (t : RbtreeMem) (x sibling : ℕ) : Except Fault (RbtreeMem × ℕ) := do
  let parent ← deref (t.parent x)
  let t := (t.setColor sibling (t.color parent)).setColor parent .black
  let t := t.setColor (← deref (t.right sibling)) .black
  let t ← leftRotate t parent
  return (t,← deref t.root)

/-- Case 4 on the right. -/
def outerRedRight (t : RbtreeMem) (x sibling : ℕ) : Except Fault (RbtreeMem × ℕ) := do
  let parent ← deref (t.parent x)
  let t := (t.setColor sibling (t.color parent)).setColor parent .black
  let t := t.setColor (← deref (t.left sibling)) .black
  let t ← rightRotate t parent
  return (t,← deref t.root)

/-- Cases 2 to 4 on the left, with a black sibling. -/
def blackSiblingLeft (t : RbtreeMem) (x sibling : ℕ) : Except Fault (RbtreeMem × ℕ) := do
  if ← bothBlack t sibling then return (t.setColor sibling .red,← deref (t.parent x))
  else
    let (t,sibling) ← innerRedLeft t x sibling
    outerRedLeft t x sibling

/-- Cases 2 to 4 on the right. -/
def blackSiblingRight (t : RbtreeMem) (x sibling : ℕ) : Except Fault (RbtreeMem × ℕ) := do
  if ← bothBlack t sibling then return (t.setColor sibling .red,← deref (t.parent x))
  else
    let (t,sibling) ← innerRedRight t x sibling
    outerRedRight t x sibling

/-- The body of the loop of the delete fixup. -/
def deleteRebalance (t : RbtreeMem) (x : ℕ) : Except Fault (RbtreeMem × ℕ) := do
  let parent ← deref (t.parent x)
  if some x = t.left parent then
    let (t,sibling) ← redSiblingLeft t x parent (← deref (t.right parent))
    blackSiblingLeft t x sibling
  else
    let (t,sibling) ← redSiblingRight t x parent (← deref (t.left parent))
    blackSiblingRight t x sibling

/-- The loop of the delete fixup, and the store after it. -/
def deleteFixup : ℕ → RbtreeMem → ℕ → Except Fault RbtreeMem
  | 0,_,_ => .error .noReturn
  | fuel+1,t,x =>
    if some x ≠ t.root ∧ t.color x = .black then do
      let (t,x) ← deleteRebalance t x
      deleteFixup fuel t x
    else .ok (t.setColor x .black)

/-- `ngx_rbtree_delete`. -/
def rbtreeDelete (fuel : ℕ) (t : RbtreeMem) (node : ℕ) : Except Fault RbtreeMem := do
  let (t,x,originColor) ← deleteSplice fuel t node
  let t := (t.setLeft node none).setRight node none
  let t := (t.setParent node none).setKey node 0
  if originColor = .red then return t
  else deleteFixup fuel t x

end InsideNginx.Rbtree
