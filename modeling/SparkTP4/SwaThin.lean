import SparkTP4.DoublyLinked
import Mathlib.Algebra.GroupWithZero.Nat

/-!
# Thinning the SWA checkpoints

The hook of `adapter/swa_thin.py`. When the prefill of a request inserts past the node that it
stood on, the checkpoint of that node is superseded: it is moved to the evict-first end of the
SWA LRU list (`demoteSuperseded`), with the ancestors that hold the rest of its window.

The nodes are those of the radix tree of the engine. The two pointer operations of its list are
parameters, and a call that raises is `none`. The hook changes pointers only, but it returns
the whole cache.
-/

namespace SwaThin

variable {Node : Type} [DecidableEq Node]

/-- A handle of a node: `_node` reads it. -/
inductive Handle (Node : Type) where
  | none
  | id (id : ℤ)
  | node (node : Node)

/-- The radix tree, with the SWA component data of its nodes. The root has no parent, and
parents are nearer to it. -/
structure TreeCore (Node : Type) where
  root : Node
  parent : Node → Option Node
  /-- `len(x.children)` -/
  children : Node → ℕ
  /-- `len(x.key)` -/
  keyLen : Node → ℕ
  /-- `cd.value is not None` -/
  value : Node → Bool
  lockRef : Node → ℤ
  nodeById : ℤ → Option Node
  pageSize : ℕ
  enableSessionRadixCache : Bool
  enableHicache : Bool
  depth : Node → ℕ
  root_parent : parent root = none
  parent_lt : ∀ x y, parent x = some y → depth y < depth x

/-- The LRU list: its pointers between the sentinels, and its nodes. -/
structure Lru (Node : Type) where
  links : Links Node
  head : Node
  tail : Node
  inList : Node → Bool
  /-- a partitioned list has a middle sentinel -/
  mid : Bool

/-- What the hook reads of the cache: the sliding window of its SWA component, and the list. -/
structure Cache (Node : Type) where
  treeCore : TreeCore Node
  isMambaEnabled : Bool
  swa : Option ℕ
  lru : Option (Lru Node)

/-- The pointer operations of the list: `_remove_node` and `_add_node_after`. -/
structure Ops (Node : Type) where
  removeNode : Links Node → Node → Option (Links Node)
  addNodeAfter : Links Node → Node → Node → Option (Links Node)

/-- `_node` -/
def nodeOf (tree : TreeCore Node) : Handle Node → Option Node
  | .none => none
  | .id i => tree.nodeById i
  | .node n => some n

/-- `_move_to_lru_end` -/
def moveToLruEnd (ops : Ops Node) (tail node : Node) (links : Links Node) : Option (Links Node) := do
  let links ← ops.removeNode links node
  let last ← links.prev tail
  ops.addNodeAfter links last node

/-- `cur = new.parent` and the loop over `cur`: it ends at no node, at the root or at `old`.
The depth of a node bounds the number of its ancestors. -/
def climb (tree : TreeCore Node) (old : Node) : ℕ → Option Node → Option Node
  | 0, cur => cur
  | _ + 1, none => none
  | fuel + 1, some cur =>
    if cur = tree.root ∨ cur = old then some cur else climb tree old fuel (tree.parent cur)

/-- What the hook moves: a checkpoint that is unlocked, listed and no branch point. -/
def movable (tree : TreeCore Node) (lru : Lru Node) (x : Node) : Bool :=
  tree.value x && tree.lockRef x = 0 && lru.inList x && tree.children x = 1

/-- The loop of `demote_superseded` from `x` on: the pointers, and the number of moved nodes. -/
def demoteLoop (ops : Ops Node) (tree : TreeCore Node) (lru : Lru Node) (span : ℕ) :
    ℕ → Option Node → ℕ → ℕ → Links Node → Option (Links Node × ℕ)
  | 0, _, _, moved, links => some (links, moved)
  | _ + 1, none, _, moved, links => some (links, moved)
  | fuel + 1, some x, covered, moved, links =>
    if x ≠ tree.root ∧ covered < span then
      if movable tree lru x then do
        let links ← moveToLruEnd ops lru.tail x links
        demoteLoop ops tree lru span fuel (tree.parent x) (covered + tree.keyLen x) (moved + 1) links
      else
        demoteLoop ops tree lru span fuel (tree.parent x) (covered + tree.keyLen x) moved links
    else some (links, moved)

/-- `demote_superseded` -/
def demoteSuperseded (ops : Ops Node) (cache : Cache Node) (oldHandle newHandle : Handle Node) :
    Option (Cache Node × ℕ) :=
  let tree := cache.treeCore
  if tree.enableSessionRadixCache || tree.enableHicache then some (cache, 0)
  else if cache.isMambaEnabled then some (cache, 0)
  else match cache.swa, cache.lru with
    | some window, some lru =>
      if lru.mid then some (cache, 0)
      else match nodeOf tree oldHandle, nodeOf tree newHandle with
        | some old, some new =>
          if old = new ∨ old = tree.root then some (cache, 0)
          else if climb tree old (tree.depth new) (tree.parent new) ≠ some old then some (cache, 0)
          else do
            let (links, moved) ← demoteLoop ops tree lru (window + tree.pageSize)
              (tree.depth old + 1) (some old) 0 0 lru.links
            some ({ cache with lru := some { lru with links := links } }, moved)
        | _, _ => some (cache, 0)
    | _, _ => some (cache, 0)

/-! ## The hook -/

/-- `STATS`, without its counters. -/
structure Stats where
  active : Bool
  promptEnd : Bool

/-- A request: its last node, and whether it had an insert before. -/
structure Req (Node : Type) where
  lastNode : Handle Node
  seen : Bool

/-- The state that the wrapped `cache_unfinished_req` works on. -/
structure State (Node : Type) where
  stats : Stats
  cache : Cache Node
  req : Req Node

/-- The node that the request stands on, where the hook looks at it. -/
def oldNode (S : State Node) (chunked : Bool) : Option (Handle Node) :=
  if S.stats.active then
    if chunked then some S.req.lastNode
    else if S.stats.promptEnd && !S.req.seen then some S.req.lastNode
    else none
  else none

/-- The wrapped `cache_unfinished_req`, around any insert of the engine. An error disables the
hook; it does not occur on a list whose pointers are consistent. -/
def cacheUnfinishedReq (ops : Ops Node) (original : Bool → State Node → State Node)
    (S : State Node) (chunked : Bool) : State Node :=
  let old := oldNode S chunked
  let S := original chunked S
  let S := if S.stats.active then { S with req := { S.req with seen := true } } else S
  match old with
  | some (.none) | none => S
  | some old =>
    if S.stats.active then
      match demoteSuperseded ops S.cache old S.req.lastNode with
      | some (cache, _) => { S with cache := cache }
      | none => { S with stats := { S.stats with active := false } }
    else S

end SwaThin
