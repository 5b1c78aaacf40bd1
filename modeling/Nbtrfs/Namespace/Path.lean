import Nbtrfs.BTree.Model

/-!
# Paths

The path functions of `string.c` and the search of `hash.c`. A path is looked up component by
component in the B-trees of the directories on its way. There is no result where the code goes on
with a superblock or a root node that a failed read left uninitialised, or hashes the component
that a path does not have.
-/

namespace Nbtrfs

/-- The byte of `/`. -/
def slash : UInt8 := 47

/-- `count_l`. -/
def countL (path : CString) : Nat := if path.length = 1 then 0 else path.count slash

/-- `parent_path`. -/
def parentPath (path : CString) (l : Nat) : CString :=
  if l ≤ 1 then [slash]
  else
    let start := (path.reverse.dropWhile (· ≠ slash)).reverse
    if start.length ≤ 1 then [slash] else start.dropLast

/-- `get_name`. -/
def getName (path : CString) : CString := (path.reverse.takeWhile (· ≠ slash)).reverse

/-- The components of a path, with the beginning of the first one. -/
def segmentsFrom (segment : CString) : CString → List CString
  | [] => if segment = [] then [] else [segment]
  | char :: path =>
    if char = slash then
      if segment = [] then segmentsFrom [] path else segment :: segmentsFrom [] path
    else segmentsFrom (segment ++ [char]) path

/-- `split`: a component by its number from 1 on. -/
def split (path : CString) (n : Nat) : Option CString :=
  if n = 0 then none else (segmentsFrom [] path)[n - 1]?

/-- `path_hash`: FNV-1a. -/
def pathHash (path : CString) : Nat :=
  path.foldl (fun hash char => (hash ^^^ char.toNat) * 0x100000001b3 % 2 ^ 64) 0xcbf29ce484222325

/-- `InodeBtreePair`. -/
structure InodeBtreePair where
  /-- The inode of the path, 0 if there is none. -/
  inodeNumber : Nat
  /-- The root node of a directory, 0 for a file. -/
  btreeBlock : Nat
deriving DecidableEq

/-- The pair of a path that is not found. -/
def noPair : InodeBtreePair := ⟨0, 0⟩

/-- The content of `curr_path` with another component, cut off at its end. -/
def extendPath (currPath token : CString) : CString :=
  (currPath ++ slash :: token).take (pathMax - 1)

/-- The node that a component leads to, as the local `node` holds it: the leaf, or the root node
of a directory; `none` if a directory has no root node. -/
def enterNode (s : Store) (nodeBlock : Nat) (node : BTreeNode) : Option (Option BTreeNode) := do
  let node ← btreeNodeReload s nodeBlock node
  if node.type = fileTypeDirectory then btreeNodeRead s node.value else some (some node)

/-- The loop of `item_search` from a component on, with the number of components left. -/
def itemSearchFrom (s : Store) (path : CString) :
    Nat → Nat → BTreeNode → CString → Option InodeBtreePair
  | 0, _, _, _ => some noPair
  | left + 1, i, node, currPath => do
    let token ← split path i
    let nodeBlock ← btreeSearch s node.blockNumber (pathHash token)
    if nodeBlock = 0 then some noPair
    else
      let currPath := extendPath currPath token
      match ← enterNode s nodeBlock node with
      | none => some noPair
      | some node =>
        if path = currPath then
          some ⟨node.value, if node.type = fileTypeDirectory then node.blockNumber else 0⟩
        else itemSearchFrom s path left (i + 1) node currPath

/-- `item_search`. -/
def itemSearch (s : Store) (path : CString) : Option InodeBtreePair := do
  let superblock ← superblockRead s
  let node ← btreeNodeLoad s superblock.btreeRoot
  if path = [slash] then some ⟨node.value, node.blockNumber⟩
  else itemSearchFrom s path (countL path) 1 node []

end Nbtrfs
