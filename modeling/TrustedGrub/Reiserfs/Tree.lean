import TrustedGrub.Reiserfs.Journal
import Mathlib.Logic.Function.Basic

/-!
# The S+tree of a ReiserFS file system

`read_tree_node`, `next_key` and `search_stat` of `fsys_reiserfs.c`. The nodes on the way to
the current item are kept in a cache of `cached_slots + 1` nodes: the root in slot 0, the
leaf in slot 1, and all levels for which there is no slot in the last one.
-/

namespace TrustedGrub.Reiserfs
open Fips180 (Byte Word)

/-! ## Nodes -/

/-- The half word from byte `i` on. -/
def halfOf (b : Block) (i : Nat) : BitVec 16 := b (i + 1) ++ b i

/-- `blk_level`. -/
def blkLevel (b : Block) : Nat := (halfOf b 0).toNat
/-- `blk_nr_item`. -/
def blkNrItem (b : Block) : Nat := (halfOf b 2).toNat

/-- `struct key`. -/
structure Key where
  dirId : Word
  objectid : Word
  offset : Word
  uniqueness : Word
  deriving DecidableEq

/-- The key from word `i` on. -/
def keyAt (b : Block) (i : Nat) : Key := ⟨wordOf b i, wordOf b (i + 1), wordOf b (i + 2), wordOf b (i + 3)⟩

/-- `KEY (cache)[i]`. -/
def nodeKey (b : Block) (i : Nat) : Key := keyAt b (6 + 4 * i)
/-- `DC (cache)[i].dc_block_number`. -/
def dcBlockNumber (b : Block) (i : Nat) : Word := wordOf b (6 + 4 * blkNrItem b + 2 * i)

/-- `BLKH_SIZE`, where the items begin. -/
def blkhSize : Nat := 24
/-- `IH_SIZE`. -/
def ihSize : Nat := 24
/-- Where `blk_right_delim_key` is. -/
def blkRightDelimKey : Nat := 8

/-- `ih_key` of the item head from byte `ih` on. -/
def ihKey (leaf : Block) (ih : Nat) : Key := keyAt leaf (ih / 4)
/-- `ih_item_len`. -/
def ihItemLen (leaf : Block) (ih : Nat) : Nat := (halfOf leaf (ih + 18)).toNat
/-- `ih_item_location`. -/
def ihItemLocation (leaf : Block) (ih : Nat) : Nat := (halfOf leaf (ih + 20)).toNat

/-! ## The state -/

/-- `MAX_HEIGHT`. -/
def maxHeight : Nat := 7
/-- `FSYSREISER_CACHE_SIZE`. -/
def fsysreiserCacheSize : Nat := 24 * 1024
/-- `DISK_LEAF_NODE_LEVEL`. -/
def diskLeafNodeLevel : Nat := 1

/-- A file system that `reiserfs_mount` takes, and the height of its tree. -/
structure Volume (σ : Type) where
  disk : Image σ
  fullblocksizeShift : Nat
  supported : 9 ≤ fullblocksizeShift ∧ fullblocksizeShift ≤ 13
  treeDepth : Nat
  treeDepth_lt : 0 < treeDepth ∧ treeDepth < maxHeight

/-- `cached_slots`. -/
def Volume.cachedSlots {σ : Type} (v : Volume σ) : Nat := (fsysreiserCacheSize >>> v.fullblocksizeShift) - 1

/-- The rest of `INFO`, and the node cache. `current_ih` and `current_item` are places in the
leaf. -/
structure Info (σ : Type) where
  journal : State σ
  cache : Nat → Block
  blocks : Nat → Word
  nextKeyNr : Nat → Nat
  currentIh : Nat
  currentItem : Nat

variable {σ : Type}

/-- The leaf. -/
def Info.leaf (s : Info σ) : Block := s.cache diskLeafNodeLevel

/-! ## The way down -/

/-- `read_tree_node`: the slot with the node, if there is one. -/
def readTreeNode (v : Volume σ) (stack : Block) (blockNr : Word) (depth : Nat) (s : Info σ) : Option Nat × Info σ :=
  if depth < v.cachedSlots ∧ blockNr = s.blocks depth then (some depth, s)
  else
    let slot := min depth v.cachedSlots
    let (ok, block, journal) := readBlock v.disk stack s.journal blockNr (s.cache slot)
    let s := { s with journal := journal, cache := Function.update s.cache slot block }
    if !ok then (none, s)
    else if blkLevel block ≠ depth then (none, { s with journal.errnum := .fsysCorrupt })
    else (some slot, { s with blocks := Function.update s.blocks depth blockNr })

/-- The loops of `search_stat` and of `next_key` from a node on, which is in `slot`, down to
the leaf: from a node on level `depth` to its child number `childNr node next_key_nr[depth]`. -/
def goDown (v : Volume σ) (stack : Block) (childNr : Block → Nat → Nat) : Nat → Nat → Info σ → Bool × Info σ
  | 0, _, s => (true, s)
  | n + 1, slot, s =>
    let node := s.cache slot
    let i := childNr node (s.nextKeyNr (n + 2))
    let s := { s with nextKeyNr := Function.update s.nextKeyNr (n + 2) (if i = blkNrItem node then 0 else i + 1) }
    match readTreeNode v stack (dcBlockNumber node i) (n + 1) s with
    | (none, s) => (false, s)
    | (some slot, s) => goDown v stack childNr n slot s

/-! ## `search_stat` -/

/-- The key is behind the one of the stat item. -/
def Key.behind (key : Key) (dirId objectid : Word) : Prop :=
  dirId < key.dirId ∨ (key.dirId = dirId ∧ (objectid < key.objectid ∨ (key.objectid = objectid ∧ 0 < key.offset ||| key.uniqueness)))

instance (key : Key) (dirId objectid : Word) : Decidable (key.behind dirId objectid) := inferInstanceAs (Decidable (_ ∨ _))

/-- The number of the first key behind the one of the stat item. -/
def statChild (dirId objectid : Word) (node : Block) : Nat :=
  (List.range (blkNrItem node)).findIdx fun i => (nodeKey node i).behind dirId objectid

/-- `search_stat`. -/
def searchStat (v : Volume σ) (stack : Block) (dirId objectid : Word) (s : Info σ) : Bool × Info σ :=
  match goDown v stack (fun node _ => statChild dirId objectid node) (v.treeDepth - 1) 0 s with
  | (false, s) => (false, s)
  | (true, s) =>
    match (List.range (blkNrItem s.leaf)).find? fun i => ihKey s.leaf (blkhSize + ihSize * i) = ⟨dirId, objectid, 0, 0⟩ with
    | some i =>
      (true, { s with currentIh := blkhSize + ihSize * i, currentItem := ihItemLocation s.leaf (blkhSize + ihSize * i) })
    | none => (false, { s with journal.errnum := .fsysCorrupt })

/-! ## `next_key` -/

/-- `found`: the item with the head at `ih` is the current one. -/
def Info.found (s : Info σ) (ih : Nat) : Info σ := { s with currentIh := ih, currentItem := ihItemLocation s.leaf ih }

/-- The slot of the node on the way to the leaf. -/
def nodeOnPath (v : Volume σ) (stack : Block) (depth : Nat) (s : Info σ) : Option Nat × Info σ :=
  if depth = v.treeDepth then (some 0, s)
  else if depth ≤ v.cachedSlots then (some depth, s)
  else readTreeNode v stack (s.blocks depth) depth s

/-- `next_key`. -/
def nextKey (v : Volume σ) (stack : Block) (s : Info σ) : Bool × Info σ :=
  let ih := s.currentIh + ihSize
  if ih = blkhSize + ihSize * blkNrItem s.leaf then
    match (List.range (v.treeDepth - 1)).find? fun n => s.nextKeyNr (n + 2) ≠ 0 with
    | none => (true, s.found blkRightDelimKey)
    | some n =>
      match nodeOnPath v stack (n + 2) s with
      | (none, s) => (false, s)
      | (some slot, s) =>
        match goDown v stack (fun _ keyNr => keyNr) (n + 1) slot s with
        | (false, s) => (false, s)
        | (true, s) => (true, s.found blkhSize)
  else (true, s.found ih)

end TrustedGrub.Reiserfs
