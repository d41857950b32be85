import TrustedGrub.Lib.Descent
import TrustedGrub.Reiserfs.Replay
import TrustedGrub.Reiserfs.Tree

/-!
# Going through the items of an S+tree

`search_stat` comes to an item, and `next_key` goes on from it to the next one, whatever
levels are cached. A read that fails must leave the buffer alone, and `next_key` can not be
tried again after it.
-/

namespace TrustedGrub.Reiserfs
open Fips180 (Byte Word)
open Disk (GrubError)
open Memory (slice)
open Descent (Nodes Route)

variable {σ : Type}

/-! ## Trees -/

/-- An item, with its key. -/
structure Item where
  key : Key
  head : List Byte
  body : List Byte
  deriving DecidableEq

/-- The item with the head at `ih`. -/
def itemAt (leaf : Block) (ih : Nat) : Item :=
  ⟨ihKey leaf ih, slice leaf ih ihSize, slice leaf (ihItemLocation leaf ih) (ihItemLen leaf ih)⟩

/-- The nodes of a file system. -/
def nodes (view : Word → Block) : Nodes Word Item where
  last b := blkNrItem (view b)
  child b i := dcBlockNumber (view b) i
  items b := (List.range (blkNrItem (view b))).map fun i => itemAt (view b) (blkhSize + ihSize * i)

/-- The key has the form of version 2, with the type in the last four bits. -/
def Key.isV2 (key : Key) : Prop := 1 ≤ key.uniqueness.toNat / 2 ^ 28 ∧ key.uniqueness.toNat / 2 ^ 28 ≤ 3

instance (key : Key) : Decidable key.isV2 := inferInstanceAs (Decidable (_ ∧ _))

/-- Where the item begins in its object. -/
def Key.start (key : Key) : Nat :=
  if key.isV2 then key.uniqueness.toNat % 2 ^ 28 * 2 ^ 32 + key.offset.toNat else key.offset.toNat

/-- The type of the item. -/
def Key.type (key : Key) : Nat :=
  if key.isV2 then key.uniqueness.toNat / 2 ^ 28
  else if key.uniqueness = 0 then 0
  else if key.uniqueness = 0xfffffffe then 1
  else if key.uniqueness = 0xffffffff then 2
  else if key.uniqueness = 500 then 3
  else 15

/-- The order of the keys: directory, object, place in the object, type. -/
def Key.Before (key key' : Key) : Prop :=
  key.dirId < key'.dirId ∨ (key.dirId = key'.dirId ∧ (key.objectid < key'.objectid ∨ (key.objectid = key'.objectid ∧
    (key.start < key'.start ∨ (key.start = key'.start ∧ key.type < key'.type)))))

instance (key key' : Key) : Decidable (key.Before key') := inferInstanceAs (Decidable (_ ∨ _))

/-- The key of a stat item. -/
def statKey (dirId objectid : Word) : Key := ⟨dirId, objectid, 0, 0⟩

/-- A well-formed node on a level, and all nodes below it. The keys of an inner node part the
items below its children. -/
def WellFormed (view : Word → Block) (blocksize : Nat) : Nat → Word → Prop
  | 0, b =>
    blkLevel (view b) = 1 ∧ 0 < blkNrItem (view b) ∧ blkhSize + ihSize * blkNrItem (view b) ≤ blocksize ∧
      ∀ i < blkNrItem (view b), ihItemLocation (view b) (blkhSize + ihSize * i) + ihItemLen (view b) (blkhSize + ihSize * i) ≤ blocksize
  | n + 1, b =>
    blkLevel (view b) = n + 2 ∧ blkhSize + 16 * blkNrItem (view b) + 8 * (blkNrItem (view b) + 1) ≤ blocksize ∧
      (∀ i ≤ blkNrItem (view b), dcBlockNumber (view b) i ≠ 0 ∧ WellFormed view blocksize n (dcBlockNumber (view b) i)) ∧
      ∀ i j, i ≤ blkNrItem (view b) → j < blkNrItem (view b) → ∀ item ∈ (nodes view).below n (dcBlockNumber (view b) i),
        (item.key.Before (nodeKey (view b) j) ↔ i ≤ j)

/-- A well-formed S+tree. -/
structure Tree (v : Volume σ) (view : Word → Block) (root : Word) : Prop where
  wellFormed : WellFormed view (2 ^ v.fullblocksizeShift) (v.treeDepth - 1) root
  sorted : ((nodes view).below (v.treeDepth - 1) root).Pairwise fun item item' => item.key.Before item'.key

/-- The items of the tree, in the order of their keys. -/
def Volume.items (v : Volume σ) (view : Word → Block) (root : Word) : List Item := (nodes view).below (v.treeDepth - 1) root

/-! ## Keys -/

theorem Key.Before.irrefl (key : Key) : ¬ key.Before key := by
  simp only [Before, BitVec.lt_irrefl, Nat.lt_irrefl, and_false, or_self, not_false_eq_true]

theorem statKey_start (dirId objectid : Word) : (statKey dirId objectid).start = 0 := by
  simp [statKey, Key.start, Key.isV2]

theorem statKey_type (dirId objectid : Word) : (statKey dirId objectid).type = 0 := by
  simp [statKey, Key.type, Key.isV2]

/-- Only a stat item has the first place in its object. -/
theorem Key.behind_stat (key : Key) : 0 < key.offset ||| key.uniqueness ↔ 0 < key.start ∨ (0 = key.start ∧ 0 < key.type) := by
  have hpos : ∀ w : Word, 0 < w ↔ w ≠ 0 := fun w => by bv_omega
  have hzero : key.offset ||| key.uniqueness = 0 ↔ key.offset = 0 ∧ key.uniqueness = 0 := BitVec.or_eq_zero_iff
  rw [hpos, ne_eq, hzero, start, type]
  by_cases hv2 : key.isV2
  · have hne : key.uniqueness ≠ 0 := by
      intro h
      have hhigh := hv2.1
      rw [h] at hhigh
      exact absurd hhigh (by decide)
    have hhigh := hv2.1
    simp only [hv2, if_true, hne, and_false, not_false_eq_true, true_iff]
    omega
  · simp only [hv2, if_false]
    by_cases hzero : key.uniqueness = 0
    · simp only [hzero, and_true, if_true, Nat.lt_irrefl, and_false, or_false]
      rw [← ne_eq, ← hpos]
      exact BitVec.lt_def
    · have htype :
          0 < (if key.uniqueness = 0xfffffffe then 1 else if key.uniqueness = 0xffffffff then 2 else if key.uniqueness = 500 then 3 else
            15) := by
        split <;> [decide; split <;> [decide; split <;> decide]]
      simp only [hzero, and_false, not_false_eq_true, if_false, htype, and_true, true_iff]
      omega

/-- A key behind the one of the stat item is behind it in the order of the keys. -/
theorem behind_iff (key : Key) (dirId objectid : Word) : key.behind dirId objectid ↔ (statKey dirId objectid).Before key := by
  rw [Key.behind, Key.Before, statKey_start, statKey_type, Key.behind_stat]
  simp only [statKey, eq_comm]

/-! ## The node cache -/

/-- `block_read` reads these blocks, or it fails. -/
def Views (d : Image σ) (view : Word → Block) (s : State σ) : Prop :=
  ∀ s', SameJournal s s' → ∀ stack b buffer, Read d s' (view b) buffer (readBlock d stack s' b buffer)

/-- A read that fails leaves the buffer alone. -/
def Gentle (d : Image σ) : Prop := ∀ st b buffer left, (d.devread st b buffer).1 = some left → left = buffer

/-- What is in the slots is what `blocks` says. -/
structure Coherent (v : Volume σ) (view : Word → Block) (root : Word) (s : Info σ) : Prop where
  views : Views v.disk view s.journal
  rootSlot : s.cache 0 = view root
  leaf : v.treeDepth = 1 → s.leaf = view root
  cached (depth : Nat) : 0 < depth → depth < v.cachedSlots → depth < v.treeDepth → s.blocks depth ≠ 0 →
    s.cache depth = view (s.blocks depth)

/-- Nothing has been read but into slots. -/
structure SamePlace (s s' : Info σ) : Prop where
  journal : SameJournal s.journal s'.journal
  currentIh : s'.currentIh = s.currentIh
  currentItem : s'.currentItem = s.currentItem

section Cache
variable {v : Volume σ} {view : Word → Block} {root : Word} {s s' : Info σ} {stack : Block} {c b : Word} {depth n slot : Nat}

theorem SamePlace.refl (s : Info σ) : SamePlace s s := ⟨.refl _, rfl, rfl⟩

theorem SamePlace.trans {s'' : Info σ} (h : SamePlace s s') (h' : SamePlace s' s'') : SamePlace s s'' :=
  ⟨h.journal.trans h'.journal, h'.currentIh.trans h.currentIh, h'.currentItem.trans h.currentItem⟩

theorem Views.same {d : Image σ} {j j' : State σ} (h : Views d view j) (same : SameJournal j j') : Views d view j' :=
  fun s' same' => h s' (same.trans same')

/-- There are slots for the root, the leaf and one more node. -/
theorem two_le_cachedSlots (v : Volume σ) : 2 ≤ v.cachedSlots := by
  obtain ⟨-, hhi⟩ := v.supported
  have hshift : 3 ≤ fsysreiserCacheSize >>> v.fullblocksizeShift := by
    rw [Nat.shiftRight_eq_div_pow, Nat.le_div_iff_mul_le (Nat.two_pow_pos _)]
    exact Nat.le_trans (Nat.mul_le_mul_left 3 (Nat.pow_le_pow_right (by decide) hhi)) (by decide)
  exact Nat.le_sub_of_add_le hshift

/-- What `read_tree_node` comes to. -/
inductive ReadNode (v : Volume σ) (view : Word → Block) (c : Word) (depth : Nat) (s : Info σ) : Option Nat × Info σ → Prop where
  | got {s' : Info σ} (same : SamePlace s s') (nextKeyNr : s'.nextKeyNr = s.nextKeyNr)
      (cache : s'.cache = Function.update s.cache (min depth v.cachedSlots) (view c))
        (blocks : s'.blocks = Function.update s.blocks depth c) :
      ReadNode v view c depth s (some (min depth v.cachedSlots), s')
  | failed {s' : Info σ} (same : SamePlace s s') (cache : s'.cache = s.cache) (blocks : s'.blocks = s.blocks) (faulty : Faulty v.disk) :
      ReadNode v view c depth s (none, s')

variable (stack) in
theorem readTreeNode_node (hcoh : Coherent v view root s) (hgentle : Gentle v.disk) (hpos : 0 < depth) (hlt : depth < v.treeDepth)
    (hc : c ≠ 0)
    (hlevel : blkLevel (view c) = depth) : ReadNode v view c depth s (readTreeNode v stack c depth s) := by
  unfold readTreeNode
  split
  next hhit =>
    obtain ⟨hslot, hblock⟩ := hhit
    have hcache := hcoh.cached depth hpos hslot hlt (hblock ▸ hc)
    have hmin : min depth v.cachedSlots = depth := Nat.min_eq_left (Nat.le_of_lt hslot)
    rw [← hblock] at hcache
    have hgot : ReadNode v view c depth s (some (min depth v.cachedSlots), s) := .got (.refl s) rfl
      (by rw [hmin, ← hcache, Function.update_eq_self]) (by rw [hblock, Function.update_eq_self])
    rw [hmin] at hgot
    exact hgot
  next =>
    dsimp only
    have hread := hcoh.views s.journal (.refl _) stack c (s.cache (min depth v.cachedSlots))
    generalize readBlock v.disk stack s.journal c (s.cache (min depth v.cachedSlots)) = read at hread
    cases hread with
    | delivered same errnum =>
      simp only [Bool.not_true, Bool.false_eq_true, if_false, hlevel, ne_eq, not_true_eq_false]
      exact ReadNode.got (s := s) ⟨same, rfl, rfl⟩ rfl rfl rfl
    | @failed left journal same errnum faulty leaves =>
      obtain rfl : left = s.cache (min depth v.cachedSlots) := leaves.elim id fun ⟨st, b, h⟩ => hgentle st b _ _ h
      simp only [Function.update_eq_self, Bool.not_false, if_true]
      exact ReadNode.failed (s := s) ⟨same, rfl, rfl⟩ rfl rfl faulty

theorem ReadNode.coherent {r : Option Nat × Info σ} (h : ReadNode v view c depth s r) (hcoh : Coherent v view root s) (hpos : 0 < depth)
    (hlt : depth < v.treeDepth) : Coherent v view root r.2 := by
  have htwo := two_le_cachedSlots v
  cases h with
  | @got s' same nextKeyNr cache blocks =>
    refine ⟨hcoh.views.same same.journal, ?_, fun h => absurd hlt (by omega), ?_⟩
    · show s'.cache 0 = _
      rw [cache, Function.update_of_ne (by omega)]
      exact hcoh.rootSlot
    · intro k hk hslot hkt hne
      show s'.cache k = view (s'.blocks k)
      change s'.blocks k ≠ 0 at hne
      rw [cache]
      rw [blocks] at hne ⊢
      obtain rfl | hother := eq_or_ne k depth
      · rw [Nat.min_eq_left (Nat.le_of_lt hslot), Function.update_self, Function.update_self]
      · rw [Function.update_of_ne hother] at hne ⊢
        rw [Function.update_of_ne (by omega)]
        exact hcoh.cached k hk hslot hkt hne
  | @failed s' same cache blocks =>
    refine ⟨hcoh.views.same same.journal, by rw [cache]; exact hcoh.rootSlot, fun h => ?_, ?_⟩
    · rw [Info.leaf, cache]
      exact hcoh.leaf h
    · intro k hk hslot hkt hne
      rw [cache, blocks]
      rw [blocks] at hne
      exact hcoh.cached k hk hslot hkt hne

/-- What the way down along a route leaves. -/
structure Descended (v : Volume σ) (view : Word → Block) (root : Word) (index : Nat → Word → Nat) (node : Nat → Word) (n : Nat)
    (s s' : Info σ) :
    Prop where
  same : SamePlace s s'
  coherent : Coherent v view root s'
  blocks (j : Nat) : j < n → s'.blocks (j + 1) = node j
  blocksAbove (j : Nat) : n < j → s'.blocks j = s.blocks j
  nextKeyNr (j : Nat) : j < n → s'.nextKeyNr (j + 2) =
    if index (j + 1) (node (j + 1)) = (nodes view).last (node (j + 1)) then 0 else index (j + 1) (node (j + 1)) + 1
  nextKeyNrAbove (j : Nat) : n + 1 < j → s'.nextKeyNr j = s.nextKeyNr j
  leaf : 0 < n → s'.leaf = view (node 0)
  shared : v.cachedSlots ≤ n → s'.cache v.cachedSlots = view (s'.blocks v.cachedSlots)
  sharedAbove : n < v.cachedSlots → s'.cache v.cachedSlots = s.cache v.cachedSlots

theorem Coherent.nextKeyNr (h : Coherent v view root s) (nextKeyNr : Nat → Nat) : Coherent v view root { s with nextKeyNr := nextKeyNr } :=
  ⟨h.views, h.rootSlot, h.leaf, h.cached⟩

theorem WellFormed.level {blocksize : Nat} (h : WellFormed view blocksize n b) : blkLevel (view b) = n + 1 := by
  cases n with
  | zero => exact h.1
  | succ n => exact h.1

/-- **The way down** follows the route with these children, or a read fails. -/
theorem goDown_descends {blocksize : Nat} (hgentle : Gentle v.disk) (stack : Block) (childNr : Block → Nat → Nat)
    (hcoh : Coherent v view root s)
    (hn : n < v.treeDepth) (hslot : s.cache slot = view b) (hwf : WellFormed view blocksize n b)
    (hle : 0 < n → childNr (view b) (s.nextKeyNr (n + 1)) ≤ blkNrItem (view b))
    (hlower : ∀ j, 0 < j → j < n → ∀ node, childNr node (s.nextKeyNr (j + 1)) ≤ blkNrItem node) :
    (∃ s' node before after, goDown v stack childNr n slot s = (true, s') ∧
      Route (nodes view) (fun j b => childNr (view b) (s.nextKeyNr (j + 1))) node n b before after ∧
      Descended v view root (fun j b => childNr (view b) (s.nextKeyNr (j + 1))) node n s s') ∨
    ∃ s', goDown v stack childNr n slot s = (false, s') ∧ SamePlace s s' ∧ Coherent v view root s' ∧ Faulty v.disk := by
  have htwo := two_le_cachedSlots v
  induction n generalizing s slot b with
  | zero =>
    refine .inl ⟨s, fun _ => b, [], [], rfl, .leaf rfl, .refl s, hcoh, ?_, fun _ _ => rfl, ?_, fun _ _ => rfl, ?_, ?_, fun _ => rfl⟩
    · exact fun j hj => absurd hj (Nat.not_lt_zero j)
    · exact fun j hj => absurd hj (Nat.not_lt_zero j)
    · exact fun h => absurd h (Nat.lt_irrefl 0)
    · exact fun h => absurd h (by omega)
  | succ n ih =>
    obtain ⟨hlevel, -, hchildren, hparted⟩ := hwf
    have hi := hle (Nat.succ_pos n)
    generalize hchild : childNr (view b) (s.nextKeyNr (n + 2)) = i at hi
    obtain ⟨hne, hwf'⟩ := hchildren i hi
    simp only [goDown, hslot, hchild]
    have hcoh' := hcoh.nextKeyNr (Function.update s.nextKeyNr (n + 2) (if i = blkNrItem (view b) then 0 else i + 1))
    have hread := readTreeNode_node stack hcoh' hgentle (Nat.succ_pos n) hn hne hwf'.level
    have hcoh₁ := hread.coherent hcoh' (Nat.succ_pos n) hn
    generalize readTreeNode v stack _ (n + 1) _ = read at hread hcoh₁
    cases hread with
    | @failed s₁ same cache blocks faulty => exact .inr ⟨s₁, rfl, ⟨same.1, same.2, same.3⟩, hcoh₁, faulty⟩
    | @got s₁ same nextKeyNr cache blocks =>
      have hsame : SamePlace s s₁ := ⟨same.1, same.2, same.3⟩
      have hkept : ∀ j, j < n + 2 → s₁.nextKeyNr j = s.nextKeyNr j := by
        intro j hj
        rw [nextKeyNr]
        exact Function.update_of_ne (Nat.ne_of_lt hj) _ _
      have hslot' : s₁.cache (min (n + 1) v.cachedSlots) = view (dcBlockNumber (view b) i) := by rw [cache, Function.update_self]
      obtain ⟨s', node, before, after, hdown, hroute, hdesc⟩ | ⟨s', hdown, hsame', hcoh', hfaulty⟩ :=
        ih hcoh₁ (Nat.lt_of_succ_lt hn) hslot' hwf'
        (fun h => by rw [hkept _ (by omega)]; exact hlower n h (Nat.lt_succ_self n) _)
        fun j hj hjn node => by rw [hkept _ (by omega)]; exact hlower j hj (Nat.lt_succ_of_lt hjn) node
      · have hbelow : ∀ j ≤ n, Function.update node (n + 1) b j = node j := fun j hj => Function.update_of_ne (by omega) _ _
        have hindex : ∀ j < n, ∀ c, childNr (view c) (s.nextKeyNr (j + 1 + 1)) = childNr (view c) (s₁.nextKeyNr (j + 1 + 1)) := by
          intro j hj c
          rw [hkept _ (by omega)]
        obtain ⟨right, hright⟩ := (nodes view).below_split n (show i ≤ (nodes view).last b from hi)
        have hrest := hroute.congr (fun j c => childNr (view c) (s.nextKeyNr (j + 1))) _ hbelow fun j hj => hindex j hj _
        have hinner := @Route.inner _ _ (nodes view) (fun j c => childNr (view c) (s.nextKeyNr (j + 1))) (Function.update node (n + 1) b) n
          b before after
          right (Function.update_self ..) (hchild ▸ hi) (hchild ▸ hright) (hchild ▸ hrest)
        refine .inl ⟨s', _, _, _, hdown, hinner, hsame.trans hdesc.same, hdesc.coherent, ?_, ?_, ?_, ?_, ?_, ?_, ?_⟩
        · intro j hj
          rw [hbelow j (Nat.le_of_lt_succ hj)]
          obtain rfl | hlt := Nat.eq_or_lt_of_le (Nat.le_of_lt_succ hj)
          · rw [hdesc.blocksAbove (j + 1) (Nat.lt_succ_self j), blocks, Function.update_self, hroute.here]
          · exact hdesc.blocks j hlt
        · intro j hj
          rw [hdesc.blocksAbove j (by omega), blocks, Function.update_of_ne (by omega)]
        · intro j hj
          obtain rfl | hlt := Nat.eq_or_lt_of_le (Nat.le_of_lt_succ hj)
          · rw [hdesc.nextKeyNrAbove (j + 2) (Nat.lt_succ_self _), nextKeyNr, Function.update_self]
            show Function.update s.nextKeyNr (j + 2) _ (j + 2) = if childNr (view b) (s.nextKeyNr (j + 2)) = blkNrItem (view b) then 0
              else childNr (view b) (s.nextKeyNr (j + 2)) + 1
            rw [Function.update_self, hchild]
          · rw [hbelow (j + 1) hlt, hdesc.nextKeyNr j hlt]
            simp only [hindex j hlt]
        · intro j hj
          rw [hdesc.nextKeyNrAbove j (by omega), nextKeyNr]
          exact Function.update_of_ne (Nat.ne_of_gt hj) _ _
        · intro _
          rw [hbelow 0 (Nat.zero_le n)]
          cases n with
          | zero =>
            cases hdown
            have hone : min (0 + 1) v.cachedSlots = 1 := Nat.min_eq_left (by omega)
            rw [hone] at hslot'
            rw [hroute.here]
            exact hslot'
          | succ n => exact hdesc.leaf (Nat.succ_pos n)
        · intro hle
          obtain hlt | heq := Nat.lt_or_ge n v.cachedSlots
          · have hlast : v.cachedSlots = n + 1 := by omega
            rw [hdesc.sharedAbove hlt, hdesc.blocksAbove v.cachedSlots hlt, cache, blocks, hlast, Nat.min_self, Function.update_self,
              Function.update_self]
          · exact hdesc.shared heq
        · intro hlt
          rw [hdesc.sharedAbove (by omega), cache, Function.update_of_ne (by omega)]
      · exact .inr ⟨s', hdown, hsame.trans hsame', hcoh', hfaulty⟩

end Cache

/-! ## `search_stat` -/

/-- The path in the cache is a route to the leaf. -/
structure OnRoute (v : Volume σ) (view : Word → Block) (root : Word) (index : Nat → Word → Nat) (node : Nat → Word)
    (before after : List Item)
    (s : Info σ) : Prop where
  coherent : Coherent v view root s
  route : Route (nodes view) index node (v.treeDepth - 1) root before after
  blocks (j : Nat) : j + 1 < v.treeDepth → s.blocks (j + 1) = node j
  nextKeyNr (j : Nat) : j + 1 < v.treeDepth → s.nextKeyNr (j + 2) =
    if index (j + 1) (node (j + 1)) = (nodes view).last (node (j + 1)) then 0 else index (j + 1) (node (j + 1)) + 1
  leaf : s.leaf = view (node 0)
  shared : v.cachedSlots < v.treeDepth → s.cache v.cachedSlots = view (s.blocks v.cachedSlots)

section Search
variable {v : Volume σ} {view : Word → Block} {root : Word} {s s' : Info σ} {stack : Block} {b : Word} {n blocksize : Nat}
  {index : Nat → Word → Nat} {node : Nat → Word} {before after : List Item} {dirId objectid : Word}

variable (s') in
theorem Coherent.same (h : Coherent v view root s) (journal : SameJournal s.journal s'.journal) (cache : s'.cache = s.cache)
    (blocks : s'.blocks = s.blocks) : Coherent v view root s' := by
  refine ⟨h.views.same journal, by rw [cache]; exact h.rootSlot, fun hone => ?_, fun depth hpos hslot hlt => ?_⟩
  · rw [Info.leaf, cache]
    exact h.leaf hone
  · rw [cache, blocks]
    exact h.cached depth hpos hslot hlt

variable (s') in
theorem OnRoute.same (h : OnRoute v view root index node before after s) (journal : SameJournal s.journal s'.journal)
    (cache : s'.cache = s.cache)
    (blocks : s'.blocks = s.blocks) (nextKeyNr : s'.nextKeyNr = s.nextKeyNr) : OnRoute v view root index node before after s' := by
  refine ⟨h.coherent.same _ journal cache blocks, h.route, ?_, ?_, ?_, ?_⟩
  · rw [blocks]
    exact h.blocks
  · rw [nextKeyNr]
    exact h.nextKeyNr
  · rw [Info.leaf, cache]
    exact h.leaf
  · rw [cache, blocks]
    exact h.shared

theorem statChild_le (dirId objectid : Word) (node : Block) : statChild dirId objectid node ≤ blkNrItem node := by
  rw [statChild]
  exact Nat.le_trans List.findIdx_le_length (Nat.le_of_eq List.length_range)

theorem statChild_eq {node : Block} {i : Nat} (hi : i ≤ blkNrItem node)
    (hbehind : ∀ j < blkNrItem node, (nodeKey node j).behind dirId objectid ↔ i ≤ j) : statChild dirId objectid node = i := by
  rw [statChild]
  obtain hlt | rfl := Nat.lt_or_eq_of_le hi
  · rw [List.findIdx_eq (by rw [List.length_range]; exact hlt)]
    refine ⟨?_, fun j hj => ?_⟩
    · rw [List.getElem_range, decide_eq_true_eq]
      exact (hbehind i hlt).2 (Nat.le_refl i)
    · rw [List.getElem_range, decide_eq_false_iff_not, hbehind j (Nat.lt_trans hj hlt)]
      exact Nat.not_le.2 hj
  · refine (List.findIdx_eq_length_of_false fun j hj => ?_).trans List.length_range
    rw [decide_eq_false_iff_not, hbehind j (List.mem_range.1 hj)]
    exact Nat.not_le.2 (List.mem_range.1 hj)

/-- The way down comes to the leaf with the stat item. -/
theorem route_search (hroute : Route (nodes view) (fun _ b => statChild dirId objectid (view b)) node n b before after)
    (hwf : WellFormed view blocksize n b) {item : Item} (hitem : item ∈ (nodes view).below n b) (hkey : item.key = statKey dirId objectid) :
    item ∈ (nodes view).items (node 0) := by
  induction hroute with
  | leaf here =>
    rw [here]
    exact hitem
  | @inner n b before after right here le split rest ih =>
    obtain ⟨-, -, hchildren, hparted⟩ := hwf
    obtain ⟨i, hi, hmem⟩ := List.mem_flatMap.1 hitem
    have hle : i ≤ blkNrItem (view b) := Nat.le_of_lt_succ (List.mem_range.1 hi)
    have hchild : statChild dirId objectid (view b) = i := by
      apply statChild_eq hle
      intro j hj
      rw [behind_iff, ← hkey]
      exact hparted i j hle hj item hmem
    rw [hchild] at ih
    exact ih (hchildren i hle).2 hmem

/-- What `search_stat` comes to. -/
inductive Searched (v : Volume σ) (view : Word → Block) (root dirId objectid : Word) (s : Info σ) : Bool × Info σ → Prop where
  | found {s' : Info σ} {index : Nat → Word → Nat} {node : Nat → Word} {before after : List Item} {i : Nat}
      (journal : SameJournal s.journal s'.journal) (onRoute : OnRoute v view root index node before after s')
      (lt : i < blkNrItem (view (node 0))) (ih : s'.currentIh = blkhSize + ihSize * i)
      (item : s'.currentItem = ihItemLocation (view (node 0)) (blkhSize + ihSize * i))
      (key : ihKey (view (node 0)) (blkhSize + ihSize * i) = statKey dirId objectid) : Searched v view root dirId objectid s (true, s')
  | failed {s' : Info σ} (journal : SameJournal s.journal s'.journal) (coherent : Coherent v view root s')
      (why : Faulty v.disk ∨ ∀ item ∈ v.items view root, item.key ≠ statKey dirId objectid) :
          Searched v view root dirId objectid s (false, s')

theorem searchStat_searched (hgentle : Gentle v.disk) (hcoh : Coherent v view root s)
    (hwf : WellFormed view blocksize (v.treeDepth - 1) root) (stack : Block) (dirId objectid : Word) :
    Searched v view root dirId objectid s (searchStat v stack dirId objectid s) := by
  have hdepth := v.treeDepth_lt.1
  have hdown :=
    goDown_descends hgentle stack (fun node _ => statChild dirId objectid node) hcoh (Nat.sub_lt hdepth Nat.one_pos) hcoh.rootSlot hwf
    (fun _ => statChild_le ..) fun _ _ _ node => statChild_le ..
  unfold searchStat
  obtain ⟨s', node, before, after, hrun, hroute, hdesc⟩ | ⟨s', hrun, hsame, hcoh', hfaulty⟩ := hdown
  · have hleaf : s'.leaf = view (node 0) := by
      obtain hone | hmore := Nat.eq_or_lt_of_le hdepth
      · have hzero : v.treeDepth - 1 = 0 := by omega
        rw [hzero] at hroute
        rw [hdesc.coherent.leaf hone.symm, hroute.here]
      · exact hdesc.leaf (by omega)
    have hon : OnRoute v view root (fun _ b => statChild dirId objectid (view b)) node before after s' :=
      ⟨hdesc.coherent, hroute, fun j hj => hdesc.blocks j (by omega), fun j hj => hdesc.nextKeyNr j (by omega), hleaf,
        fun hlt => hdesc.shared (by omega)⟩
    rw [hrun]
    simp only [hleaf]
    split
    next i hfind =>
      obtain ⟨hkey, hmem, -⟩ := List.find?_range_eq_some.1 hfind
      have hon' := hon.same { s' with
        currentIh := blkhSize + ihSize * i
        currentItem := ihItemLocation (view (node 0)) (blkhSize + ihSize * i) } (.refl _) rfl rfl rfl
      exact .found hdesc.same.journal hon' (List.mem_range.1 hmem) rfl rfl (of_decide_eq_true hkey)
    next hfind =>
      have hcoh' := hdesc.coherent.same { s' with journal.errnum := .fsysCorrupt } ⟨rfl, rfl, rfl⟩ rfl rfl
      refine .failed (hdesc.same.journal.trans ⟨rfl, rfl, rfl⟩) hcoh' (.inr fun item hitem hkey => ?_)
      obtain ⟨i, hi, rfl⟩ := List.mem_map.1 (route_search hroute hwf hitem hkey)
      have hnot := List.find?_range_eq_none.1 hfind i (List.mem_range.1 hi)
      rw [Bool.not_eq_true', decide_eq_false_iff_not] at hnot
      exact hnot hkey
  · rw [hrun]
    exact .failed hsame.journal hcoh' (.inl hfaulty)

end Search

/-! ## `next_key` -/

section Next
variable {v : Volume σ} {view : Word → Block} {root : Word} {s s' : Info σ} {stack : Block} {b : Word} {n k i blocksize : Nat}
  {index : Nat → Word → Nat} {node : Nat → Word} {before after : List Item}

theorem route_wellFormed (hroute : Route (nodes view) index node n b before after) (hwf : WellFormed view blocksize n b) :
    (∀ j ≤ n, WellFormed view blocksize j (node j)) ∧ (∀ j < n, node j ≠ 0) ∧
      ∀ j < n, index (j + 1) (node (j + 1)) ≤ blkNrItem (view (node (j + 1))) := by
  induction hroute with
  | leaf here =>
    refine ⟨fun j hj => ?_, fun j hj => absurd hj (Nat.not_lt_zero j), fun j hj => absurd hj (Nat.not_lt_zero j)⟩
    obtain rfl := Nat.le_zero.1 hj
    rw [here]
    exact hwf
  | @inner n b before after right here le split rest ih =>
    obtain ⟨-, -, hchildren, -⟩ := id hwf
    obtain ⟨hne, hwf'⟩ := hchildren _ le
    obtain ⟨hnodes, hnes, hles⟩ := ih hwf'
    refine ⟨fun j hj => ?_, fun j hj => ?_, fun j hj => ?_⟩
    · obtain rfl | hlt := Nat.eq_or_lt_of_le hj
      · rw [here]
        exact hwf
      · exact hnodes j (Nat.le_of_lt_succ hlt)
    · obtain rfl | hlt := Nat.eq_or_lt_of_le (Nat.le_of_lt_succ hj)
      · rw [rest.here]
        exact hne
      · exact hnes j hlt
    · obtain rfl | hlt := Nat.eq_or_lt_of_le (Nat.le_of_lt_succ hj)
      · rw [here]
        exact le
      · exact hles j hlt

variable (stack) in
/-- The node of the path on level `k + 1` is found in a slot, or it can not be read. -/
theorem nodeOnPath_slot (hgentle : Gentle v.disk) (hwf : WellFormed view blocksize (v.treeDepth - 1) root)
    (hon : OnRoute v view root index node before after s) (hk : k + 1 < v.treeDepth) :
    (∃ slot s₁, nodeOnPath v stack (k + 2) s = (some slot, s₁) ∧ s₁.cache slot = view (node (k + 1)) ∧ SamePlace s s₁ ∧
      Coherent v view root s₁ ∧ s₁.blocks = s.blocks ∧ s₁.nextKeyNr = s.nextKeyNr ∧
        (k + 1 < v.cachedSlots → s₁.cache v.cachedSlots = s.cache v.cachedSlots)) ∨
    ∃ s₁, nodeOnPath v stack (k + 2) s = (none, s₁) ∧ SamePlace s s₁ ∧ Coherent v view root s₁ ∧ Faulty v.disk := by
  obtain ⟨hnodes, hnes, -⟩ := route_wellFormed hon.route hwf
  unfold nodeOnPath
  split
  next htop =>
    refine .inl ⟨0, s, rfl, ?_, .refl s, hon.coherent, rfl, rfl, fun _ => rfl⟩
    have hroot : node (k + 1) = root := by
      rw [← hon.route.here]
      congr 1
      omega
    rw [hroot]
    exact hon.coherent.rootSlot
  next htop =>
    have hlt : k + 2 < v.treeDepth := by omega
    have hblock : s.blocks (k + 2) = node (k + 1) := hon.blocks (k + 1) hlt
    have hne : node (k + 1) ≠ 0 := hnes (k + 1) (by omega)
    split
    next hslot =>
      refine .inl ⟨k + 2, s, rfl, ?_, .refl s, hon.coherent, rfl, rfl, fun _ => rfl⟩
      rw [← hblock]
      obtain heq | hcached := Nat.eq_or_lt_of_le hslot
      · rw [heq]
        exact hon.shared (heq ▸ hlt)
      · exact hon.coherent.cached (k + 2) (Nat.succ_pos _) hcached hlt (hblock ▸ hne)
    next hslot =>
      rw [hblock]
      have hlevel : blkLevel (view (node (k + 1))) = k + 2 := (hnodes (k + 1) (by omega)).level
      have hread := readTreeNode_node stack hon.coherent hgentle (Nat.succ_pos (k + 1)) hlt hne hlevel
      have hcoh := hread.coherent hon.coherent (Nat.succ_pos (k + 1)) hlt
      generalize readTreeNode v stack (node (k + 1)) (k + 2) s = read at hread hcoh
      cases hread with
      | @got s₁ same nextKeyNr cache blocks =>
        refine .inl ⟨_, s₁, rfl, ?_, same, hcoh, ?_, nextKeyNr, fun h => absurd h (by omega)⟩
        · rw [cache, Function.update_self]
        · rw [blocks, ← hblock, Function.update_eq_self]
      | @failed s₁ same cache blocks faulty => exact .inr ⟨s₁, rfl, same, hcoh, faulty⟩

/-- The current item is item `m` of the tree, or the dummy behind the last one. -/
inductive Standing (v : Volume σ) (view : Word → Block) (root : Word) (s : Info σ) : Nat → Prop where
  | item {index : Nat → Word → Nat} {node : Nat → Word} {before after : List Item} {i : Nat}
      (onRoute : OnRoute v view root index node before after s) (lt : i < blkNrItem (view (node 0)))
      (ih : s.currentIh = blkhSize + ihSize * i) (item : s.currentItem = ihItemLocation (view (node 0)) (blkhSize + ihSize * i)) :
      Standing v view root s (before.length + i)
  | dummy {index : Nat → Word → Nat} {node : Nat → Word} {before : List Item} (onRoute : OnRoute v view root index node before [] s)
      (ih : s.currentIh = blkRightDelimKey) : Standing v view root s (v.items view root).length

theorem items_length (view : Word → Block) (b : Word) : ((nodes view).items b).length = blkNrItem (view b) := by
  rw [nodes, List.length_map, List.length_range]

theorem found_journal (s : Info σ) (ih : Nat) : SameJournal s.journal (s.found ih).journal := .refl _

theorem OnRoute.found (h : OnRoute v view root index node before after s) (ih : Nat) :
    OnRoute v view root index node before after (s.found ih) :=
  h.same _ (found_journal s ih) rfl rfl rfl

/-- What `next_key` comes to. -/
inductive Nexted (v : Volume σ) (view : Word → Block) (root : Word) (s : Info σ) (m : Nat) : Bool × Info σ → Prop where
  | found {s' : Info σ} (journal : SameJournal s.journal s'.journal) (standing : Standing v view root s' (m + 1)) :
      Nexted v view root s m (true, s')
  | failed {s' : Info σ} (journal : SameJournal s.journal s'.journal) (coherent : Coherent v view root s') (faulty : Faulty v.disk) :
      Nexted v view root s m (false, s')

/-- The path goes on to the next leaf. -/
theorem OnRoute.next {s₁ : Info σ} {index' : Nat → Word → Nat} {node' : Nat → Word} {before' after' : List Item}
    (hon : OnRoute v view root index node before after s) (hk : k + 1 < v.treeDepth)
    (hlast : ∀ j < k, index (j + 1) (node (j + 1)) = (nodes view).last (node (j + 1)))
    (hblocks : s₁.blocks = s.blocks) (hnr : s₁.nextKeyNr = s.nextKeyNr)
    (hshared : k + 1 < v.cachedSlots → s₁.cache v.cachedSlots = s.cache v.cachedSlots)
    (hroute : Route (nodes view) index' node' (k + 1) (node (k + 1)) before' after')
    (hindex : index' (k + 1) (node (k + 1)) = index (k + 1) (node (k + 1)) + 1)
    (hfirst : ∀ j < k, index' (j + 1) (node' (j + 1)) = 0) (hdesc : Descended v view root index' node' (k + 1) s₁ s') :
    ∃ index node'' after, node'' 0 = node' 0 ∧ OnRoute v view root index node'' (before ++ (nodes view).items (node 0)) after s' := by
  have hsub := hroute.congr (fun j c => if j ≤ k + 1 then index' j c else index j c)
    (fun j => if j ≤ k + 1 then node' j else node j) (fun j hj => if_pos hj) fun j hj => if_pos hj
  obtain ⟨after'', hwhole⟩ := hon.route.next (k := k) (by omega) hlast hsub
    (by simp only [Nat.le_refl, if_true]; exact hindex)
    (fun j hj => by simp only [show j + 1 ≤ k + 1 by omega, if_true]; exact hfirst j hj)
    (fun j hkj _ => ⟨if_neg (by omega), if_neg (by omega)⟩)
  refine ⟨_, _, after'', if_pos (Nat.zero_le _), hdesc.coherent, hwhole, fun j hj => ?_, fun j hj => ?_, ?_, fun hlt => ?_⟩
  · show s'.blocks (j + 1) = if j ≤ k + 1 then node' j else node j
    obtain hlt | heq | hgt := Nat.lt_trichotomy j (k + 1)
    · rw [if_pos (Nat.le_of_lt hlt)]
      exact hdesc.blocks j hlt
    · rw [if_pos (Nat.le_of_eq heq), hdesc.blocksAbove (j + 1) (by omega), hblocks, hon.blocks j hj, heq, hroute.here]
    · rw [if_neg (by omega), hdesc.blocksAbove (j + 1) (by omega), hblocks]
      exact hon.blocks j hj
  · obtain hlt | hge := Nat.lt_or_ge j (k + 1)
    · simp only [show j + 1 ≤ k + 1 from hlt, if_true]
      exact hdesc.nextKeyNr j hlt
    · simp only [show ¬ j + 1 ≤ k + 1 by omega, if_false]
      rw [hdesc.nextKeyNrAbove (j + 2) (by omega), hnr]
      exact hon.nextKeyNr j hj
  · rw [if_pos (Nat.zero_le _)]
    exact hdesc.leaf (Nat.succ_pos k)
  · obtain hgt | hle := Nat.lt_or_ge (k + 1) v.cachedSlots
    · rw [hdesc.sharedAbove hgt, hshared hgt, hdesc.blocksAbove _ hgt, hblocks]
      exact hon.shared hlt
    · exact hdesc.shared hle

theorem nextKey_nexted (hgentle : Gentle v.disk) (hwf : WellFormed view blocksize (v.treeDepth - 1) root)
    (hon : OnRoute v view root index node before after s) (hi : i < blkNrItem (view (node 0))) (hih : s.currentIh = blkhSize + ihSize * i)
    (stack : Block) : Nexted v view root s (before.length + i) (nextKey v stack s) := by
  obtain ⟨hnodes, -, hles⟩ := route_wellFormed hon.route hwf
  have hhead : s.currentIh + ihSize = blkhSize + ihSize * (i + 1) := by rw [hih, Nat.mul_succ, Nat.add_assoc]
  unfold nextKey
  simp only [hhead, hon.leaf]
  by_cases hlast : i + 1 = blkNrItem (view (node 0))
  · rw [if_pos (by rw [hlast])]
    have hlength : before.length + i + 1 = (before ++ (nodes view).items (node 0)).length := by
      rw [List.length_append, items_length, ← hlast, Nat.add_assoc]
    split
    next hfind =>
      have hzero : ∀ j < v.treeDepth - 1, s.nextKeyNr (j + 2) = 0 := by
        intro j hj
        have hnot := List.find?_range_eq_none.1 hfind j hj
        rw [Bool.not_eq_true', decide_eq_false_iff_not, Decidable.not_not] at hnot
        exact hnot
      have hafter : after = [] := by
        apply hon.route.last
        intro j hj
        have hnr := hon.nextKeyNr j (by omega)
        rw [hzero j hj] at hnr
        split at hnr
        · assumption
        · exact absurd hnr.symm (Nat.succ_ne_zero _)
      subst hafter
      have hall : before.length + i + 1 = (v.items view root).length := by
        rw [hlength, Volume.items, hon.route.below_eq, List.append_nil]
      apply Nexted.found (found_journal s _)
      rw [hall]
      exact .dummy (hon.found _) rfl
    next k hfind =>
      obtain ⟨hne, hmem, hlower⟩ := List.find?_range_eq_some.1 hfind
      have hk : k + 1 < v.treeDepth := by
        have := List.mem_range.1 hmem
        omega
      have hne : s.nextKeyNr (k + 2) ≠ 0 := of_decide_eq_true hne
      have hzero : ∀ j < k, s.nextKeyNr (j + 2) = 0 := by
        intro j hj
        have hnot := hlower j hj
        rw [Bool.not_eq_true', decide_eq_false_iff_not, Decidable.not_not] at hnot
        exact hnot
      have hnr := hon.nextKeyNr k hk
      have hmore :
          index (k + 1) (node (k + 1)) ≠ (nodes view).last (node (k + 1)) ∧ s.nextKeyNr (k + 2) = index (k + 1) (node (k + 1)) + 1 := by
        split at hnr
        · exact absurd hnr hne
        next h => exact ⟨h, hnr⟩
      have hle : s.nextKeyNr (k + 2) ≤ blkNrItem (view (node (k + 1))) := by
        rw [hmore.2]
        exact Nat.lt_of_le_of_ne (hles k (by omega)) hmore.1
      obtain ⟨slot, s₁, hslot, hnode, hsame, hcoh, hblocks, hkept, hshared⟩ | ⟨s₁, hslot, hsame, hcoh, hfaulty⟩ :=
        nodeOnPath_slot stack hgentle hwf hon hk
      · rw [hslot]
        obtain ⟨s', node', before', after', hrun, hroute, hdesc⟩ | ⟨s', hrun, hsame', hcoh', hfaulty⟩ :=
          goDown_descends hgentle stack (fun _ keyNr => keyNr) hcoh hk hnode (hnodes (k + 1) (by omega)) (fun _ => by rw [hkept]; exact hle)
            (by
              intro j hj hjk _
              obtain ⟨j, rfl⟩ := Nat.exists_eq_add_of_le' hj
              rw [hkept, hzero j (Nat.lt_of_succ_lt_succ hjk)]
              exact Nat.zero_le _)
        · simp only [hrun]
          obtain ⟨index'', node'', after'', -, hon'⟩ := hon.next hk
            (fun j hj => by
              have hnr' := hon.nextKeyNr j (by omega)
              rw [hzero j hj] at hnr'
              split at hnr'
              · assumption
              · exact absurd hnr'.symm (Nat.succ_ne_zero _))
            hblocks hkept hshared hroute (by rw [hkept]; exact hmore.2) (fun j hj => by rw [hkept]; exact hzero j hj) hdesc
          apply Nexted.found ((hsame.trans hdesc.same).journal.trans (found_journal s' _))
          rw [hlength]
          have hpos := ((route_wellFormed hon'.route hwf).1 0 (Nat.zero_le _)).2.1
          refine Standing.item (i := 0) (hon'.found _) hpos rfl ?_
          show ihItemLocation s'.leaf _ = _
          rw [hon'.leaf]
          rfl
        · simp only [hrun]
          exact .failed (hsame.trans hsame').journal hcoh' hfaulty
      · rw [hslot]
        exact .failed hsame.journal hcoh hfaulty
  · rw [if_neg (by rw [Nat.add_left_cancel_iff]; exact fun h => hlast (Nat.eq_of_mul_eq_mul_left (by decide) h))]
    apply Nexted.found (found_journal s _)
    refine .item (hon.found _) (Nat.lt_of_le_of_ne hi hlast) rfl ?_
    rw [← hon.leaf]
    rfl

end Next

/-! ## Runs -/

/-- The file system on another drive. -/
def Volume.onDrive (v : Volume σ) (devread : σ → Word → Block → Option Block × σ) : Volume σ := { v with disk := v.disk.onDrive devread }

inductive Call where
  | searchStat (dirId objectid : Word)
  | nextKey

/-- A call, with what the drive does meanwhile. -/
structure Step (σ : Type) where
  call : Call
  stack : Block
  devread : σ → Word → Block → Option Block × σ

def Step.perform (st : Step σ) (v : Volume σ) (s : Info σ) : Bool × Info σ :=
  match st.call with
  | .searchStat dirId objectid => searchStat (v.onDrive st.devread) st.stack dirId objectid s
  | .nextKey => nextKey (v.onDrive st.devread) st.stack s

/-- The number of the item that a call has to come to. After a failure there is none. -/
def Step.position (st : Step σ) (items : List Item) (ok : Bool) (pos : Option Nat) : Option Nat :=
  if ok then
    match st.call with
    | .searchStat dirId objectid => items.findIdx? fun item => item.key = statKey dirId objectid
    | .nextKey => pos.map (· + 1)
  else none

/-- Reads that fail leave the buffer alone, and `next_key` goes on from an item. -/
structure Step.Careful (st : Step σ) (items : List Item) (pos : Option Nat) : Prop where
  gentle (dev : σ) (b : Word) (buffer left : Block) : (st.devread dev b buffer).1 = some left → left = buffer
  ready : st.call = .nextKey → ∃ m, pos = some m ∧ m < items.length

/-- The states that such calls come to, with the number of the current item. -/
inductive Run (v : Volume σ) (items : List Item) (s₀ : Info σ) : Info σ → Option Nat → Prop where
  | start : Run v items s₀ s₀ none
  | step {s : Info σ} {pos : Option Nat} {st : Step σ} (before : Run v items s₀ s pos) (careful : st.Careful items pos) :
      Run v items s₀ (st.perform v s).2 (st.position items (st.perform v s).1 pos)

/-- The current item. -/
def Info.current (s : Info σ) : Item :=
  ⟨ihKey s.leaf s.currentIh, slice s.leaf s.currentIh ihSize, slice s.leaf s.currentItem (ihItemLen s.leaf s.currentIh)⟩

/-- Item `m` is the current one, or the dummy with the right delimiting key, behind the last. -/
def Info.Delivers (s : Info σ) (items : List Item) (m : Nat) : Prop :=
  items[m]? = some s.current ∨ (m = items.length ∧ s.currentIh = blkRightDelimKey)

/-- What `reiserfs_mount` leaves. -/
structure Mounted (v : Volume σ) (view : Word → Block) (root : Word) (s : Info σ) : Prop where
  views (devread : σ → Word → Block → Option Block × σ) : Views (v.disk.onDrive devread) view s.journal
  rootSlot : s.cache 0 = view root
  leaf : v.treeDepth = 1 → s.leaf = view root
  blocks (depth : Nat) : s.blocks depth = 0

section Runs
variable {v : Volume σ} {view : Word → Block} {root : Word} {s s' s₀ : Info σ} {pos : Option Nat} {m : Nat} {st : Step σ}
  {devread devread' : σ → Word → Block → Option Block × σ}

theorem Standing.coherent (h : Standing v view root s m) : Coherent v view root s := by
  cases h with
  | item onRoute => exact onRoute.coherent
  | dummy onRoute => exact onRoute.coherent

theorem Coherent.onDrive (h : Coherent (v.onDrive devread) view root s) (hviews : Views (v.disk.onDrive devread') view s.journal) :
    Coherent (v.onDrive devread') view root s := ⟨hviews, h.rootSlot, h.leaf, h.cached⟩

theorem Standing.onDrive (h : Standing (v.onDrive devread) view root s m) (hviews : Views (v.disk.onDrive devread') view s.journal) :
    Standing (v.onDrive devread') view root s m := by
  cases h with
  | item onRoute lt ih item =>
    exact .item ⟨onRoute.coherent.onDrive hviews, onRoute.route, onRoute.blocks, onRoute.nextKeyNr, onRoute.leaf, onRoute.shared⟩ lt ih item
  | dummy onRoute ih =>
    exact .dummy ⟨onRoute.coherent.onDrive hviews, onRoute.route, onRoute.blocks, onRoute.nextKeyNr, onRoute.leaf, onRoute.shared⟩ ih

/-- What stands at an item delivers it. -/
theorem Standing.delivers (h : Standing v view root s m) : s.Delivers (v.items view root) m := by
  cases h with
  | @item index node before after i onRoute lt ih item =>
    left
    rw [Volume.items, onRoute.route.below_eq, List.append_assoc, List.getElem?_append_right (Nat.le_add_right _ _), Nat.add_sub_cancel_left,
      List.getElem?_append_left (by rw [items_length]; exact lt), Info.current, onRoute.leaf, ih, item]
    show ((List.range _).map _)[i]? = _
    rw [List.getElem?_map, List.getElem?_range lt]
    rfl
  | dummy onRoute ih => exact .inr ⟨rfl, ih⟩

/-- What holds in every state of a run. -/
structure Kept (v : Volume σ) (view : Word → Block) (root : Word) (s₀ s : Info σ) (pos : Option Nat) : Prop where
  journal : SameJournal s₀.journal s.journal
  coherent (devread : σ → Word → Block → Option Block × σ) : Coherent (v.onDrive devread) view root s
  standing (m : Nat) : pos = some m → ∀ devread, Standing (v.onDrive devread) view root s m

/-- What a step comes to. -/
inductive Performed (v : Volume σ) (view : Word → Block) (root : Word) (s : Info σ) (pos : Option Nat) (st : Step σ) :
    Bool × Info σ → Prop where
  | ok {s' : Info σ} {m : Nat} (journal : SameJournal s.journal s'.journal) (position : st.position (v.items view root) true pos = some m)
      (standing : Standing (v.onDrive st.devread) view root s' m) : Performed v view root s pos st (true, s')
  | failed {s' : Info σ} (journal : SameJournal s.journal s'.journal) (coherent : Coherent (v.onDrive st.devread) view root s')
      (why : Faulty (v.onDrive st.devread).disk ∨
        ∃ dirId objectid, st.call = .searchStat dirId objectid ∧ ∀ item ∈ v.items view root, item.key ≠ statKey dirId objectid) :
      Performed v view root s pos st (false, s')

/-- In the order of the keys no two items have the same key. -/
theorem findIdx_sorted {items : List Item} (hsorted : items.Pairwise fun item item' => item.key.Before item'.key) {item : Item}
    (hm : items[m]? = some item) : (items.findIdx? fun item' => item'.key = item.key) = some m := by
  obtain ⟨hlt, rfl⟩ := List.getElem?_eq_some_iff.1 hm
  apply List.findIdx?_eq_some_iff_getElem.2
  refine ⟨hlt, decide_eq_true rfl, fun j hj => ?_⟩
  have hbefore := List.pairwise_iff_getElem.1 hsorted j m (Nat.lt_trans hj hlt) hlt hj
  rw [decide_eq_true_eq]
  exact fun heq => Key.Before.irrefl _ (heq ▸ hbefore)

theorem perform_performed (tree : Tree v view root) (hkept : Kept v view root s₀ s pos) (careful : st.Careful (v.items view root) pos) :
    Performed v view root s pos st (st.perform v s) := by
  obtain ⟨call, stack, devread⟩ := st
  have hgentle : Gentle (v.onDrive devread).disk := careful.gentle
  have hwf : WellFormed view (2 ^ v.fullblocksizeShift) ((v.onDrive devread).treeDepth - 1) root := tree.wellFormed
  cases call with
  | searchStat dirId objectid =>
    have hsearched := searchStat_searched hgentle (hkept.coherent devread) hwf stack dirId objectid
    show Performed v view root s pos _ (searchStat (v.onDrive devread) stack dirId objectid s)
    generalize searchStat (v.onDrive devread) stack dirId objectid s = searched at hsearched
    cases hsearched with
    | @found s' index node before after i journal onRoute lt ih item key =>
      have hstanding := Standing.item onRoute lt ih item
      refine .ok journal ?_ hstanding
      obtain hcurrent | ⟨hend, -⟩ := hstanding.delivers
      · have hkey : s'.current.key = statKey dirId objectid := by
          rw [← key, Info.current, onRoute.leaf, ih]
        show ((v.items view root).findIdx? fun item => item.key = statKey dirId objectid) = _
        rw [← hkey]
        exact findIdx_sorted tree.sorted hcurrent
      · have hall := congrArg List.length onRoute.route.below_eq
        rw [List.length_append, List.length_append, items_length] at hall
        have hend : before.length + i = ((nodes view).below ((v.onDrive devread).treeDepth - 1) root).length := hend
        exact absurd hend (by omega)
    | failed journal coherent why =>
      exact .failed journal coherent (why.imp_right fun h => ⟨dirId, objectid, rfl, h⟩)
  | nextKey =>
    obtain ⟨m, rfl, hm⟩ := careful.ready rfl
    show Performed v view root s (some m) _ (nextKey (v.onDrive devread) stack s)
    cases hkept.standing m rfl devread with
    | dummy => exact absurd hm (Nat.lt_irrefl _)
    | item onRoute lt ih item =>
      have hnexted := nextKey_nexted hgentle hwf onRoute lt ih stack
      generalize nextKey (v.onDrive devread) stack s = nexted at hnexted
      cases hnexted with
      | found journal standing => exact .ok journal rfl standing
      | failed journal coherent faulty => exact .failed journal coherent (.inl faulty)

theorem run_kept (tree : Tree v view root) (hmounted : Mounted v view root s₀) (hrun : Run v (v.items view root) s₀ s pos) :
    Kept v view root s₀ s pos := by
  induction hrun with
  | start =>
    refine ⟨.refl _, fun devread => ⟨hmounted.views devread, hmounted.rootSlot, hmounted.leaf, ?_⟩, fun _ h => absurd h (by simp)⟩
    exact fun depth _ _ _ hne => absurd (hmounted.blocks depth) hne
  | @step s pos st before careful ih =>
    have hperformed := perform_performed tree ih careful
    generalize st.perform v s = performed at hperformed
    cases hperformed with
    | @ok s' m journal position standing =>
      have hviews : ∀ devread, Views (v.disk.onDrive devread) view s'.journal := fun devread => (ih.coherent devread).views.same journal
      refine ⟨ih.journal.trans journal, fun devread => standing.coherent.onDrive (hviews devread), fun m' hm' devread => ?_⟩
      obtain rfl := Option.some.inj (position.symm.trans hm')
      exact standing.onDrive (hviews devread)
    | failed journal coherent why =>
      have hviews := fun devread => (ih.coherent devread).views.same journal
      exact ⟨ih.journal.trans journal, fun devread => coherent.onDrive (hviews devread), fun m hm => absurd hm (by simp [Step.position])⟩

/-- **The items of the tree** come one after the other in every run of such calls: a call that
succeeds comes to the item it has to come to, and a call fails only if a read fails or the
tree has no such stat item. -/
theorem run_delivers (tree : Tree v view root) (hmounted : Mounted v view root s₀) (hrun : Run v (v.items view root) s₀ s pos)
    (hcareful : st.Careful (v.items view root) pos) :
    ((st.perform v s).1 = true → ∃ m, st.position (v.items view root) true pos = some m ∧
      (st.perform v s).2.Delivers (v.items view root) m) ∧
      ((st.perform v s).1 = false → Faulty (v.onDrive st.devread).disk ∨
        ∃ dirId objectid, st.call = .searchStat dirId objectid ∧ ∀ item ∈ v.items view root, item.key ≠ statKey dirId objectid) := by
  have hperformed := perform_performed tree (run_kept tree hmounted hrun) hcareful
  generalize st.perform v s = performed at hperformed
  cases hperformed with
  | ok journal position standing => exact ⟨fun _ => ⟨_, position, standing.delivers⟩, fun h => absurd h (by simp)⟩
  | failed journal coherent why => exact ⟨fun h => absurd h (by simp), fun _ => why⟩

end Runs

/-! ## With the journal -/

/-- Without transactions the blocks are those on the disk. -/
theorem views_image {d : Image σ} {s : State σ} (h : s.journalTransactions = 0) : Views d d.image s := by
  intro s' same stack b buffer
  have hzero : s'.journalTransactions.toNat = 0 := by rw [same.transactions, h]; rfl
  rw [readBlock, hzero]
  exact devread_read d s' b buffer

section Examples

/-- The root, with the keys of the second and of the third object. -/
def sampleRoot (i : Nat) : Word :=
  if i = 0 then 0x00020002
  else if i = 6 then 1 else if i = 7 then 2 else if i = 10 then 1 else if i = 11 then 3
  else if i = 14 then 2 else if i = 16 then 3 else if i = 18 then 4
  else 0

/-- A leaf with the stat item of an object. -/
def sampleLeaf (objectid : Word) (i : Nat) : Word :=
  if i = 0 then 0x00010001 else if i = 6 then 1 else if i = 7 then objectid else if i = 10 then 0x0004FFFF else if i = 11 then 4092
  else if i = 1023 then objectid else 0

/-- A root and three leaves. -/
def treeImage : Image Unit where
  journalBlock := 0
  journalBlockCount := 0
  image blockNr := blockOf (if blockNr = 1 then sampleRoot else sampleLeaf (blockNr - 1))
  devread dev _ _ := (none, dev)
  fault := ⟨.read, Disk.GrubError.read_ne_none⟩

def sampleVolume : Volume Unit := ⟨treeImage, 12, by decide, 2, by decide⟩

/-- The root is in its slot, the others are empty. -/
def sampleInfo : Info Unit :=
  ⟨⟨0, 0, fun _ => 0, .none, ()⟩, fun slot => if slot = 0 then treeImage.image 1 else fun _ => 0, fun _ => 0, fun _ => 0, 0, 0⟩

theorem sampleLeaf_wellFormed {b : Word} (hb : b = 2 ∨ b = 3 ∨ b = 4) : WellFormed treeImage.image 4096 0 b := by
  unfold WellFormed
  obtain rfl | rfl | rfl := hb
  · decide +kernel
  · decide +kernel
  · decide +kernel

theorem sampleVolume_tree : Tree sampleVolume treeImage.image 1 := by
  have hchildren : ∀ i ≤ blkNrItem (treeImage.image 1),
      dcBlockNumber (treeImage.image 1) i = 2 ∨ dcBlockNumber (treeImage.image 1) i = 3 ∨ dcBlockNumber (treeImage.image 1) i = 4 := by
    decide +kernel
  have hparted : ∀ i ≤ blkNrItem (treeImage.image 1), ∀ j < blkNrItem (treeImage.image 1),
      ∀ item ∈ (nodes treeImage.image).below 0 (dcBlockNumber (treeImage.image 1) i),
        (item.key.Before (nodeKey (treeImage.image 1) j) ↔ i ≤ j) := by
    decide +kernel
  constructor
  case wellFormed =>
    refine ⟨by decide +kernel, by decide +kernel, fun i hi => ?_, fun i j hi hj => hparted i hi j hj⟩
    have hblock := hchildren i hi
    refine ⟨fun hzero => ?_, sampleLeaf_wellFormed hblock⟩
    rw [hzero] at hblock
    exact absurd hblock (by decide)
  case sorted => decide +kernel

theorem sampleInfo_mounted : Mounted sampleVolume treeImage.image 1 sampleInfo :=
  ⟨fun devread => views_image (d := treeImage.onDrive devread) rfl, rfl, fun h => absurd h (by decide), fun _ => rfl⟩

/-- Three leaves, and a read of the second that fails: tried again, `next_key` goes on to the
third. -/
theorem sampleVolume_skips :
    Tree sampleVolume treeImage.image 1 ∧ Mounted sampleVolume treeImage.image 1 sampleInfo ∧
      (sampleVolume.items treeImage.image 1).map Item.key = [statKey 1 1, statKey 1 2, statKey 1 3] ∧
      let search : Step Unit := ⟨.searchStat 1 1, fun _ => 0, treeImage.devread⟩
      let failing : Step Unit := ⟨.nextKey, fun _ => 0, fun dev blockNr buffer => (if blockNr = 3 then some buffer else none, dev)⟩
      let again : Step Unit := ⟨.nextKey, fun _ => 0, treeImage.devread⟩
      let s₁ := search.perform sampleVolume sampleInfo
      let s₂ := failing.perform sampleVolume s₁.2
      let s₃ := again.perform sampleVolume s₂.2
      (s₁.1, s₂.1, s₃.1) = (true, false, true) ∧ s₁.2.current.key = statKey 1 1 ∧ s₃.2.current.key = statKey 1 3 := by
  refine ⟨sampleVolume_tree, sampleInfo_mounted, ?_, ?_⟩
  · decide +kernel
  · decide +kernel

/-- `next_key` behind a `search_stat`. -/
theorem run_delivers_second :
    let search : Step Unit := ⟨.searchStat 1 1, fun _ => 0, treeImage.devread⟩
    let next : Step Unit := ⟨.nextKey, fun _ => 0, treeImage.devread⟩
    (next.perform sampleVolume (search.perform sampleVolume sampleInfo).2).2.Delivers (sampleVolume.items treeImage.image 1) 1 := by
  intro search next
  have hrun : Run sampleVolume (sampleVolume.items treeImage.image 1) sampleInfo (search.perform sampleVolume sampleInfo).2
      (search.position (sampleVolume.items treeImage.image 1) (search.perform sampleVolume sampleInfo).1 none) :=
    .step .start ⟨fun _ _ _ _ h => absurd h (Option.some_ne_none _).symm, fun h => Call.noConfusion h⟩
  have hfirst : search.position (sampleVolume.items treeImage.image 1) (search.perform sampleVolume sampleInfo).1 none = some 0 := by
    decide +kernel
  have hok : (next.perform sampleVolume (search.perform sampleVolume sampleInfo).2).1 = true := by decide +kernel
  rw [hfirst] at hrun
  have hcareful : next.Careful (sampleVolume.items treeImage.image 1) (some 0) :=
    ⟨fun _ _ _ _ h => absurd h (Option.some_ne_none _).symm, fun _ => ⟨0, rfl, by decide +kernel⟩⟩
  obtain ⟨m, hm, hdelivers⟩ := (run_delivers sampleVolume_tree sampleInfo_mounted hrun hcareful).1 hok
  obtain rfl : 1 = m := Option.some.inj hm
  exact hdelivers

end Examples

end TrustedGrub.Reiserfs
