import TrustedGrub.Ext2.BlockMap
import TrustedGrub.Lib.Search

/-!
# Blocks of an ext4 file with extents

`ext4fs_block_map` of `fsys_ext2fs.c`. The extents are the leaves of a tree whose root is in
the inode. A block of the tree is a table of 32-bit words: a header of three, then entries
of three. `Stored` says what a tree holds, and `ext4fsBlockMap_eq_iff` when a block is found
where the extents put it.
-/

namespace TrustedGrub.Ext2
open Fips180 (Word)
open Search (Placed)

variable {σ : Type}

/-! ## The tree on the disk -/

/-- A block of the tree, or `i_block` and what lies behind it in the inode. -/
abbrev Node := Nat → Word

/-- `EXT4_EXT_MAGIC`. -/
def extMagic : Word := 0xf30a

def ehMagic (eh : Node) : Word := eh 0 &&& 0xffff
def ehEntries (eh : Node) : Nat := (eh 0 >>> 16).toNat
def ehDepth (eh : Node) : Nat := (eh 1 >>> 16).toNat

def eeBlock (eh : Node) (i : Nat) : Word := eh (3 * i + 3)
def eeLen (eh : Node) (i : Nat) : Word := eh (3 * i + 4) &&& 0xffff
def eeStartHi (eh : Node) (i : Nat) : Word := eh (3 * i + 4) >>> 16
def eeStartLo (eh : Node) (i : Nat) : Word := eh (3 * i + 5)

def eiBlock (eh : Node) (i : Nat) : Word := eh (3 * i + 3)
def eiLeafLo (eh : Node) (i : Nat) : Word := eh (3 * i + 4)
def eiLeafHi (eh : Node) (i : Nat) : Word := eh (3 * i + 5) &&& 0xffff

/-! ## The search -/

/-- `ext4_ext_binsearch_idx`: the number of the entry. -/
def ext4ExtBinsearchIdx (eh : Node) (logicalBlock : Word) : Option Nat :=
  Search.search (fun i => (eiBlock eh i).toNat) logicalBlock.toNat (ehEntries eh + 1) 1 (ehEntries eh - 1)

/-- `ext4_ext_binsearch`. -/
def ext4ExtBinsearch (eh : Node) (logicalBlock : Word) : Option Nat :=
  Search.search (fun i => (eeBlock eh i).toNat) logicalBlock.toNat (ehEntries eh + 1) 1 (ehEntries eh - 1)

/-- `errnum = ERR_FILELENGTH; return -1;` -/
def State.filelength (s : State σ) : Word × State σ := (-1, { s with errnum := .filelength })

/-- The loop of `ext4fs_block_map` down to a leaf, or to an error. -/
def descend (fs : Fs σ) (logicalBlock : Word) : Nat → Node → State σ → Option (Option Node × State σ)
  | 0, _, _ => none
  | fuel + 1, eh, s =>
    if ehDepth eh = 0 then some (some eh, s)
    else if ehMagic eh ≠ extMagic then some (none, s.corrupt.2)
    else do
      let ei ← ext4ExtBinsearchIdx eh logicalBlock
      if eiLeafHi eh ei ≠ 0 then some (none, s.filelength.2)
      else
        let (ok, s) := rdfsb fs s (eiLeafLo eh ei) .datablock1
        if !ok then some (none, s.corrupt.2)
        else descend fs logicalBlock fuel (s.data .datablock1) s

/-- The end of `ext4fs_block_map`, at a leaf. -/
def atLeaf (s : State σ) (logicalBlock : Word) (eh : Node) (ex : Nat) : Word × State σ :=
  if eeStartHi eh ex ≠ 0 then s.filelength
  else if eeBlock eh ex + eeLen eh ex < logicalBlock then s.corrupt
  else (eeStartLo eh ex + logicalBlock - eeBlock eh ex, s)

/-- `ext4fs_block_map`. -/
def ext4fsBlockMap (fs : Fs σ) (fuel : Nat) (s : State σ) (logicalBlock : Word) : Option (Word × State σ) :=
  if ehMagic fs.iBlock ≠ extMagic then some s.corrupt
  else do
    let (leaf, s) ← descend fs logicalBlock fuel fs.iBlock s
    match leaf with
    | none => some (-1, s)
    | some eh => do
      let ex ← ext4ExtBinsearch eh logicalBlock
      some (atLeaf s logicalBlock eh ex)

/-! ## What the tree says -/

/-- A run of blocks of the file, of at least one and at most `2^15`. The blocks of a run
that is not initialised have no contents yet. -/
structure Extent where
  block : Nat
  len : Nat
  start : Nat
  initialised : Bool
  len_pos : 0 < len
  len_le : len ≤ if initialised then 2 ^ 15 else 2 ^ 15 - 1
  end_lt : block + len < 2 ^ 32

/-- The length as it is stored. -/
def Extent.rawLen (e : Extent) : Nat := if e.initialised then e.len else e.len + 2 ^ 15

def Extent.Covers (e : Extent) (logical : Nat) : Prop := e.initialised = true ∧ e.block ≤ logical ∧ logical < e.block + e.len

instance (e : Extent) (logical : Nat) : Decidable (e.Covers logical) :=
  inferInstanceAs (Decidable (e.initialised = true ∧ e.block ≤ logical ∧ logical < e.block + e.len))

/-- The initialised extent that covers a block. -/
def covering (extents : List Extent) (logical : Nat) : Option Extent := extents.find? (·.Covers logical)

/-- Where a block of the file lies, with zero for a hole. -/
def extentMap (extents : List Extent) (logical : Nat) : Nat :=
  match covering extents logical with
  | some e => e.start + (logical - e.block)
  | none => 0

/-- An entry of an index block, with what lies behind it. -/
structure Child where
  key : Nat
  leaf : Nat
  extents : List Extent

/-- Entry `i` of a leaf is an extent. -/
structure Extent.At (e : Extent) (eh : Node) (i : Nat) : Prop where
  block : (eeBlock eh i).toNat = e.block
  len : (eeLen eh i).toNat = e.rawLen
  start : (eeStartHi eh i).toNat * 2 ^ 32 + (eeStartLo eh i).toNat = e.start

/-- Entry `i` of an index block is a child. -/
structure Child.At (c : Child) (eh : Node) (i : Nat) : Prop where
  key : (eiBlock eh i).toNat = c.key
  leaf : (eiLeafHi eh i).toNat * 2 ^ 32 + (eiLeafLo eh i).toNat = c.leaf

/-- A block of the tree holds extents, sorted and apart from each other, that number of
levels further down. Blocks with a number of more than 32 bits cannot be read. -/
inductive Stored (fs : Fs σ) : Nat → Node → List Extent → Prop where
  | leaf {eh : Node} {extents : List Extent} (magic : ehMagic eh = extMagic) (depth : ehDepth eh = 0)
    (entries : ehEntries eh = extents.length) (each : ∀ i (h : i < extents.length), extents[i].At eh i)
    (sorted : extents.Pairwise fun e e' => e.block + e.len ≤ e'.block) : Stored fs 0 eh extents
  | index {d : Nat} {eh : Node} {children : List Child} (magic : ehMagic eh = extMagic) (depth : ehDepth eh = d + 1)
    (entries : ehEntries eh = children.length) (nonempty : children ≠ [])
    (each : ∀ i (h : i < children.length), children[i].At eh i)
    (sorted : children.Pairwise fun c c' => c.key < c'.key ∧ ∀ e ∈ c.extents, e.block + e.len ≤ c'.key)
    (first : ∀ c ∈ children, ∀ e ∈ c.extents, c.key ≤ e.block)
    (below : ∀ c ∈ children, ∀ ptr : Word, c.leaf = ptr.toNat → Stored fs d (fs.image ptr) c.extents) :
    Stored fs (d + 1) eh (children.flatMap (·.extents))

/-! ## The way to a leaf -/

/-- The leaf that is reached for a block, by numbers of no more than 32 bits. -/
inductive Leads (fs : Fs σ) (logical : Word) : Node → Node → Prop where
  | leaf {eh : Node} (depth : ehDepth eh = 0) : Leads fs logical eh eh
  | index {eh leaf : Node} {i : Nat} (depth : ehDepth eh ≠ 0)
    (placed : Placed (fun i => (eiBlock eh i).toNat) (ehEntries eh) logical.toNat i) (near : eiLeafHi eh i = 0)
    (below : Leads fs logical (fs.image (eiLeafLo eh i)) leaf) : Leads fs logical eh leaf

variable {fs : Fs σ} {logical : Word} {eh leaf leaf' : Node} {d i : Nat} {extents : List Extent} {children : List Child}

theorem Leads.unique (h : Leads fs logical eh leaf) (h' : Leads fs logical eh leaf') : leaf = leaf' := by
  induction h with
  | leaf depth =>
    cases h' with
    | leaf => rfl
    | index depth' => exact absurd depth depth'
  | index depth placed _ _ ih =>
    cases h' with
    | leaf depth' => exact absurd depth' depth
    | index _ placed' _ below' =>
      apply ih
      rwa [placed.unique placed']

theorem increasing_of_at (entries : ehEntries eh = children.length) (each : ∀ i (h : i < children.length), children[i].At eh i)
    (sorted : children.Pairwise fun c c' => c.key < c'.key ∧ ∀ e ∈ c.extents, e.block + e.len ≤ c'.key) :
    Search.Increasing (fun i => (eiBlock eh i).toNat) (ehEntries eh) := by
  intro i j hij hj
  rw [entries] at hj
  simp only [(each i (by omega)).key, (each j hj).key]
  exact (List.pairwise_iff_getElem.1 sorted i j (by omega) hj hij).1

theorem Extent.increasing_of_at (entries : ehEntries eh = extents.length) (each : ∀ i (h : i < extents.length), extents[i].At eh i)
    (sorted : extents.Pairwise fun e e' => e.block + e.len ≤ e'.block) :
    Search.Increasing (fun i => (eeBlock eh i).toNat) (ehEntries eh) := by
  intro i j hij hj
  rw [entries] at hj
  simp only [(each i (by omega)).block, (each j hj).block]
  have hapart := List.pairwise_iff_getElem.1 sorted i j (by omega) hj hij
  have hpos := extents[i].len_pos
  omega

/-- The child at the place of a block is the only one that can cover it. -/
theorem eq_of_covers (entries : ehEntries eh = children.length) (each : ∀ i (h : i < children.length), children[i].At eh i)
    (sorted : children.Pairwise fun c c' => c.key < c'.key ∧ ∀ e ∈ c.extents, e.block + e.len ≤ c'.key)
    (first : ∀ c ∈ children, ∀ e ∈ c.extents, c.key ≤ e.block)
    (placed : Placed (fun i => (eiBlock eh i).toNat) (ehEntries eh) logical.toNat i) (hi : i < children.length)
    {c : Child} (hc : c ∈ children) {e : Extent} (he : e ∈ c.extents) (hcovers : e.Covers logical.toNat) : c = children[i] := by
  obtain ⟨j, hj, rfl⟩ := List.getElem_of_mem hc
  have hkey := first _ hc e he
  obtain ⟨-, hlow, hhigh⟩ := hcovers
  obtain hji | rfl | hij := Nat.lt_trichotomy j i
  · obtain rfl | ⟨-, hreach⟩ := placed.reaches
    · omega
    · rw [(each i hi).key] at hreach
      have hend := (List.pairwise_iff_getElem.1 sorted j i hj hi hji).2 e he
      omega
  · rfl
  · have hlast := placed.last j hij (by omega)
    rw [(each j hj).key] at hlast
    omega

theorem child_at_place (entries : ehEntries eh = children.length) (nonempty : children ≠ [])
    (each : ∀ i (h : i < children.length), children[i].At eh i)
    (placed : Placed (fun i => (eiBlock eh i).toNat) (ehEntries eh) logical.toNat i) (near : eiLeafHi eh i = 0) :
    ∃ hi : i < children.length, children[i].leaf = (eiLeafLo eh i).toNat := by
  have hi : i < children.length := by
    obtain rfl | ⟨hi, -⟩ := placed.reaches
    · exact List.length_pos_of_ne_nil nonempty
    · omega
  refine ⟨hi, ?_⟩
  have hleaf := (each i hi).leaf
  rw [near] at hleaf
  simpa using hleaf.symm

theorem findSome?_eq_of_mem {α β : Type} {f : α → Option β} {l : List α} {a : α} (ha : a ∈ l) (h : ∀ b ∈ l, f b ≠ none → b = a) :
    l.findSome? f = f a := by
  induction l with
  | nil => cases ha
  | cons b l ih =>
    rw [List.findSome?_cons]
    cases hfb : f b with
    | some c =>
      rw [← h b (List.mem_cons_self ..) (by simp [hfb]), hfb]
    | none =>
      obtain rfl | ha := List.mem_cons.1 ha
      · rw [hfb]
        apply List.findSome?_eq_none_iff.2
        intro b' hb'
        by_contra hne
        exact hne (h b' (List.mem_cons_of_mem _ hb') hne ▸ hfb)
      · exact ih ha fun b' hb' => h b' (List.mem_cons_of_mem _ hb')

/-- The leaf that is reached for a block holds what covers it. -/
theorem Stored.leads (hs : Stored fs d eh extents) (h : Leads fs logical eh leaf) :
    ∃ own, Stored fs 0 leaf own ∧ covering own logical.toNat = covering extents logical.toNat := by
  induction hs with
  | @leaf eh extents magic depth entries each sorted =>
    cases h with
    | leaf => exact ⟨extents, .leaf magic depth entries each sorted, rfl⟩
    | index depth' => exact absurd depth depth'
  | @index d eh children magic depth entries nonempty each sorted first below ih =>
    cases h with
    | leaf depth' => omega
    | @index _ _ i _ placed near rest =>
      obtain ⟨hi, hptr⟩ := child_at_place entries nonempty each placed near
      obtain ⟨own, hown, hcovering⟩ := ih _ (List.getElem_mem hi) _ hptr rest
      refine ⟨own, hown, hcovering.trans ?_⟩
      unfold covering
      rw [List.find?_flatMap, findSome?_eq_of_mem (List.getElem_mem hi)]
      intro c hc hne
      obtain ⟨e, he⟩ := Option.ne_none_iff_exists'.1 hne
      apply eq_of_covers entries each sorted first placed hi hc (List.mem_of_find?_eq_some he)
      simpa using List.find?_some he

/-- What the loop of `ext4fs_block_map` comes to. -/
inductive Descended (fs : Fs σ) (logical : Word) (eh : Node) (s : State σ) : Option Node × State σ → Prop where
  | reached {leaf : Node} {s' : State σ} (leads : Leads fs logical eh leaf) (failures : s'.failures = s.failures)
    (errnum : s'.errnum = s.errnum) : Descended fs logical eh s (some leaf, s')
  /-- A number of more than 32 bits is met. -/
  | far {s' : State σ} (nowhere : ∀ leaf, ¬ Leads fs logical eh leaf) (failures : s'.failures = s.failures) :
    Descended fs logical eh s (none, s'.filelength.2)
  | failed {s' : State σ} (failures : s.failures < s'.failures) : Descended fs logical eh s (none, s'.corrupt.2)

theorem descend_spec (hs : Stored fs d eh extents) {fuel : Nat} (hfuel : d < fuel) (s : State σ) :
    ∃ result, descend fs logical fuel eh s = some result ∧ Descended fs logical eh s result := by
  induction hs generalizing fuel s with
  | @leaf eh extents magic depth entries each sorted =>
    obtain ⟨fuel, rfl⟩ := Nat.exists_eq_succ_of_ne_zero (Nat.ne_of_gt hfuel)
    refine ⟨_, ?_, .reached (.leaf depth) rfl rfl⟩
    simp only [descend, if_pos depth]
  | @index d eh children magic depth entries nonempty each sorted first below ih =>
    obtain ⟨fuel, rfl⟩ := Nat.exists_eq_succ_of_ne_zero (Nat.ne_zero_of_lt hfuel)
    have hdepth : ehDepth eh ≠ 0 := by omega
    obtain ⟨i, hsearch, placed⟩ := Search.search_one (x := logical.toNat) (increasing_of_at entries each sorted).sorted
      (Nat.le_succ (ehEntries eh)) (Nat.succ_pos _)
    simp only [descend, if_neg hdepth, magic, ne_eq, not_true_eq_false, if_false, ext4ExtBinsearchIdx, hsearch,
      Option.bind_eq_bind, Option.bind_some]
    by_cases near : eiLeafHi eh i = 0
    · obtain ⟨hi, hptr⟩ := child_at_place entries nonempty each placed near
      rw [if_neg (not_not.2 near)]
      obtain ⟨s₁, -, ⟨hread, hsupplied⟩ | ⟨hread, hmissed⟩⟩ := rdfsb_cases fs s (eiLeafLo eh i) .datablock1
      · simp only [hread, Bool.not_true, Bool.false_eq_true, if_false, hsupplied.held]
        obtain ⟨result, hresult, hdesc⟩ := ih _ (List.getElem_mem hi) _ hptr (Nat.lt_of_succ_lt_succ hfuel) s₁
        refine ⟨result, hresult, ?_⟩
        cases hdesc with
        | reached leads failures errnum =>
          exact .reached (.index hdepth placed near leads) (failures.trans hsupplied.failures) (errnum.trans hsupplied.errnum)
        | far nowhere failures =>
          refine .far (fun leaf h => ?_) (failures.trans hsupplied.failures)
          cases h with
          | leaf depth' => exact hdepth depth'
          | index _ placed' _ rest => exact nowhere leaf (placed'.unique placed ▸ rest)
        | failed failures => exact .failed (hsupplied.failures ▸ failures)
      · simp only [hread, Bool.not_false, if_true]
        exact ⟨_, rfl, .failed hmissed.failures⟩
    · rw [if_pos near]
      refine ⟨_, rfl, .far (fun leaf h => ?_) rfl⟩
      cases h with
      | leaf depth' => exact hdepth depth'
      | index _ placed' near' _ => exact near (placed'.unique placed ▸ near')

/-! ## The answer at a leaf -/

/-- The entry at the place of a block passes the tests of `ext4fs_block_map`, and its start
is where the hole value comes out. -/
structure ZeroByChance (leaf : Node) (logical : Word) (i : Nat) : Prop where
  near : eeStartHi leaf i = 0
  reaches : logical ≤ eeBlock leaf i + eeLen leaf i
  start : eeStartLo leaf i = eeBlock leaf i - logical

theorem Stored.covering_eq_some (hs : Stored fs 0 leaf extents)
    (placed : Placed (fun i => (eeBlock leaf i).toNat) (ehEntries leaf) logical.toNat i) {e : Extent}
    (h : covering extents logical.toNat = some e) : e.At leaf i ∧ e.Covers logical.toNat := by
  obtain @⟨_, _, magic, depth, entries, each, sorted⟩ := hs
  have hcovers : e.Covers logical.toNat := by simpa using List.find?_some h
  obtain ⟨j, hj, rfl⟩ := List.getElem_of_mem (List.mem_of_find?_eq_some h)
  have ⟨_, hlow, hhigh⟩ := hcovers
  have hplaced : Placed (fun i => (eeBlock leaf i).toNat) (ehEntries leaf) logical.toNat j := by
    refine ⟨.inr ⟨by omega, by simpa only [(each j hj).block]⟩, fun k hjk hk => ?_⟩
    rw [entries] at hk
    simp only [(each k hk).block]
    have hapart := List.pairwise_iff_getElem.1 sorted j k hj hk hjk
    omega
  rw [placed.unique hplaced]
  exact ⟨each j hj, hcovers⟩

theorem atLeaf_covers {e : Extent} (hat : e.At leaf i) (hcovers : e.Covers logical.toNat) (s : State σ) :
    (atLeaf s logical leaf i).1.toInt = (e.start + (logical.toNat - e.block) : Nat) ↔ e.start + (logical.toNat - e.block) < 2 ^ 31 := by
  obtain ⟨hinit, hlow, hhigh⟩ := hcovers
  have hend := e.end_lt
  have hblock := hat.block
  have hlen : (eeLen leaf i).toNat = e.len := by
    have := hat.len
    rwa [Extent.rawLen, if_pos hinit] at this
  have hreaches : ¬ eeBlock leaf i + eeLen leaf i < logical := by
    rw [BitVec.lt_def, BitVec.toNat_add, hblock, hlen, Nat.mod_eq_of_lt hend]
    omega
  have hstart := hat.start
  unfold atLeaf
  by_cases near : eeStartHi leaf i = 0
  · rw [near] at hstart
    simp only [near, ne_eq, not_true_eq_false, if_false, hreaches]
    rw [BitVec.toInt_eq_toNat_bmod, BitVec.toNat_sub, BitVec.toNat_add, Int.bmod_def]
    have hlo := (eeStartLo leaf i).isLt
    have hl := logical.isLt
    have hzero : (0 : Word).toNat = 0 := by rfl
    rw [hzero, Nat.zero_mul, Nat.zero_add] at hstart
    have hword : (2 ^ 32 - (eeBlock leaf i).toNat + ((eeStartLo leaf i).toNat + logical.toNat) % 2 ^ 32) % 2 ^ 32 =
        (e.start + (logical.toNat - e.block)) % 2 ^ 32 := by omega
    rw [hword]
    split <;> omega
  · have hhi : (eeStartHi leaf i).toNat ≠ 0 := fun h => near (BitVec.eq_of_toNat_eq h)
    have hfar : (State.filelength s).1.toInt = -1 := by rfl
    rw [if_pos near, hfar]
    omega

theorem atLeaf_zero (s : State σ) : (atLeaf s logical leaf i).1.toInt = 0 ↔ ZeroByChance leaf logical i := by
  have hzero (w : Word) : w.toInt = 0 ↔ w = 0 := ⟨fun h => BitVec.eq_of_toInt_eq h, fun h => h ▸ rfl⟩
  have hstart (lo block : Word) : lo + logical - block = 0 ↔ lo = block - logical := by
    constructor <;> intro h <;> bv_omega
  have herror : (-1 : Word).toInt ≠ 0 := by decide
  unfold atLeaf
  split_ifs with near hreaches
  · exact ⟨fun h => absurd h herror, fun h => absurd h.near near⟩
  · exact ⟨fun h => absurd h herror, fun h => absurd hreaches (BitVec.not_lt.2 h.reaches)⟩
  · rw [hzero, hstart]
    exact ⟨fun h => ⟨not_not.1 near, BitVec.not_lt.1 hreaches, h⟩, fun h => h.start⟩

/-- Where `ext4fs_block_map` finds what the extents say: at a block that is covered, if no
number of more than 32 bits is on the way and the block's own number is below `2^31`; at
one that is not, if the extent the search ends at starts as far into the volume as it
starts behind the block. -/
def FoundRight (fs : Fs σ) (extents : List Extent) (logical : Word) : Prop :=
  match covering extents logical.toNat with
  | some e => (∃ leaf, Leads fs logical fs.iBlock leaf) ∧ e.start + (logical.toNat - e.block) < 2 ^ 31
  | none => ∃ leaf i, Leads fs logical fs.iBlock leaf ∧
      Placed (fun i => (eeBlock leaf i).toNat) (ehEntries leaf) logical.toNat i ∧ ZeroByChance leaf logical i

/-- What `ext4fs_block_map` comes to on a stored tree. -/
inductive TreeAnswer (fs : Fs σ) (extents : List Extent) (s : State σ) (logical : Word) : Word × State σ → Prop where
  | reached {leaf : Node} {own : List Extent} {i : Nat} {s' : State σ} (leads : Leads fs logical fs.iBlock leaf)
    (stored : Stored fs 0 leaf own)
    (covering : covering own logical.toNat = covering extents logical.toNat)
    (placed : Placed (fun i => (eeBlock leaf i).toNat) (ehEntries leaf) logical.toNat i)
    (failures : s'.failures = s.failures) (errnum : s'.errnum = s.errnum) : TreeAnswer fs extents s logical (atLeaf s' logical leaf i)
  | far {s' : State σ} (nowhere : ∀ leaf, ¬ Leads fs logical fs.iBlock leaf) (failures : s'.failures = s.failures) :
    TreeAnswer fs extents s logical s'.filelength
  | failed {s' : State σ} (failures : s.failures < s'.failures) : TreeAnswer fs extents s logical s'.corrupt

theorem ext4fsBlockMap_answer (hs : Stored fs d fs.iBlock extents) {fuel : Nat} (hfuel : d < fuel) (s : State σ) (logical : Word) :
    ∃ result, ext4fsBlockMap fs fuel s logical = some result ∧ TreeAnswer fs extents s logical result := by
  have hmagic : ehMagic fs.iBlock = extMagic := by
    cases hs with
    | leaf magic => exact magic
    | index magic => exact magic
  obtain ⟨⟨result, s'⟩, hresult, hdesc⟩ := @descend_spec _ _ logical _ _ _ hs _ hfuel s
  simp only [ext4fsBlockMap, hmagic, ne_eq, not_true_eq_false, if_false, hresult, Option.bind_eq_bind, Option.bind_some]
  cases hdesc with
  | @reached leaf _ leads failures errnum =>
    obtain ⟨own, hown, hcovering⟩ := hs.leads leads
    have hsearch : ∃ i, ext4ExtBinsearch leaf logical = some i ∧
        Placed (fun i => (eeBlock leaf i).toNat) (ehEntries leaf) logical.toNat i := by
      cases hown with
      | leaf _ _ entries each sorted =>
        exact Search.search_one (Extent.increasing_of_at entries each sorted).sorted (Nat.le_succ _) (Nat.succ_pos _)
    obtain ⟨i, hi, placed⟩ := hsearch
    exact ⟨atLeaf s' logical leaf i, by simp [hi], .reached leads hown hcovering placed failures errnum⟩
  | @far s' nowhere failures => exact ⟨s'.filelength, rfl, .far nowhere failures⟩
  | @failed s' failures => exact ⟨s'.corrupt, rfl, .failed failures⟩

theorem atLeaf_failures (s : State σ) (logical : Word) (leaf : Node) (i : Nat) : (atLeaf s logical leaf i).2.failures = s.failures := by
  unfold atLeaf State.filelength State.corrupt
  split_ifs <;> rfl

/-- The loop ends on every stored tree, and unless a read fails the answer is the one of the
extents exactly where it is said above. -/
theorem ext4fsBlockMap_eq_iff (hs : Stored fs d fs.iBlock extents) {fuel : Nat} (hfuel : d < fuel) (s : State σ) (logical : Word) :
    ∃ word s', ext4fsBlockMap fs fuel s logical = some (word, s') ∧
      (s'.failures = s.failures ∧ (word.toInt = extentMap extents logical.toNat ↔ FoundRight fs extents logical) ∨
        s.failures < s'.failures ∧ word = -1 ∧ s'.errnum = .fsysCorrupt) := by
  obtain ⟨result, hresult, hanswer⟩ := ext4fsBlockMap_answer hs hfuel s logical
  refine ⟨result.1, result.2, hresult, ?_⟩
  unfold extentMap FoundRight
  cases hanswer with
  | @reached leaf own i s' leads hown hcovering placed failures _ =>
    refine .inl ⟨(atLeaf_failures _ _ _ _).trans failures, ?_⟩
    rw [← hcovering]
    cases hcov : covering own logical.toNat with
    | some e =>
      obtain ⟨hat, hcovers⟩ := hown.covering_eq_some placed hcov
      simp only [atLeaf_covers hat hcovers]
      exact ⟨fun h => ⟨⟨leaf, leads⟩, h⟩, fun h => h.2⟩
    | none =>
      simp only [Nat.cast_zero, atLeaf_zero]
      refine ⟨fun h => ⟨leaf, i, leads, placed, h⟩, ?_⟩
      rintro ⟨leaf', i', leads', placed', h⟩
      obtain rfl := leads.unique leads'
      rwa [placed.unique placed']
  | @far s' nowhere failures =>
    refine .inl ⟨failures, ?_⟩
    have hminus : s'.filelength.1.toInt = -1 := by rfl
    rw [hminus]
    split
    · constructor
      · omega
      · rintro ⟨⟨leaf, leads⟩, -⟩
        exact absurd leads (nowhere leaf)
    · constructor
      · intro h
        omega
      · rintro ⟨leaf, i, leads, -⟩
        exact absurd leads (nowhere leaf)
  | @failed s' failures => exact .inr ⟨failures, rfl, rfl⟩

/-! ## The two searches -/

/-- The entries that a search for a block reads, by their first blocks. -/
def binsearchReads (block : Nat → Word) (entries : Nat) (logicalBlock : Word) : List Nat :=
  Search.probes (fun i => (block i).toNat) logicalBlock.toNat (entries + 1) 1 (entries - 1)

/-- Entry `i` is the last that starts at the block or before it, or the first where none does. -/
structure Closest (block : Nat → Word) (entries : Nat) (logicalBlock : Word) (i : Nat) : Prop where
  inside : i < entries
  last : (block i ≤ logicalBlock ∧ ∀ j < entries, block j ≤ logicalBlock → j ≤ i) ∨ (i = 0 ∧ ∀ j < entries, logicalBlock < block j)

/-- The entries are sorted by their first blocks. -/
def Ordered (block : Nat → Word) (entries : Nat) : Prop := ∀ i j, i < j → j < entries → block i ≤ block j

theorem search_closest {block : Nat → Word} {entries : Nat} (hne : 0 < entries) (h : Ordered block entries) (logicalBlock : Word) :
    ∃ i, Search.search (fun i => (block i).toNat) logicalBlock.toNat (entries + 1) 1 (entries - 1) = some i ∧
      Closest block entries logicalBlock i := by
  have hsorted : Search.Sorted (fun i => (block i).toNat) entries := h
  obtain ⟨i, hsearch, hplaced⟩ := Search.search_one (x := logicalBlock.toNat) hsorted (Nat.le_succ _) (Nat.succ_pos _)
  obtain ⟨hi, hlast⟩ := hplaced.last_or_first hne hsorted
  exact ⟨i, hsearch, hi, hlast⟩

theorem binsearchReads_inside {block : Nat → Word} {entries i : Nat} {logicalBlock : Word} (hne : 0 < entries)
    (hi : i ∈ binsearchReads block entries logicalBlock) : i < entries := by
  have hbetween := Search.probes_between _ _ Nat.one_pos hi
  omega

/-- Both searches end, with the last entry that starts at the block or before it, or the
first where none does. The result depends on no entries but those that are read, and these
are in the table. -/
theorem binsearch_closest (eh : Node) (logicalBlock : Word) (hne : 0 < ehEntries eh) :
    (Ordered (eiBlock eh) (ehEntries eh) →
      ∃ i, ext4ExtBinsearchIdx eh logicalBlock = some i ∧ Closest (eiBlock eh) (ehEntries eh) logicalBlock i) ∧
    (Ordered (eeBlock eh) (ehEntries eh) →
      ∃ i, ext4ExtBinsearch eh logicalBlock = some i ∧ Closest (eeBlock eh) (ehEntries eh) logicalBlock i) ∧
    (∀ i ∈ binsearchReads (eiBlock eh) (ehEntries eh) logicalBlock, i < ehEntries eh) ∧
    (∀ i ∈ binsearchReads (eeBlock eh) (ehEntries eh) logicalBlock, i < ehEntries eh) ∧
    ∀ eh', ehEntries eh' = ehEntries eh →
      ((∀ i ∈ binsearchReads (eiBlock eh) (ehEntries eh) logicalBlock, eiBlock eh' i = eiBlock eh i) →
        ext4ExtBinsearchIdx eh' logicalBlock = ext4ExtBinsearchIdx eh logicalBlock) ∧
      ((∀ i ∈ binsearchReads (eeBlock eh) (ehEntries eh) logicalBlock, eeBlock eh' i = eeBlock eh i) →
        ext4ExtBinsearch eh' logicalBlock = ext4ExtBinsearch eh logicalBlock) := by
  refine ⟨?_, ?_, ?_, ?_, ?_⟩
  · intro h
    exact search_closest hne h logicalBlock
  · intro h
    exact search_closest hne h logicalBlock
  · intro i hi
    exact binsearchReads_inside hne hi
  · intro i hi
    exact binsearchReads_inside hne hi
  · intro eh' hentries
    constructor
    · intro hsame
      rw [ext4ExtBinsearchIdx, hentries, ext4ExtBinsearchIdx]
      apply Search.search_congr
      intro i hi
      rw [hsame i hi]
    · intro hsame
      rw [ext4ExtBinsearch, hentries, ext4ExtBinsearch]
      apply Search.search_congr
      intro i hi
      rw [hsame i hi]

section Examples

/-- A device that reads everything. The inode is an index of two leaves, in blocks 7 and 8:
block 0 and, not initialised, blocks 5 and 6 in the one, and block 9 in the other. -/
def holeyFile : Fs Unit where
  addrBits := 8
  addrBits_le := eight_le_eleven
  iBlock i := ([0x2f30a, 0x10004, 0, 0, 7, 0, 9, 8, 0] : List Word).getD i 0
  image ptr i :=
    if ptr = 7 then ([0x2f30a, 84, 0, 0, 1, 0x100, 5, 0x8002, 0x200] : List Word).getD i 0
    else ([0x1f30a, 84, 0, 9, 1, 0x300] : List Word).getD i 0
  devread := fun _ _ _ => (none, ())

/-- An extent that is far from the bounds. -/
def shortExtent (block start : Nat) (initialised : Bool) (len : Fin 15) (end_lt : block < 2 ^ 31) : Extent where
  block := block
  len := len + 1
  start := start
  initialised := initialised
  len_pos := Nat.succ_pos len
  len_le := by have := len.isLt; split <;> omega
  end_lt := by have := len.isLt; omega

theorem holey_ends : 0 < 2 ^ 31 ∧ 5 < 2 ^ 31 ∧ 9 < 2 ^ 31 := by decide

def holeyChildren : List Child :=
  [⟨0, 7, [shortExtent 0 0x100 true 0 holey_ends.1, shortExtent 5 0x200 false 1 holey_ends.2.1]⟩,
    ⟨9, 8, [shortExtent 9 0x300 true 0 holey_ends.2.2]⟩]

def holeyExtents : List Extent := holeyChildren.flatMap (·.extents)

theorem holeyFile_stored : Stored holeyFile 1 holeyFile.iBlock holeyExtents := by
  have hleaf (eh : Node) (extents : List Extent) (h : ehMagic eh = extMagic ∧ ehDepth eh = 0 ∧ ehEntries eh = extents.length ∧
      (∀ i (h : i < extents.length), (eeBlock eh i).toNat = extents[i].block ∧ (eeLen eh i).toNat = extents[i].rawLen ∧
        (eeStartHi eh i).toNat * 2 ^ 32 + (eeStartLo eh i).toNat = extents[i].start) ∧
      extents.Pairwise fun e e' => e.block + e.len ≤ e'.block) : Stored holeyFile 0 eh extents :=
    .leaf h.1 h.2.1 h.2.2.1 (fun i hi => ⟨(h.2.2.2.1 i hi).1, (h.2.2.2.1 i hi).2.1, (h.2.2.2.1 i hi).2.2⟩) h.2.2.2.2
  unfold holeyExtents
  apply Stored.index
  case each =>
    have hat : ∀ i (h : i < holeyChildren.length), (eiBlock holeyFile.iBlock i).toNat = holeyChildren[i].key ∧
        (eiLeafHi holeyFile.iBlock i).toNat * 2 ^ 32 + (eiLeafLo holeyFile.iBlock i).toNat = holeyChildren[i].leaf := by
      decide
    exact fun i hi => ⟨(hat i hi).1, (hat i hi).2⟩
  case below =>
    intro c hc ptr hptr
    have hword : ptr = BitVec.ofNat 32 c.leaf := by rw [hptr, BitVec.ofNat_toNat, BitVec.setWidth_eq]
    simp only [holeyChildren, List.mem_cons, List.not_mem_nil, or_false] at hc
    obtain rfl | rfl := hc
    · apply hleaf
      rw [hword]
      decide
    · apply hleaf
      rw [hword]
      decide
  all_goals decide

/-- The index block of the file. -/
theorem binsearch_closest_holeyFile :
    (∃ i, ext4ExtBinsearchIdx holeyFile.iBlock 7 = some i ∧ Closest (eiBlock holeyFile.iBlock) (ehEntries holeyFile.iBlock) 7 i) ∧
      ∃ i, ext4ExtBinsearch holeyFile.iBlock 7 = some i ∧ Closest (eeBlock holeyFile.iBlock) (ehEntries holeyFile.iBlock) 7 i := by
  have hentries : ehEntries holeyFile.iBlock = 2 := by decide
  have hordered : Ordered (eiBlock holeyFile.iBlock) (ehEntries holeyFile.iBlock) := by
    intro i j hij hj
    obtain ⟨rfl, rfl⟩ : i = 0 ∧ j = 1 := by omega
    decide
  have hfound := binsearch_closest holeyFile.iBlock 7 (by decide)
  exact ⟨hfound.1 hordered, hfound.2.1 hordered⟩

/-- Block 9 is found. -/
theorem ext4fsBlockMap_eq_iff_holeyFile :
    ∃ word s', ext4fsBlockMap holeyFile 2 ⟨.none, -1, -1, fun _ _ => 0, (), 0⟩ 9 = some (word, s') ∧
      (s'.failures = 0 ∧ (word.toInt = extentMap holeyExtents 9 ↔ FoundRight holeyFile holeyExtents 9) ∨
        0 < s'.failures ∧ word = -1 ∧ s'.errnum = .fsysCorrupt) :=
  ext4fsBlockMap_eq_iff holeyFile_stored (by decide) _ 9

/-- Nothing covers blocks 1, 3 and 5. The one behind the extent of block 0 is answered with
the block behind it in the volume, the one between two extents with an error, and the one
that is not initialised with its block. -/
theorem holeyFile_misread :
    Stored holeyFile 1 holeyFile.iBlock holeyExtents ∧
      ([1, 3, 5] : List Word).map (fun l => (extentMap holeyExtents l.toNat,
        (ext4fsBlockMap holeyFile 2 ⟨.none, -1, -1, fun _ _ => 0, (), 0⟩ l).map fun r => (r.1.toInt, r.2.errnum, r.2.failures))) =
      [(0, some (0x101, .none, 0)), (0, some (-1, .fsysCorrupt, 0)), (0, some (0x200, .none, 0))] :=
  ⟨holeyFile_stored, by decide⟩

end Examples

end TrustedGrub.Ext2
