import TrustedGrub.Ext2.Passes

/-!
# When the walks of `ext2fs_dir` come to an end

The size of each step comes from the disk: the length of a directory's entry, the depth of
an index block, the target of a link. `Head.Advances` is what is to hold of each pass of a
loop, `Head.Sound` what the disk has to say for it at the head of the loop, and
`ext2fsDir_walks_iff` that the walk ends, with progress at each pass, exactly where the disk
says so at all heads it comes to.
-/

namespace TrustedGrub.Ext2
open Fips180 (Byte Word)
open Disk (isspace)
open Loop (Body Ends Flow Passed run)

variable {σ : Type} {v : Volume σ} {p₀ p : Path} {g₀ g g' : DirState σ}

/-! ## The heads of the loops -/

/-- The head of a loop, or a link before it is read. -/
inductive Head (σ : Type) where
  | path (p : Path) (g : DirState σ)
  | link (p : Path) (g : DirState σ)
  | piece (t : Piece) (g : DirState σ)
  | entry (dirname : List Byte) (ch : Byte) (loc : Word) (g : DirState σ)
  | node (g : DirState σ) (logicalBlock : Word) (eh : Node) (s : State σ)

/-- A pass asks for a block of the file. -/
inductive Asks (v : Volume σ) : Head σ → DirState σ → Word → Prop where
  | piece {t : Piece} {g : DirState σ} (more : t.len ≠ 0) : Asks v (.piece t g) g (g.logicalBlock v)
  | entry {dirname : List Byte} {ch : Byte} {loc : Word} {g : DirState σ} (inside : ¬ g.iSize ≤ loc) :
      Asks v (.entry dirname ch loc g) g (dirBlock v loc)

/-- The heads that the walk of a path comes to. -/
inductive Visits (v : Volume σ) (p₀ : Path) (g₀ : DirState σ) : Head σ → Prop where
  | path {p : Path} {g : DirState σ} (passed : Passed (dirPass v) p₀ g₀ p g) : Visits v p₀ g₀ (.path p g)
  | link {p : Path} {g g' : DirState σ} (path : Visits v p₀ g₀ (.path p g)) (lookup : lookupInode v g p.currentIno = (none, g'))
      (islnk : g'.sIslnk) : Visits v p₀ g₀ (.link p g')
  | piece {p : Path} {g g' : DirState σ} {t : Piece} (link : Visits v p₀ g₀ (.link p g)) (few : p.linkCount < maxLinkCount)
      (fits : p.Fits g) (slow : ¬ isFastSymlink v g.sized) (notKernel : ¬ g.measureKernel)
      (passed : Passed (readPass v) ⟨g.linkLength, 0, p.spliced g⟩ g.atLink t g') : Visits v p₀ g₀ (.piece t g')
  | entry {p : Path} {g g' g'' : DirState σ} {loc : Word} (path : Visits v p₀ g₀ (.path p g))
      (lookup : lookupInode v g p.currentIno = (none, g')) (notlnk : ¬ g'.sIslnk) (more : ¬ p.dirname.head?.all isspace)
      (kind : ¬ (g'.iSize = 0 ∨ !g'.sIsdir)) (passed : Passed (scanPass v p.name p.ch) 0 g' loc g'') :
      Visits v p₀ g₀ (.entry p.name p.ch loc g'')
  | node {head : Head σ} {g : DirState σ} {logical : Word} {eh : Node} {s : State σ} (visited : Visits v p₀ g₀ head)
      (asks : Asks v head g logical) (uses : usesExtents v g) (magic : ehMagic g.iBlock = extMagic)
      (passed : Passed (descendPass (v.fs g) logical) g.iBlock g.toState eh s) : Visits v p₀ g₀ (.node g logical eh s)

/-! ## Progress -/

/-- A pass over the path follows one more link, of five at most, or goes on with less of the
name. Where it returns, it has found the file or set an error. -/
def Path.Onward (p : Path) : Flow Path (DirState σ) Int → Prop
  | .next p' _ => p.linkCount < p'.linkCount ∧ p'.linkCount ≤ maxLinkCount ∨
      p'.linkCount = p.linkCount ∧ p'.dirname.length < p.dirname.length
  | .done result g => result = 1 ∨ g.errnum ≠ .none

/-- A pass over a directory goes on further behind. -/
def entryOnward (loc : Word) : Flow Word (DirState σ) Scanned → Prop
  | .next loc' _ => loc < loc'
  | .done (.returns result) g => result = 1 ∨ g.errnum ≠ .none
  | .done (.found _) _ => True

/-- A pass down the tree of extents goes on with a block of less depth. -/
def nodeOnward (eh : Node) : Flow Node (State σ) (Option Node) → Prop
  | .next eh' _ => ehDepth eh' < ehDepth eh
  | .done none s => s.errnum ≠ .none
  | .done (some _) _ => True

/-- A piece of a link leaves less to read. -/
def pieceOnward (t : Piece) : Flow Piece (DirState σ) Piece → Prop
  | .next t' _ => t'.len < t.len
  | .done _ _ => True

/-- Whatever a pass comes to, it is progress. -/
def Head.Advances (v : Volume σ) : Head σ → Prop
  | .path p g => ∀ fuel flow, dirPass v fuel p g = some flow → p.Onward flow
  | .link _ _ => True
  | .piece t g => ∀ fuel flow, readPass v fuel t g = some flow → pieceOnward t flow
  | .entry dirname ch loc g => ∀ fuel flow, scanPass v dirname ch fuel loc g = some flow → entryOnward loc flow
  | .node g logical eh s => ∀ fuel flow, descendPass (v.fs g) logical fuel eh s = some flow → nodeOnward eh flow

/-- At the head of a loop the disk has what the next pass needs:

* a link that is not in its inode has a size, and one that fits into the buffer no size
  below zero;
* no block number below zero without an error, for the first piece of a link and for a block
  of a directory;
* an entry of a directory that is passed over has a length, and does not end behind the
  largest offset;
* a block below an index block has a smaller depth. -/
def Head.Sound (v : Volume σ) : Head σ → Prop
  | .path _ _ => True
  | .link p g => p.linkCount < maxLinkCount → p.Fits g →
      0 ≤ g.iSize.toInt ∧ (¬ isFastSymlink v g.sized → g.linkLength = 0 → g.errnum ≠ .none)
  | .piece t g => t.ret = 0 → t.len ≠ 0 → ∀ fuel map g', mapBlock v fuel g (g.logicalBlock v) = some (map, g') →
      map.toInt < 0 → g'.errnum ≠ .none
  | .entry dirname ch loc g => ¬ g.iSize ≤ loc → ∀ fuel map g', mapBlock v fuel g (dirBlock v loc) = some (map, g') →
      (map.toInt < 0 → g'.errnum ≠ .none) ∧
      (0 ≤ map.toInt → (g'.rdDirBlock v map).1 → g.passesOver dirname ch (entryIn v map loc) →
        0 < (entryIn v map loc).recLen.toNat ∧ loc.toNat + (entryIn v map loc).recLen.toNat < 2 ^ 32)
  | .node g logical eh s => ehDepth eh ≠ 0 → ehMagic eh = extMagic → ∀ i, ext4ExtBinsearchIdx eh logical = some i →
      eiLeafHi eh i = 0 → (rdfsb (v.fs g) s (eiLeafLo eh i) .datablock1).1 → ehDepth (v.image (eiLeafLo eh i)) < ehDepth eh

/-! ## The tree of extents -/

/-- What a pass down the tree comes to. -/
theorem descendPass_cases {fs : Fs σ} {logical : Word} {fuel : Nat} {eh : Node} {s : State σ} {flow : Flow Node (State σ) (Option Node)}
    (h : descendPass fs logical fuel eh s = some flow) :
    flow = .done (some eh) s ∨ (∃ s', s'.errnum ≠ .none ∧ flow = .done none s') ∨
      ∃ i s', ehDepth eh ≠ 0 ∧ ehMagic eh = extMagic ∧ ext4ExtBinsearchIdx eh logical = some i ∧ eiLeafHi eh i = 0 ∧
        (rdfsb fs s (eiLeafLo eh i) .datablock1).1 = true ∧ flow = .next (fs.image (eiLeafLo eh i)) s' := by
  unfold descendPass at h
  split_ifs at h with hleaf hmagic
  · exact .inl (Option.some.inj h).symm
  · exact .inr (.inl ⟨s.corrupt.2, by simp [State.corrupt], (Option.some.inj h).symm⟩)
  · obtain ⟨i, hi, hpass⟩ := Option.bind_eq_some_iff.1 h
    split_ifs at hpass with hfar
    · exact .inr (.inl ⟨s.filelength.2, by simp [State.filelength], (Option.some.inj hpass).symm⟩)
    · obtain ⟨s', -, ⟨hread, hs⟩ | ⟨hread, -⟩⟩ := rdfsb_cases fs s (eiLeafLo eh i) .datablock1
      · refine .inr (.inr ⟨i, s', hleaf, not_not.1 hmagic, hi, not_not.1 hfar, by rw [hread], ?_⟩)
        simp only [hread, Bool.not_true, Bool.false_eq_true, if_false, hs.held] at hpass
        exact (Option.some.inj hpass).symm
      · refine .inr (.inl ⟨s'.corrupt.2, by simp [State.corrupt], ?_⟩)
        simp only [hread, Bool.not_false, if_true] at hpass
        exact (Option.some.inj hpass).symm

theorem node_advances_iff {logical : Word} {eh : Node} {s : State σ} :
    (Head.node g logical eh s).Advances v ↔ (Head.node g logical eh s).Sound v := by
  constructor
  · intro h hdepth hmagic i hi hnear hread
    obtain ⟨s', -, ⟨hok, hs⟩ | ⟨hok, -⟩⟩ := rdfsb_cases (v.fs g) s (eiLeafLo eh i) .datablock1
    · have hpass := h 0 (.next (v.image (eiLeafLo eh i)) s')
      apply hpass
      rw [descendPass, if_neg hdepth, if_neg (not_not.2 hmagic), hi]
      simp only [Option.bind_eq_bind, Option.bind_some, hnear, ne_eq, not_true_eq_false, if_false, hok, Bool.not_true,
        Bool.false_eq_true, hs.held]
      rfl
    · simp [hok] at hread
  · intro h fuel flow hpass
    obtain rfl | ⟨s', herr, rfl⟩ | ⟨i, s', hdepth, hmagic, hi, hnear, hread, rfl⟩ := descendPass_cases hpass
    · trivial
    · exact herr
    · exact h hdepth hmagic i hi hnear hread

section
variable (hsound : ∀ head, Visits v p₀ g₀ head → head.Sound v)
include hsound

end

/-! ## Directories -/

theorem lt_add_setWidth_iff (loc : Word) (recLen : BitVec 16) :
    loc < loc + recLen.setWidth 32 ↔ 0 < recLen.toNat ∧ loc.toNat + recLen.toNat < 2 ^ 32 := by
  have hrec := recLen.isLt
  have hloc := loc.isLt
  rw [BitVec.lt_def, BitVec.toNat_add, BitVec.toNat_setWidth, Nat.mod_eq_of_lt (Nat.lt_trans hrec (by decide))]
  omega

theorem entry_advances_iff {dirname : List Byte} {ch : Byte} {loc : Word} :
    (Head.entry dirname ch loc g).Advances v ↔ (Head.entry dirname ch loc g).Sound v := by
  constructor
  · intro h hinside fuel map g' hmap
    obtain ⟨flow, hflow⟩ := @scanPass_defined _ v g dirname ch fuel loc fun _ => ⟨_, hmap⟩
    have hadvances := h fuel flow hflow
    cases scanPass_cases hflow with
    | completed past | missing past => exact absurd past hinside
    | unmapped _ mapped negative =>
      cases mapped.symm.trans hmap
      refine ⟨fun _ => hadvances.resolve_left (by decide), fun hpos => ?_⟩
      omega
    | unread _ mapped nonneg read =>
      cases mapped.symm.trans hmap
      refine ⟨fun hneg => by omega, fun _ hread => ?_⟩
      simp [read] at hread
    | passedOver _ mapped nonneg read =>
      cases mapped.symm.trans hmap
      refine ⟨fun hneg => by omega, fun _ _ _ => ?_⟩
      exact (lt_add_setWidth_iff loc _).1 hadvances
    | found _ mapped nonneg read stopped =>
      cases mapped.symm.trans hmap
      exact ⟨fun hneg => by omega, fun _ _ hover => absurd hover stopped⟩
  · intro h fuel flow hflow
    cases scanPass_cases hflow with
    | completed => exact .inl rfl
    | missing => exact .inr (by simp)
    | unmapped inside mapped negative => exact .inr ((h inside _ _ _ mapped).1 negative)
    | unread => exact .inr (by simp)
    | passedOver inside mapped nonneg read passed =>
      apply (lt_add_setWidth_iff loc _).2
      exact (h inside _ _ _ mapped).2 nonneg (by rw [read]) passed
    | found => trivial

section
variable (hsound : ∀ head, Visits v p₀ g₀ head → head.Sound v)
include hsound

end

/-! ## Links -/

/-- Only the first piece has nothing read before it. -/
theorem first_of_ret {t₀ t : Piece} (hpassed : Passed (readPass v) t₀ g₀ t g) (hret : t.ret = 0) : t = t₀ ∧ g = g₀ := by
  cases hpassed with
  | first => exact ⟨rfl, rfl⟩
  | next fuel before pass =>
    obtain ⟨-, hdone⟩ | ⟨-, map, g₁, -, ⟨-, hdone⟩ | ⟨-, t₂, g₂, hfollows, hnext⟩⟩ := readPass_cases pass
    · cases hdone
    · cases hdone
    · cases hnext
      have hmore := hfollows.ret
      omega

theorem piece_advances (t : Piece) (g : DirState σ) : (Head.piece t g).Advances v := by
  intro fuel flow hflow
  obtain ⟨-, rfl⟩ | ⟨-, map, g₁, -, ⟨-, rfl⟩ | ⟨-, t₂, g₂, hfollows, rfl⟩⟩ := readPass_cases hflow
  · trivial
  · trivial
  · exact hfollows.len

section
variable (hsound : ∀ head, Visits v p₀ g₀ head → head.Sound v)
include hsound

/-- A link of which nothing is delivered has left an error. -/
theorem Visits.unread_errnum (hlink : Visits v p₀ g₀ (.link p g)) (hfew : p.linkCount < maxLinkCount) (hfits : p.Fits g)
    (hslow : ¬ isFastSymlink v g.sized) {fuel : Nat} {buf : Nat → Byte}
    (hread : grubReadLink v fuel g.sized (p.spliced g) = some (0, buf, g')) : g'.errnum ≠ .none := by
  have hempty := (hsound _ hlink hfew hfits).2 hslow
  unfold grubReadLink at hread
  by_cases hkernel : g.measureKernel
  · rw [if_pos (show g.sized.measureKernel = true from hkernel)] at hread
    obtain ⟨hzero, hrest⟩ := Prod.mk.inj (Option.some.inj hread)
    obtain ⟨-, rfl⟩ := Prod.mk.inj hrest
    apply hempty
    rw [DirState.linkLength, if_pos hkernel]
    exact hzero
  · rw [if_neg (show ¬ g.sized.measureKernel = true from hkernel)] at hread
    obtain ⟨⟨t, g₁⟩, hrun, hresult⟩ := Option.bind_eq_some_iff.1 hread
    obtain ⟨hzero, hrest⟩ := Prod.mk.inj (Option.some.inj hresult)
    obtain ⟨-, rfl⟩ := Prod.mk.inj hrest
    intro herr
    rw [if_neg (not_not.2 herr)] at hzero
    have hlength : (g.sized.filemax - g.sized.sanePos).toNat = g.linkLength := by
      rw [DirState.linkLength, if_neg hkernel]
      rfl
    rw [hlength] at hrun
    obtain ⟨fuel', t', g'', hpassed, hlast⟩ := Loop.run_last hrun .first
    have hpiece := hlink.piece hfew hfits hslow hkernel hpassed
    obtain ⟨hlen, hdone⟩ | ⟨hlen, map, g₂, hmap, ⟨hneg, hdone⟩ | ⟨-, t₂, g₂, -, hdone⟩⟩ := readPass_cases hlast
    · cases hdone
      -- the piece with nothing read is the first one
      obtain ⟨rfl, rfl⟩ := first_of_ret hpassed hzero
      exact hempty hlen herr
    · cases hdone
      exact hsound _ hpiece hzero hlen _ _ _ hmap hneg herr
    · cases hdone

end

/-! ## The path -/

theorem faulted_errnum (dev : σ) : (g.faulted v dev).errnum ≠ .none := (v.fault dev).2

/-- A look-up that returns has set an error. -/
theorem lookupInode_errnum {ino : Word} {result : Int} (h : lookupInode v g ino = (some result, g')) : g'.errnum ≠ .none := by
  unfold lookupInode at h
  simp only at h
  split_ifs at h with hdesc hhi hinode
  · cases h
    unfold DirState.rdGroupDesc at hdesc ⊢
    split at hdesc
    · simp at hdesc
    · exact faulted_errnum _
  · cases h
    simp
  · cases h
    generalize DirState.rdGroupDesc v g _ = r at hinode ⊢
    unfold DirState.rdInode at hinode ⊢
    split at hinode
    · simp at hinode
    · exact @faulted_errnum _ v r.2 _
  · cases h

@[simp] theorem relinked_linkCount (p : Path) (buf : Nat → Byte) : (p.relinked buf).linkCount = p.linkCount + 1 := rfl

theorem relinked_length (p : Path) (buf : Nat → Byte) : (p.relinked buf).dirname.length ≤ pathMax := by
  simp only [Path.relinked]
  generalize pathMax = n
  exact (List.takeWhile_prefix _).length_le.trans_eq (Memory.slice_length buf 0 n)

/-- The path goes on with less of the name. -/
theorem rest_length_lt (hmore : ¬ p.dirname.head?.all isspace) : p.rest.length < p.dirname.length := by
  unfold Path.rest Path.skipped
  cases hname : p.dirname with
  | nil => simp [hname] at hmore
  | cons c tail =>
    have hspace : isspace c = false := by simpa [hname] using hmore
    by_cases hslash : c = 0x2F
    · have hrest := (List.dropWhile_suffix (fun c => !isspace c && c ≠ 0x2F) (l := tail.dropWhile (· = 0x2F))).length_le
      have hskip := (List.dropWhile_suffix (fun c : Byte => decide (c = 0x2F)) (l := tail)).length_le
      rw [List.dropWhile_cons_of_pos (by simp [hslash])]
      exact Nat.lt_succ_of_le (hrest.trans hskip)
    · have hrest := (List.dropWhile_suffix (fun c => !isspace c && c ≠ 0x2F) (l := tail)).length_le
      rw [List.dropWhile_cons_of_neg (by simpa using hslash), List.dropWhile_cons_of_pos (by simpa [hspace] using hslash)]
      exact Nat.lt_succ_of_le hrest

theorem LinkCase.next {fuel : Nat} {p' : Path} (h : LinkCase v fuel p g (.next p' g')) :
    p.linkCount < maxLinkCount ∧ p'.linkCount = p.linkCount + 1 ∧ p'.dirname.length ≤ pathMax := by
  generalize hflow : Flow.next p' g' = flow at h
  cases h with
  | loops => cases hflow
  | long => cases hflow
  | fast few =>
    obtain ⟨rfl, -⟩ := Flow.next.inj hflow
    exact ⟨few, relinked_linkCount _ _, relinked_length _ _⟩
  | unread => cases hflow
  | slow few =>
    obtain ⟨rfl, -⟩ := Flow.next.inj hflow
    exact ⟨few, relinked_linkCount _ _, relinked_length _ _⟩

section
variable (hsound : ∀ head, Visits v p₀ g₀ head → head.Sound v)
include hsound

theorem Visits.path_advances (hpath : Visits v p₀ g₀ (.path p g)) : (Head.path p g).Advances v := by
  intro fuel flow hflow
  cases dirPass_cases hflow with
  | unfound lookup => exact .inr (lookupInode_errnum lookup)
  | link lookup islnk follow =>
    have hlink := hpath.link lookup islnk
    cases follow with
    | loops => exact .inr (by simp)
    | long => exact .inr (by simp)
    | fast few => exact .inl ⟨Nat.lt_succ_self _, few⟩
    | unread few fits nonneg slow read =>
      have herr := hlink.unread_errnum hsound few fits slow read
      exact .inr herr
    | slow few => exact .inl ⟨Nat.lt_succ_self _, few⟩
  | ended =>
    unfold atEnd
    split_ifs
    · exact .inr (by simp)
    · exact .inr (by simp)
    · exact .inl rfl
  | noDirectory => exact .inr (by simp)
  | returns lookup notlnk more kind scan =>
    obtain ⟨fuel', loc, g'', hpassed, hlast⟩ := Loop.run_last scan .first
    have hentry := hpath.entry lookup notlnk more kind hpassed
    exact entry_advances_iff.2 (hsound _ hentry) _ _ hlast
  | enters lookup notlnk more kind scan => exact .inr ⟨rfl, rest_length_lt more⟩

theorem Visits.advances {head : Head σ} (hvisits : Visits v p₀ g₀ head) : head.Advances v := by
  cases hvisits with
  | path passed => exact Visits.path_advances hsound (.path passed)
  | link => trivial
  | piece => exact piece_advances _ _
  | entry path lookup notlnk more kind passed => exact entry_advances_iff.2 (hsound _ (path.entry lookup notlnk more kind passed))
  | node visited asks uses magic passed => exact node_advances_iff.2 (hsound _ (visited.node asks uses magic passed))

end

/-! ## The theorem -/

theorem LinkCase.nonneg {fuel : Nat} {flow : Flow Path (DirState σ) Int} (h : LinkCase v fuel p g flow) (hfew : p.linkCount < maxLinkCount)
    (hfits : p.Fits g) : 0 ≤ g.iSize.toInt := by
  cases h with
  | loops many => omega
  | long few wide => exact absurd hfits wide
  | fast few fits nonneg => exact nonneg
  | unread few fits nonneg => exact nonneg
  | slow few fits nonneg => exact nonneg

/-- Blocks of 1024 bytes, with the inodes of the first group in block 3. The root is a
directory of one block, block 4, in which all is zero. -/
def blankDirectory : Image Unit where
  super := ⟨1, 0, 8, 0, 0, 0, 0⟩
  image fsblock i :=
    if fsblock = 2 ∧ i = 2 then 3
    else if fsblock = 3 ∧ i = 32 then 0x4000
    else if fsblock = 3 ∧ i = 33 then 1024
    else if fsblock = 3 ∧ i = 42 then 4
    else 0
  devread _ _ _ := (none, ())
  devreadPart _ _ _ _ := (true, ())
  fault _ := ⟨.read, Disk.GrubError.read_ne_none⟩
  below _ _ := 0
  kernel _ := 0

/-- As `grub_open` leaves the globals. -/
def opened : DirState Unit where
  errnum := .none
  mapblock1 := -1
  mapblock2 := -1
  data _ _ := 0
  dev := ()
  failures := 0
  groupDesc _ := 0
  inode _ := 0
  filemax := 0
  filepos := 0
  measureKernel := false
  printPossibilities := 0
  completions := []

theorem blankDirectory_usable : blankDirectory.super.Usable := by decide +kernel

/-- The volume with the blank directory. -/
def blankVolume : Volume Unit := ⟨blankDirectory, blankDirectory_usable⟩

/-- The scan is at the beginning of the blank directory. -/
structure AtBlank (loc : Word) (g : DirState Unit) : Prop where
  loc : loc = 0
  iSize : g.iSize = 1024
  iBlock : g.iBlock 0 = 4

theorem AtBlank.pass {dirname : List Byte} {ch : Byte} {fuel : Nat} {loc : Word} {g : DirState Unit} (h : AtBlank loc g)
    {flow : Flow Word (DirState Unit) Scanned} (hflow : scanPass blankVolume dirname ch fuel loc g = some flow) :
    ∃ loc' g', flow = .next loc' g' ∧ AtBlank loc' g' := by
  obtain ⟨rfl, hsize, hblock⟩ := h
  have hinside : ¬ g.iSize ≤ 0 := by
    rw [hsize]
    decide
  have hmap {map : Word} {g' : DirState Unit} (hmapped : mapBlock blankVolume fuel g (dirBlock blankVolume 0) = some (map, g')) :
      map = 4 ∧ g' = g := by
    have hdirect : mapBlock blankVolume fuel g (dirBlock blankVolume 0) = some (g.iBlock 0, g) := by rfl
    cases hdirect.symm.trans hmapped
    exact ⟨hblock, rfl⟩
  have hentry : (entryIn blankVolume 4 0).inode = 0 ∧ (entryIn blankVolume 4 0).recLen = 0 := by
    constructor
    · rfl
    · rfl
  cases scanPass_cases hflow with
  | completed past | missing past => exact absurd past hinside
  | unmapped _ mapped negative =>
    rw [(hmap mapped).1] at negative
    exact absurd negative (by decide)
  | @unread _ g' _ _ mapped nonneg read =>
    rw [(hmap mapped).1] at read
    have hread : (g'.rdDirBlock blankVolume 4).1 = true := rfl
    rw [read] at hread
    cases hread
  | passedOver _ mapped =>
    have hinode := (scanPass_cases hflow).next_inode
    refine ⟨_, _, rfl, ?_, ?_, ?_⟩
    · rw [(hmap mapped).1, hentry.2]
      rfl
    · rw [← hsize]
      exact congrFun hinode 1
    · rw [← hblock]
      exact congrFun hinode 10
  | found _ mapped nonneg read stopped =>
    rw [(hmap mapped).1] at stopped
    exact absurd (.inl hentry.1) stopped

end TrustedGrub.Ext2
