import TrustedGrub.Ext2.Resolves
import TrustedGrub.Ext2.Walks

/-!
# When `ext2fs_dir` finds what a path names

`ext2fsDir_resolves_iff`: on a file system that is in order, whatever the drive does, the
file that a path names is found, and an error reported where there is none, exactly if the
blocks fit into the buffers, block numbers have 32 bits, and the path names the same file
with the texts of links as the code gets them and sizes as the code tests them.
-/

namespace TrustedGrub.Ext2
open Fips180 (Byte Word)
open Disk (isspace)
open Loop (Flow Yields run)
open Resolution (System Walker)

variable {σ : Type} {v : Volume σ} {g g' : DirState σ}

/-! ## A drive without faults -/

/-- Every read is answered. -/
structure Healthy (v : Volume σ) : Prop where
  devread : ∀ dev fsblock buffer, (v.devread dev fsblock buffer).1 = none
  devreadPart : ∀ dev map offset size, (v.devreadPart dev map offset size).1 = true

namespace Healthy
variable (h : Healthy v)
include h

theorem rdfsb (fs : Fs σ) (hfs : fs.devread = v.devread) (s : State σ) (fsblock : Word) (buffer : Buffer) :
    (Ext2.rdfsb fs s fsblock buffer).1 = true ∧ (Ext2.rdfsb fs s fsblock buffer).2.failures = s.failures := by
  have hread := h.devread s.dev fsblock (s.data buffer)
  unfold Ext2.rdfsb
  rw [hfs]
  cases hcase : v.devread s.dev fsblock (s.data buffer) with
  | mk outcome dev =>
    rw [hcase] at hread
    obtain rfl : outcome = none := hread
    exact ⟨rfl, rfl⟩

theorem load1 (fs : Fs σ) (hfs : fs.devread = v.devread) (s : State σ) (key : Nat) :
    (Ext2.load1 fs s key).1 = true ∧ (Ext2.load1 fs s key).2.failures = s.failures := by
  unfold Ext2.load1
  split
  · exact h.rdfsb fs hfs _ _ _
  · exact ⟨rfl, rfl⟩

theorem load2 (fs : Fs σ) (hfs : fs.devread = v.devread) (s : State σ) (bnum : Word) :
    (Ext2.load2 fs s bnum).1 = true ∧ (Ext2.load2 fs s bnum).2.failures = s.failures := by
  unfold Ext2.load2
  split
  · exact h.rdfsb fs hfs _ _ _
  · exact ⟨rfl, rfl⟩

theorem blockMap (fs : Fs σ) (hfs : fs.devread = v.devread) (s : State σ) (n : Nat) : (Ext2.blockMap fs s n).2.failures = s.failures := by
  simp only [Ext2.blockMap]
  split
  · rfl
  split
  · simp only [mapSingle, (h.load1 fs hfs _ _).1, Bool.not_true, Bool.false_eq_true, if_false, (h.load1 fs hfs _ _).2]
  split
  · simp only [mapDouble, (h.load1 fs hfs _ _).1, (h.load2 fs hfs _ _).1, Bool.not_true, Bool.false_eq_true, if_false,
      (h.load2 fs hfs _ _).2, (h.load1 fs hfs _ _).2]
  · simp only [mapTriple, (h.load1 fs hfs _ _).1, (h.rdfsb fs hfs _ _ _).1, Bool.not_true, Bool.false_eq_true, if_false,
      (h.rdfsb fs hfs _ _ _).2, (h.load1 fs hfs _ _).2]

theorem ext4fsBlockMap (fs : Fs σ) (hfs : fs.devread = v.devread) {fuel : Nat} {s s' : State σ} {logical map : Word}
    (hmap : Ext2.ext4fsBlockMap fs fuel s logical = some (map, s')) : s'.failures = s.failures := by
  have hpass {fuel : Nat} {eh : Node} {s : State σ} {flow : Flow Node (State σ) (Option Node)}
      (hflow : descendPass fs logical fuel eh s = some flow) : flow.state.failures = s.failures := by
    unfold descendPass at hflow
    split_ifs at hflow
    · obtain rfl := Option.some.inj hflow
      rfl
    · obtain rfl := Option.some.inj hflow
      rfl
    · obtain ⟨ei, -, hflow⟩ := Option.bind_eq_some_iff.1 hflow
      split_ifs at hflow
      · obtain rfl := Option.some.inj hflow
        rfl
      · simp only [(h.rdfsb fs hfs _ _ _).1, Bool.not_true, Bool.false_eq_true, if_false] at hflow
        obtain rfl := Option.some.inj hflow
        exact (h.rdfsb fs hfs _ _ _).2
  unfold Ext2.ext4fsBlockMap at hmap
  split_ifs at hmap
  · cases hmap
    rfl
  · obtain ⟨⟨leaf, s₁⟩, hdescend, hmap⟩ := Option.bind_eq_some_iff.1 hmap
    rw [descend_eq_run] at hdescend
    have hkept : s₁.failures = s.failures := Loop.run_same hpass hdescend
    cases leaf with
    | none =>
      cases hmap
      exact hkept
    | some eh =>
      obtain ⟨ex, -, hmap⟩ := Option.bind_eq_some_iff.1 hmap
      have hfailures := atLeaf_failures s₁ logical eh ex
      rw [Option.some.inj hmap] at hfailures
      exact hfailures.trans hkept

theorem mapBlock {fuel : Nat} {logical map : Word} (hmap : Ext2.mapBlock v fuel g logical = some (map, g')) : g'.failures = g.failures := by
  unfold Ext2.mapBlock at hmap
  split_ifs at hmap
  · obtain ⟨⟨map', s⟩, hblock, hmap⟩ := Option.bind_eq_some_iff.1 hmap
    cases hmap
    exact h.ext4fsBlockMap (v.fs g) rfl hblock
  · cases hmap
    rfl
  · have hblock := h.blockMap (v.fs g) rfl g.toState logical.toNat
    cases hmap
    exact hblock

theorem readPass {fuel : Nat} {t : Piece} {flow : Flow Piece (DirState σ) Piece} (hflow : Ext2.readPass v fuel t g = some flow) :
    flow.state.failures = g.failures := by
  unfold Ext2.readPass at hflow
  split_ifs at hflow
  · cases hflow
    rfl
  · obtain ⟨⟨map, g₁⟩, hmap, hflow⟩ := Option.bind_eq_some_iff.1 hflow
    have hkept := h.mapBlock hmap
    simp only [h.devreadPart, if_true] at hflow
    split_ifs at hflow
    all_goals
      obtain rfl := Option.some.inj hflow
      exact hkept

theorem scanPass {dirname : List Byte} {ch : Byte} {fuel : Nat} {loc : Word} {flow : Flow Word (DirState σ) Scanned}
    (hflow : Ext2.scanPass v dirname ch fuel loc g = some flow) : flow.state.failures = g.failures := by
  have hdir {map : Word} {g₁ : DirState σ} {ok : Bool} {s : State σ} (hread : g₁.rdDirBlock v map = (ok, s)) :
      ok = true ∧ s.failures = g₁.failures := by
    have hrd := h.rdfsb (v.fs g₁) rfl { g₁.toState with mapblock2 := -1 } map .datablock2
    rw [show Ext2.rdfsb (v.fs g₁) { g₁.toState with mapblock2 := -1 } map .datablock2 = (ok, s) from hread] at hrd
    exact hrd
  have hoffer (g₁ : DirState σ) (name : List Byte) : (g₁.offer dirname ch name).failures = g₁.failures := by
    unfold DirState.offer
    split <;> rfl
  cases scanPass_cases hflow with
  | completed => rfl
  | missing => rfl
  | unmapped _ mapped =>
    have hkept := h.mapBlock mapped
    exact hkept
  | unread _ _ _ read => exact absurd (hdir read).1 (by decide)
  | passedOver _ mapped _ read _ after =>
    have hkept := (hdir read).2.trans (h.mapBlock mapped)
    obtain rfl | rfl := after
    · exact hkept
    · exact (hoffer _ _).trans hkept
  | found _ mapped _ read => exact (hoffer _ _).trans ((hdir read).2.trans (h.mapBlock mapped))

theorem lookupInode (ino : Word) : (Ext2.lookupInode v g ino).2.failures = g.failures := by
  have hgroup (g : DirState σ) (fsblock : Word) :
      (g.rdGroupDesc v fsblock).1 = true ∧ (g.rdGroupDesc v fsblock).2.failures = g.failures := by
    have hread := h.devread g.dev fsblock g.groupDesc
    unfold DirState.rdGroupDesc
    split
    · exact ⟨rfl, rfl⟩
    · simp_all
  have hinode (g : DirState σ) (fsblock : Word) : (g.rdInode v fsblock).1 = true ∧ (g.rdInode v fsblock).2.failures = g.failures := by
    have hread := h.devread g.dev fsblock g.inode
    unfold DirState.rdInode
    split
    · exact ⟨rfl, rfl⟩
    · simp_all
  simp only [Ext2.lookupInode, (hgroup _ _).1, (hinode _ _).1, Bool.not_true, Bool.false_eq_true, if_false]
  split
  · exact (hgroup _ _).2
  · exact (hinode _ _).2.trans (hgroup _ _).2

theorem grubReadLink {fuel len : Nat} {buf buf' : Nat → Byte} (hread : Ext2.grubReadLink v fuel g buf = some (len, buf', g')) :
    g'.failures = g.failures := by
  unfold Ext2.grubReadLink at hread
  split_ifs at hread
  · cases hread
    rfl
  · obtain ⟨⟨t, g₁⟩, hrun, hread⟩ := Option.bind_eq_some_iff.1 hread
    cases hread
    have hkept := Loop.run_same (f := fun g : DirState σ => g.failures) h.readPass hrun
    exact hkept

theorem dirPass {fuel : Nat} {p : Path} {flow : Flow Path (DirState σ) Int} (hflow : Ext2.dirPass v fuel p g = some flow) :
    flow.state.failures = g.failures := by
  have hlook {returned : Option Int} {g₁ : DirState σ} (hlookup : Ext2.lookupInode v g p.currentIno = (returned, g₁)) :
      g₁.failures = g.failures := by
    have hkept := congrArg (fun r => r.2.failures) hlookup
    exact hkept.symm.trans (h.lookupInode p.currentIno)
  have hscan {fuel : Nat} {name : List Byte} {ch : Byte} {g₁ g₂ : DirState σ} {r : Scanned}
      (hrun : run (Ext2.scanPass v name ch) fuel 0 g₁ = some (r, g₂)) : g₂.failures = g₁.failures :=
    Loop.run_same (f := fun g : DirState σ => g.failures) h.scanPass hrun
  cases dirPass_cases hflow with
  | unfound lookup => exact hlook lookup
  | link lookup _ follow =>
    refine Eq.trans ?_ (hlook lookup)
    cases follow with
    | loops => rfl
    | long => rfl
    | fast => rfl
    | unread _ _ _ _ read =>
      have hkept := h.grubReadLink read
      exact hkept
    | slow _ _ _ _ read =>
      have hkept := h.grubReadLink read
      exact hkept
  | ended lookup =>
    refine Eq.trans ?_ (hlook lookup)
    unfold atEnd
    split_ifs <;> rfl
  | noDirectory lookup =>
    have hkept := hlook lookup
    exact hkept
  | returns lookup _ _ _ scan => exact (hscan scan).trans (hlook lookup)
  | enters lookup _ _ _ scan => exact (hscan scan).trans (hlook lookup)

/-- No read fails. -/
theorem yields {p : Path} {r : Int} (hyields : Yields (Ext2.dirPass v) p g r g') : g'.failures = g.failures := by
  obtain ⟨fuel, hrun⟩ := hyields
  exact Loop.run_same (f := fun g : DirState σ => g.failures) h.dirPass hrun

end Healthy

/-! ## What a path names -/

/-- The volume on another drive. -/
def Image.onDrive (d : Image σ) (devread : σ → Word → (Nat → Word) → Option (Nat → Word) × σ)
    (devreadPart : σ → Word → Nat → Nat → Bool × σ) : Image σ :=
  { d with devread := devread, devreadPart := devreadPart }

def Volume.onDrive (v : Volume σ) (devread : σ → Word → (Nat → Word) → Option (Nat → Word) × σ)
    (devreadPart : σ → Word → Nat → Nat → Bool × σ) : Volume σ :=
  ⟨v.toImage.onDrive devread devreadPart, v.usable⟩

variable {d : Image σ} {inUse : Word → Prop} {node : Word → Resolution.Node Word Byte} {dirname : List Byte}

/-- What is to come of a path: where a value other than zero is returned, a file of a size
that fits has been found; where zero is returned, there is an error, and if no read has
failed, there is no such file. -/
structure Resolved (d : Image σ) (node : Word → Resolution.Node Word Byte) (dirname : List Byte) (g : DirState σ) (result : Int)
    (g' : DirState σ) : Prop where
  found : result ≠ 0 → g'.failures = g.failures ∧ g'.errnum = .none ∧ ∃ ino size,
    (pathSystem node).NamesFile (pathOfText dirname) ino size ∧ size < 2 ^ 31 ∧ g'.inode = d.inode ino ∧ g'.filemax = size
  missed : result = 0 → g'.errnum ≠ .none ∧
    (g'.failures = g.failures → ∀ ino size, (pathSystem node).NamesFile (pathOfText dirname) ino size → ¬ size < 2 ^ 31)

/-- Where the code finds what a path names. -/
structure Resolvable (d : Image σ) (node : Word → Resolution.Node Word Byte) (kernel : Bool) (dirname : List Byte) : Prop where
  narrow : d.super.hasIncompatFeature incompat64bit = false
  /-- An inode of a fitting size is named exactly if it is named with the texts of links as
  the code gets them, and not refused. -/
  same : ∀ t, (∃ ino size, (pathSystem node).NamesFile (pathOfText dirname) ino size ∧ size < 2 ^ 31 ∧ d.inode ino = t) ↔
    ∃ ino size, (d.takenSystem kernel node).NamesFile (pathOfText dirname) ino size ∧ ¬ Refused t ∧ d.inode ino = t

/-! ## On another drive -/

section
variable (devread : σ → Word → (Nat → Word) → Option (Nat → Word) × σ) (devreadPart : σ → Word → Nat → Nat → Bool × σ)

theorem BlockAt.onDrive {t : Nat → Word} {n : Nat} {b : Word} (h : BlockAt d t n b) : BlockAt (d.onDrive devread devreadPart) t n b := by
  cases h with
  | pointers plain inReach pointed walk => exact .pointers plain inReach pointed walk
  | extents inTree stored entries leads covering start isBlock => exact .extents inTree stored entries leads covering start isBlock

theorem Listing.onDrive {t : Nat → Word} {size loc : Nat} {es : List DirEntry} (h : Listing d t size loc es) :
    Listing (d.onDrive devread devreadPart) t size loc es := by
  induction h with
  | done => exact .done
  | entry inside blockAt eq room fits named _ ih => exact .entry inside (blockAt.onDrive devread devreadPart) eq room fits named ih

theorem OnDisk.onDrive {t : Nat → Word} {n : Resolution.Node Word Byte} (h : OnDisk d t n) :
    OnDisk (d.onDrive devread devreadPart) t n := by
  cases h with
  | file type => exact .file type
  | dir type size_pos size_lt listing => exact .dir type size_pos size_lt (listing.onDrive devread devreadPart)
  | fastLink type size_pos size_le fast text clean => exact .fastLink type size_pos size_le fast text clean
  | slowLink type size_pos size_le slow blockAt text clean =>
    exact .slowLink type size_pos size_le slow (blockAt.onDrive devread devreadPart) text clean
  | other type => exact .other type

theorem Consistent.onDrive (h : Consistent d inUse node) : Consistent (d.onDrive devread devreadPart) inUse node where
  features := h.features
  blockSize := h.blockSize
  descSize := h.descSize
  inodeSize := h.inodeSize
  inodesPerGroup := h.inodesPerGroup
  inodesPerBlock := h.inodesPerBlock
  groups := h.groups
  near := h.near
  root := h.root
  onDisk ino hino := (h.onDisk ino hino).onDrive devread devreadPart
  closed := h.closed

theorem Walked.ofDrive {sys : System Word Byte} {w : Walker Word Byte} {r : Int} (h : Walked (d.onDrive devread devreadPart) sys w g r g') :
    Walked d sys w g r g' := by
  cases h with
  | broken broken => exact .broken broken
  | missed comes nothing failures errnum => exact .missed comes nothing failures errnum
  | opened comes opens opened => exact .opened comes opens ⟨opened.failures, opened.errnum, opened.inode, opened.filemax⟩

end

/-! ## The theorem -/

/-- A walk stays in use. -/
theorem Consistent.reaches (hc : Consistent d inUse node) {w : Walker Word Byte} {path : List Byte}
    (h : (pathSystem node).Reaches ((pathSystem node).start path) w) : inUse w.ino ∧ inUse w.up := by
  induction h with
  | refl => exact ⟨hc.root, hc.root⟩
  | @tail w w' _ hstep ih =>
    have horigin (target : List Byte) : inUse ((pathSystem node).origin w.up target) := by
      unfold System.origin
      split_ifs
      · exact hc.root
      · exact ih.2
    unfold System.step at hstep
    split at hstep
    next entries hnode =>
      split_ifs at hstep
      obtain ⟨ino, hlookup, rfl⟩ := Option.map_eq_some_iff.1 hstep
      obtain ⟨l₁, l₂, hl, -⟩ := List.lookup_eq_some_iff.1 hlookup
      exact ⟨hc.closed w.ino entries ih.1 hnode _ (hl ▸ List.mem_append_right _ (List.mem_cons_self ..)), ih.1⟩
    next target _ =>
      split_ifs at hstep
      obtain rfl := Option.some.inj hstep
      exact ⟨horigin target, horigin target⟩
    · cases hstep
    · cases hstep

/-- The size of a file that is named is the one in its inode. -/
theorem Consistent.size_eq (hc : Consistent d inUse node) {path : List Byte} {ino : Word} {size : Nat}
    (h : (pathSystem node).NamesFile path ino size) : size = fileSize (d.inode ino) := by
  obtain ⟨hnode, w, hreaches, rfl, -⟩ := h
  have hdisk := hc.onDisk w.ino (hc.reaches hreaches).1
  rw [show node w.ino = .file size from hnode] at hdisk
  cases hdisk with
  | file => rfl

theorem filemax_eq {t : Nat → Word} {size : Nat} (hsize : size = fileSize t) (hlt : size < 2 ^ 31) : (t 1).toInt = size := by
  unfold fileSize at hsize
  rw [BitVec.toInt_eq_toNat_of_lt (by omega)]
  omega

theorem sim_start (hc : Consistent d inUse node) (linkbuf : Nat → Byte) (hlength : dirname.length < 2 ^ 31) (sys : System Word Byte)
    (hroot : sys.root = rootIno) : Sim inUse (sys.start (pathOfText dirname)) (.start dirname linkbuf) where
  ino := hroot.symm
  up := hroot.symm
  path := rfl
  links := rfl
  length := Nat.lt_of_le_of_lt (List.takeWhile_prefix _).length_le hlength
  used := show inUse sys.root from hroot ▸ hc.root
  usedUp := show inUse sys.root from hroot ▸ hc.root

/-- What the walk comes to is named by the path. -/
theorem opens_iff {sys : System Word Byte} {path : List Byte} {w : Walker Word Byte} (hcomes : sys.Comes (sys.start path) w)
    {t : Nat → Word} :
    (∃ ino size, sys.NamesFile path ino size ∧ ¬ Refused t ∧ d.inode ino = t) ↔ Opens d sys w ∧ d.inode w.ino = t := by
  constructor
  · rintro ⟨ino, size, hnames, haccepted, rfl⟩
    obtain ⟨rfl, hpath, hnode⟩ := (System.namesFile_iff hcomes).1 hnames
    exact ⟨⟨hpath, ⟨size, hnode⟩, haccepted⟩, rfl⟩
  · rintro ⟨⟨hpath, ⟨size, hnode⟩, haccepted⟩, rfl⟩
    exact ⟨w.ino, size, (System.namesFile_iff hcomes).2 ⟨rfl, hpath, hnode⟩, haccepted, rfl⟩

theorem Walked.resolved (hc : Consistent d inUse node) {kernel : Bool} (h : Resolvable d node kernel dirname) {r : Int}
    (hwalked : Walked d (d.takenSystem kernel node) ((d.takenSystem kernel node).start (pathOfText dirname)) g r g') :
    Resolved d node dirname g r g' := by
  cases hwalked with
  | broken broken =>
    exact ⟨fun hne => absurd rfl hne, fun _ => ⟨broken.errnum, fun hsame => absurd hsame (Nat.ne_of_gt broken.failures)⟩⟩
  | missed comes nothing failures errnum =>
    refine ⟨fun hne => absurd rfl hne, fun _ => ⟨errnum, fun _ ino size hnames hlt => ?_⟩⟩
    have htaken := (h.same (d.inode ino)).1 ⟨ino, size, hnames, hlt, rfl⟩
    exact nothing ((opens_iff comes).1 htaken).1
  | @opened w' _ comes opens opened =>
    refine ⟨fun _ => ⟨opened.failures, opened.errnum, ?_⟩, fun hzero => absurd hzero (by decide)⟩
    obtain ⟨ino, size, hnames, hlt, hinode⟩ := (h.same (d.inode w'.ino)).2 ((opens_iff comes).2 ⟨opens, rfl⟩)
    refine ⟨ino, size, hnames, hlt, opened.inode.trans hinode.symm, ?_⟩
    rw [opened.filemax, ← hinode]
    exact filemax_eq (hc.size_eq hnames) hlt

/-- With the feature the upper half of the inode table's number is tested the wrong way round. -/
theorem Consistent.wide (hc : Consistent v.toImage inUse node) (hhealthy : Healthy v)
    (hwide : v.super.hasIncompatFeature incompat64bit = true) {p : Path} (hp : p.currentIno = rootIno) :
    ∃ g', Yields (dirPass v) p g (-1) g' ∧ g'.errnum ≠ .none := by
  have hlookup : ∃ g', Ext2.lookupInode v g rootIno = (some (-1), g') ∧ g'.errnum ≠ .none := by
    have hread := hhealthy.devread g.dev (v.super.descBlock (v.super.groupOf rootIno)) g.groupDesc
    have hhi := hc.near hwide rootIno hc.root
    simp only [Image.inodeTableHi] at hhi
    cases hcase : v.devread g.dev (v.super.descBlock (v.super.groupOf rootIno)) g.groupDesc with
    | mk outcome dev =>
      rw [hcase] at hread
      obtain rfl : outcome = none := hread
      refine ⟨{ g with groupDesc := v.image (v.super.descBlock (v.super.groupOf rootIno)), dev := dev, errnum := .filelength }, ?_, nofun⟩
      simp only [Ext2.lookupInode, hc.groupDesc_eq hc.root, hc.desc_eq hc.root, DirState.rdGroupDesc, hcase, Bool.not_true,
        Bool.false_eq_true,
        if_false, hwide, hhi, and_self, if_true]
  obtain ⟨g', hlookup, herr⟩ := hlookup
  have hpass : dirPass v 0 p g = some (.done (-1) g') := by simp only [dirPass, hp, hlookup]
  exact ⟨g', .done hpass, herr⟩

theorem Walked.same {kernel : Bool} {r : Int} (hsame : g'.failures = g.failures)
    (hwalked : Walked d (d.takenSystem kernel node) ((d.takenSystem kernel node).start (pathOfText dirname)) g r g')
    (h : Resolved d node dirname g r g') (t : Nat → Word) :
    (∃ ino size, (pathSystem node).NamesFile (pathOfText dirname) ino size ∧ size < 2 ^ 31 ∧ d.inode ino = t) ↔
      ∃ ino size, (d.takenSystem kernel node).NamesFile (pathOfText dirname) ino size ∧ ¬ Refused t ∧ d.inode ino = t := by
  cases hwalked with
  | broken broken => exact absurd hsame (Nat.ne_of_gt broken.failures)
  | missed comes nothing =>
    rw [opens_iff comes]
    constructor
    · rintro ⟨ino, size, hnames, hlt, -⟩
      exact absurd hlt ((h.missed rfl).2 hsame ino size hnames)
    · exact fun hopens => absurd hopens.1 nothing
  | opened comes opens opened =>
    obtain ⟨-, -, ino, size, hnames, hlt, hinode, -⟩ := h.found (by decide)
    rw [opens_iff comes]
    constructor
    · rintro ⟨ino', size', hnames', -, rfl⟩
      obtain rfl := hnames.unique hnames'
      exact ⟨opens, opened.inode.symm.trans hinode⟩
    · rintro ⟨-, rfl⟩
      exact ⟨ino, size, hnames, hlt, hinode.symm.trans opened.inode⟩

/-- **What a path names** is found, whatever the drive does, exactly where block numbers have
32 bits and the path names the same file, if it is of a size that fits, with the texts of
links as `ext2fs_dir` gets them and the test it makes of the size. -/
theorem ext2fsDir_resolves_iff (hc : Consistent v.toImage inUse node) {kernel : Bool} (hready : Ready kernel g) (linkbuf : Nat → Byte)
    (hlength : dirname.length < 2 ^ 31) :
    (∀ devread devreadPart, ∃ fuel result g', ext2fsDir (v.onDrive devread devreadPart) fuel linkbuf dirname g = some (result, g') ∧
      Resolved v.toImage node dirname g result g') ↔ Resolvable v.toImage node kernel dirname := by
  constructor
  · intro hall
    obtain ⟨fuel, result, g', hrun, hresolved⟩ := hall (fun dev _ _ => (none, dev)) fun dev _ _ _ => (true, dev)
    have hc' := hc.onDrive (fun dev _ _ => (none, dev)) fun dev _ _ _ => (true, dev)
    have hdir :
        Yields (dirPass (v.onDrive (fun dev _ _ => (none, dev)) fun dev _ _ _ => (true, dev))) (.start dirname linkbuf) g result g' :=
      ⟨fuel, hrun⟩
    have hhealthy : Healthy (v.onDrive (fun dev _ _ => (none, dev)) fun dev _ _ _ => (true, dev)) :=
      ⟨fun _ _ _ => rfl, fun _ _ _ _ => rfl⟩
    have hnarrow : v.super.hasIncompatFeature incompat64bit = false := by
      rw [← Bool.not_eq_true]
      intro hwide
      obtain ⟨g'', hyields, herr⟩ := @Consistent.wide _ _ g _ _ hc' hhealthy hwide (.start dirname linkbuf) rfl
      obtain ⟨rfl, rfl⟩ := hyields.unique (dirPass_steady _) hdir
      exact herr (hresolved.found (by decide)).2.1
    refine ⟨hnarrow, ?_⟩
    have hstart := sim_start hc' linkbuf hlength (v.takenSystem kernel node) rfl
    obtain ⟨r, g'', hyields, hwalked⟩ := @dir_walk _ (v.onDrive _ _) kernel _ _ _ hc' hnarrow _ _ hstart hready
    obtain ⟨rfl, rfl⟩ := hyields.unique (dirPass_steady _) hdir
    exact Walked.same (hhealthy.yields hyields) (Walked.ofDrive _ _ hwalked) hresolved
  · intro h devread devreadPart
    have hc' := hc.onDrive devread devreadPart
    have hstart := sim_start hc' linkbuf hlength (v.takenSystem kernel node) rfl
    obtain ⟨r, g', ⟨fuel, hrun⟩, hwalked⟩ := @dir_walk _ (v.onDrive devread devreadPart) kernel _ _ _ hc' h.narrow _ _ hstart hready
    exact ⟨fuel, r, g', hrun, (Walked.ofDrive _ _ hwalked).resolved hc h⟩

section Examples

/-- Blocks of 1024 bytes, with the descriptors in block 2 and the inodes in block 3. The root
has one entry, `a`, for inode 3, which is a file. -/
def sampleImage (incompat : Word) (sizeHigh : Word) : Image Unit where
  super := ⟨1, 0, 8, 0, 0, incompat, 64⟩
  image fsblock i :=
    if fsblock = 2 ∧ i = 2 then 3
    else if fsblock = 3 ∧ i = 32 then 0x4000
    else if fsblock = 3 ∧ i = 33 then 1024
    else if fsblock = 3 ∧ i = 42 then 4
    else if fsblock = 3 ∧ i = 64 then 0x8000
    else if fsblock = 3 ∧ i = 65 then 5
    else if fsblock = 3 ∧ i = 91 then sizeHigh
    else if fsblock = 4 ∧ i = 0 then 3
    else if fsblock = 4 ∧ i = 1 then 0x00010400
    else if fsblock = 4 ∧ i = 2 then 0x61
    else 0
  devread _ _ _ := (none, ())
  devreadPart _ _ _ _ := (true, ())
  fault _ := ⟨.read, Disk.GrubError.read_ne_none⟩
  below _ _ := 0
  kernel _ := 0

/-- The image as the code mounts it. -/
def sampleVolume (incompat : Word) (sizeHigh : Word) (h : (⟨1, 0, 8, 0, 0, incompat, 64⟩ : Superblock).Usable) : Volume Unit :=
  ⟨sampleImage incompat sizeHigh, h⟩

theorem plain_usable : (⟨1, 0, 8, 0, 0, 0, 64⟩ : Superblock).Usable := by decide +kernel

theorem wide_usable : (⟨1, 0, 8, 0, 0, incompat64bit, 64⟩ : Superblock).Usable := by decide +kernel

/-- The tree on it. -/
def sampleNode (size : Nat) (ino : Word) : Resolution.Node Word Byte :=
  if ino = 2 then .dir [([0x61], 3)] else if ino = 3 then .file size else .other

theorem sampleImage_listing {incompat sizeHigh : Word}
    (h : incompat = 0 ∧ sizeHigh = 0 ∨ incompat = incompat64bit ∧ sizeHigh = 0 ∨ incompat = 0 ∧ sizeHigh = 1) :
    Listing (sampleImage incompat sizeHigh) ((sampleImage incompat sizeHigh).inode 2) 1024 0 [⟨3, 1024, [0x61]⟩] := by
  obtain ⟨rfl, rfl⟩ | ⟨rfl, rfl⟩ | ⟨rfl, rfl⟩ := h
  all_goals
    apply @Listing.entry _ _ _ _ _ 4
    case blockAt =>
      apply BlockAt.pointers
      · decide +kernel
      · unfold Fs.InReach
        decide +kernel
      · decide +kernel
      · decide +kernel
    case eq => rfl
    case rest => exact .done
    all_goals decide +kernel

theorem sampleImage_consistent {incompat sizeHigh : Word}
    (h : incompat = 0 ∧ sizeHigh = 0 ∨ incompat = incompat64bit ∧ sizeHigh = 0 ∨ incompat = 0 ∧ sizeHigh = 1) :
    Consistent (sampleImage incompat sizeHigh) (fun ino => ino = 2 ∨ ino = 3) (sampleNode (5 + 2 ^ 32 * sizeHigh.toNat)) := by
  have hlisting := sampleImage_listing h
  constructor
  case onDisk =>
    obtain ⟨rfl, rfl⟩ | ⟨rfl, rfl⟩ | ⟨rfl, rfl⟩ := h
    all_goals
      rintro ino (rfl | rfl)
      · exact .dir (by decide +kernel) (by decide +kernel) (by decide +kernel) hlisting
      · exact .file (by decide +kernel)
  case groups =>
    obtain ⟨rfl, rfl⟩ | ⟨rfl, rfl⟩ | ⟨rfl, rfl⟩ := h
    all_goals
      rintro ino (rfl | rfl)
      · decide +kernel
      · decide +kernel
  case near =>
    obtain ⟨rfl, rfl⟩ | ⟨rfl, rfl⟩ | ⟨rfl, rfl⟩ := h
    all_goals
      rintro - ino (rfl | rfl)
      · decide +kernel
      · decide +kernel
  case root => exact .inl rfl
  case closed =>
    rintro ino entries (rfl | rfl) hnode
    · obtain rfl := Resolution.Node.dir.inj hnode
      rintro e he
      obtain rfl := List.mem_singleton.1 he
      exact .inr rfl
    · cases hnode
  case descSize =>
    obtain ⟨rfl, rfl⟩ | ⟨rfl, rfl⟩ | ⟨rfl, rfl⟩ := h
    · exact ⟨5, by decide +kernel⟩
    · exact ⟨6, by decide +kernel⟩
    · exact ⟨5, by decide +kernel⟩
  case inodeSize =>
    refine ⟨7, ?_, rfl⟩
    show 7 ≤ (0 + 10) % 32
    decide
  case blockSize =>
    show 10 ≤ (0 + 10) % 32 ∧ (0 + 10) % 32 ≤ 13
    decide
  case features =>
    obtain ⟨rfl, rfl⟩ | ⟨rfl, rfl⟩ | ⟨rfl, rfl⟩ := h
    all_goals decide
  case inodesPerGroup =>
    show (8 : Word) ≠ 0
    decide
  case inodesPerBlock =>
    show 2 ^ ((0 + 10) % 32) / 128 ∣ 8
    decide

theorem opened_ready : Ready false opened := by
  constructor <;> rfl

/-- The path `/a`. -/
def pathA : List Byte := [0x2F, 0x61]

/-- The path names a small file. -/
theorem ext2fsDir_resolves_iff_pathA :
    (∀ devread devreadPart, ∃ fuel result g',
      ext2fsDir ((sampleVolume 0 0 plain_usable).onDrive devread devreadPart) fuel (fun _ => 0) pathA opened =
      some (result, g') ∧ Resolved (sampleImage 0 0) (sampleNode 5) pathA opened result g') ↔
        Resolvable (sampleImage 0 0) (sampleNode 5) false pathA :=
  @ext2fsDir_resolves_iff _ (sampleVolume 0 0 plain_usable) _ _ _ _ (sampleImage_consistent (.inl ⟨rfl, rfl⟩)) _ opened_ready _ (by decide)

/-- With 64-bit block numbers the return value is `-1`. And of a file of more than 4 GiB the
lower half of the size is taken for the size. -/
theorem sampleImage_misresolved :
    (Consistent (sampleImage incompat64bit 0) (fun ino => ino = 2 ∨ ino = 3) (sampleNode 5) ∧
      (ext2fsDir (sampleVolume incompat64bit 0 wide_usable) 4 (fun _ => 0) pathA opened).map (fun r => (r.1, r.2.errnum)) =
        some (-1, .filelength)) ∧
    (Consistent (sampleImage 0 1) (fun ino => ino = 2 ∨ ino = 3) (sampleNode (2 ^ 32 + 5)) ∧
      (ext2fsDir (sampleVolume 0 1 plain_usable) 4 (fun _ => 0) pathA opened).map (fun r => (r.1, r.2.errnum, r.2.filemax)) =
        some (1, .none, 5)) := by
  refine ⟨⟨sampleImage_consistent (.inr (.inl ⟨rfl, rfl⟩)), ?_⟩, sampleImage_consistent (.inr (.inr ⟨rfl, rfl⟩)), ?_⟩
  · decide +kernel
  · decide +kernel

end Examples

end TrustedGrub.Ext2
