import TrustedGrub.Ext2.Dir

/-!
# The loops of `ext2fs_dir`, pass by pass

What a pass of each loop comes to. A pass with more fuel comes to the same, and it comes to
something where the loops in it end.
-/

namespace TrustedGrub.Ext2
open Fips180 (Byte Word)
open Loop (Before Body Ends Flow Passed Steady run run_steady)
open Disk (isspace)
open Memory (slice store)

variable {σ : Type} {v : Volume σ} {fs : Fs σ} {g g' : DirState σ} {s : State σ}

/-! ## Index blocks -/

/-- A pass of the loop of `ext4fs_block_map`. -/
def descendPass (fs : Fs σ) (logicalBlock : Word) : Body Node (State σ) (Option Node) := fun _ eh s =>
  if ehDepth eh = 0 then some (.done (some eh) s)
  else if ehMagic eh ≠ extMagic then some (.done none s.corrupt.2)
  else do
    let ei ← ext4ExtBinsearchIdx eh logicalBlock
    if eiLeafHi eh ei ≠ 0 then some (.done none s.filelength.2)
    else
      let (ok, s) := rdfsb fs s (eiLeafLo eh ei) .datablock1
      some (if !ok then .done none s.corrupt.2 else .next (s.data .datablock1) s)

theorem descend_eq_run (fs : Fs σ) (logical : Word) (fuel : Nat) (eh : Node) (s : State σ) :
    descend fs logical fuel eh s = run (descendPass fs logical) fuel eh s := by
  induction fuel generalizing eh s with
  | zero => rfl
  | succ fuel ih =>
    simp only [descend, run, descendPass]
    split_ifs with hleaf hmagic
    · rfl
    · rfl
    · cases hei : ext4ExtBinsearchIdx eh logical with
      | none => rfl
      | some ei =>
        simp only [Option.bind_eq_bind, Option.bind_some]
        split_ifs with hfar hfailed
        · rfl
        · rfl
        · exact ih _ _

theorem descendPass_steady (fs : Fs σ) (logical : Word) : Steady (descendPass fs logical) := by
  intro fuel fuel' _ eh s
  exact Before.refl _

theorem ext4fsBlockMap_before (fs : Fs σ) {fuel fuel' : Nat} (hle : fuel ≤ fuel') (s : State σ) (logical : Word) :
    Before (ext4fsBlockMap fs fuel s logical) (ext4fsBlockMap fs fuel' s logical) := by
  apply Before.guard
  apply Before.bind
  rw [descend_eq_run, descend_eq_run]
  exact run_steady (descendPass_steady fs logical) hle _ _

theorem mapBlock_before (v : Volume σ) {fuel fuel' : Nat} (hle : fuel ≤ fuel') (g : DirState σ) (logical : Word) :
    Before (mapBlock v fuel g logical) (mapBlock v fuel' g logical) := by
  apply Before.ite
  · intro _
    apply Before.bind
    exact ext4fsBlockMap_before _ hle _ _
  · exact fun _ => Before.refl _

/-- What a block map leaves alone. -/
structure Mapped (g g' : DirState σ) : Prop where
  inode : g'.inode = g.inode
  filepos : g'.filepos = g.filepos
  filemax : g'.filemax = g.filemax
  printPossibilities : g'.printPossibilities = g.printPossibilities
  completions : g'.completions = g.completions
  measureKernel : g'.measureKernel = g.measureKernel

theorem mapBlock_mapped {fuel : Nat} {logical map : Word} (h : mapBlock v fuel g logical = some (map, g')) : Mapped g g' := by
  unfold mapBlock at h
  split_ifs at h
  · obtain ⟨⟨map', s⟩, -, hsome⟩ := Option.bind_eq_some_iff.1 h
    cases hsome
    constructor <;> rfl
  · cases h
    constructor <;> rfl
  · cases h
    constructor <;> rfl

/-! ## Reading a link -/

/-- The block of the file in which `filepos` lies. -/
def DirState.logicalBlock (v : Volume σ) (g : DirState σ) : Word := BitVec.ofInt 32 (g.filepos / v.super.blockSize)

theorem Superblock.blockSize_pos (sb : Superblock) : 0 < sb.blockSize := Nat.two_pow_pos _

theorem readPass_before {t : Piece} (v : Volume σ) {fuel fuel' : Nat} (hle : fuel ≤ fuel') (g : DirState σ) :
    Before (readPass v fuel t g) (readPass v fuel' t g) := by
  apply Before.guard
  apply Before.bind
  exact mapBlock_before v hle _ _

theorem readPass_steady (v : Volume σ) : Steady (readPass v) := fun hle _ g => readPass_before v hle g

/-- A piece goes on with less to read and more that has been read. -/
structure Piece.Follows (t t' : Piece) : Prop where
  len : t'.len < t.len
  ret : t.ret < t'.ret

theorem readPass_cases {t : Piece} {fuel : Nat} {flow : Flow Piece (DirState σ) Piece} (h : readPass v fuel t g = some flow) :
    t.len = 0 ∧ flow = .done t g ∨
      t.len ≠ 0 ∧ ∃ map g', mapBlock v fuel g (g.logicalBlock v) = some (map, g') ∧
        (map.toInt < 0 ∧ flow = .done t g' ∨ 0 ≤ map.toInt ∧ ∃ t' g'', t.Follows t' ∧ flow = .next t' g'') := by
  unfold readPass at h
  by_cases hlen : t.len = 0
  · rw [if_pos hlen] at h
    exact .inl ⟨hlen, (Option.some.inj h).symm⟩
  · rw [if_neg hlen] at h
    obtain ⟨⟨map, g'⟩, hmap, hpass⟩ := Option.bind_eq_some_iff.1 h
    refine .inr ⟨hlen, map, g', hmap, ?_⟩
    have hpos := v.super.blockSize_pos
    have hoff : (g.filepos % v.super.blockSize).toNat < v.super.blockSize := by
      have hlt := Int.emod_lt_of_pos g.filepos (Int.natCast_pos.2 hpos)
      omega
    have hfollows (buf : Nat → Byte) : t.Follows ⟨t.len - min (v.super.blockSize - (g.filepos % v.super.blockSize).toNat) t.len,
        t.ret + min (v.super.blockSize - (g.filepos % v.super.blockSize).toNat) t.len, buf⟩ := by
      constructor
      · simp only
        omega
      · simp only
        omega
    simp only at hpass
    split_ifs at hpass with hneg hhole hread
    · exact .inl ⟨hneg, (Option.some.inj hpass).symm⟩
    all_goals exact .inr ⟨Int.not_lt.1 hneg, _, _, hfollows _, (Option.some.inj hpass).symm⟩

/-! ## The entries of a directory -/

/-- The block of the directory in which `loc` lies. -/
def dirBlock (v : Volume σ) (loc : Word) : Word := loc.sshiftRight v.super.blockSizeBits

/-- The entry at `loc`, in a block of the disk. -/
def entryIn (v : Volume σ) (map loc : Word) : DirEntry :=
  dirEntryAt (v.image map) (loc &&& BitVec.ofNat 32 (v.super.blockSize - 1)).toNat

/-- The scan does not stop at the entry. -/
def DirState.passesOver (g : DirState σ) (dirname : List Byte) (ch : Byte) (dp : DirEntry) : Prop :=
  dp.inode = 0 ∨ substring dirname dp.name ≠ 0 ∨ g.completes ch

/-- The block is read into `DATABLOCK2`. -/
def DirState.rdDirBlock (v : Volume σ) (g : DirState σ) (map : Word) : Bool × State σ :=
  rdfsb (v.fs g) { g.toState with mapblock2 := -1 } map .datablock2

theorem offer_completes (g : DirState σ) (dirname name : List Byte) (ch : Byte) :
    (g.offer dirname ch name).completes ch = g.completes ch := by
  unfold DirState.offer
  split
  · simp only [DirState.completes]
    congr 2
    split
    · simp
    · rfl
  · rfl

theorem offer_inode (g : DirState σ) (dirname name : List Byte) (ch : Byte) : (g.offer dirname ch name).inode = g.inode := by
  unfold DirState.offer
  split <;> rfl

theorem scanPass_steady (v : Volume σ) (dirname : List Byte) (ch : Byte) : Steady (scanPass v dirname ch) := by
  intro fuel fuel' hle loc g
  apply Before.guard
  apply Before.bind
  exact mapBlock_before v hle _ _

theorem scanPass_defined {dirname : List Byte} {ch : Byte} {fuel : Nat} {loc : Word}
    (h : ¬ g.iSize ≤ loc → ∃ result, mapBlock v fuel g (dirBlock v loc) = some result) :
    ∃ flow, scanPass v dirname ch fuel loc g = some flow := by
  unfold scanPass
  by_cases hpast : g.iSize ≤ loc
  · simp only [hpast, if_true]
    split_ifs
    all_goals exact ⟨_, rfl⟩
  · obtain ⟨⟨map, g'⟩, hmap⟩ := h hpast
    rw [dirBlock] at hmap
    simp only [hpast, if_false, hmap, Option.bind_eq_bind, Option.bind_some]
    split_ifs
    all_goals exact ⟨_, rfl⟩

/-- What a pass over the entries of a directory comes to. -/
inductive ScanCase (v : Volume σ) (dirname : List Byte) (ch : Byte) (fuel : Nat) (loc : Word) (g : DirState σ) :
    Flow Word (DirState σ) Scanned → Prop where
  | completed (past : g.iSize ≤ loc) (some : g.printPossibilities < 0) : ScanCase v dirname ch fuel loc g (.done (.returns 1) g)
  | missing (past : g.iSize ≤ loc) (none : 0 ≤ g.printPossibilities) : ScanCase v dirname ch fuel loc g (g.fail .fileNotFound (.returns 0))
  | unmapped {map : Word} {g' : DirState σ} (inside : ¬ g.iSize ≤ loc) (mapped : mapBlock v fuel g (dirBlock v loc) = some (map, g'))
      (negative : map.toInt < 0) : ScanCase v dirname ch fuel loc g (.done (.returns 0) { g' with mapblock2 := -1 })
  | unread {map : Word} {g' : DirState σ} {s : State σ} (inside : ¬ g.iSize ≤ loc)
      (mapped : mapBlock v fuel g (dirBlock v loc) = some (map, g')) (nonneg : 0 ≤ map.toInt) (read : g'.rdDirBlock v map = (false, s)) :
      ScanCase v dirname ch fuel loc g (DirState.fail { g' with toState := s } .fsysCorrupt (.returns 0))
  | passedOver {map : Word} {g' g'' : DirState σ} {s : State σ} (inside : ¬ g.iSize ≤ loc)
      (mapped : mapBlock v fuel g (dirBlock v loc) = some (map, g')) (nonneg : 0 ≤ map.toInt) (read : g'.rdDirBlock v map = (true, s))
      (passed : g.passesOver dirname ch (entryIn v map loc))
      (after : g'' = { g' with toState := s } ∨ g'' = DirState.offer { g' with toState := s } dirname ch (entryIn v map loc).name) :
      ScanCase v dirname ch fuel loc g (.next (loc + (entryIn v map loc).recLen.setWidth 32) g'')
  | found {map : Word} {g' : DirState σ} {s : State σ} (inside : ¬ g.iSize ≤ loc)
      (mapped : mapBlock v fuel g (dirBlock v loc) = some (map, g')) (nonneg : 0 ≤ map.toInt) (read : g'.rdDirBlock v map = (true, s))
      (stopped : ¬ g.passesOver dirname ch (entryIn v map loc)) :
      ScanCase v dirname ch fuel loc g
        (.done (.found (entryIn v map loc).inode) (DirState.offer { g' with toState := s } dirname ch (entryIn v map loc).name))

theorem rdDirBlock_held {map : Word} {s : State σ} (h : g.rdDirBlock v map = (true, s)) : s.data .datablock2 = v.image map := by
  obtain ⟨s', -, ⟨hread, hs⟩ | ⟨hread, -⟩⟩ := rdfsb_cases (v.fs g) { g.toState with mapblock2 := -1 } map .datablock2
  · cases hread.symm.trans h
    exact hs.held
  · cases hread.symm.trans h

theorem scanPass_cases {dirname : List Byte} {ch : Byte} {fuel : Nat} {loc : Word} {flow : Flow Word (DirState σ) Scanned}
    (h : scanPass v dirname ch fuel loc g = some flow) : ScanCase v dirname ch fuel loc g flow := by
  unfold scanPass at h
  by_cases hpast : g.iSize ≤ loc
  · rw [if_pos hpast] at h
    split_ifs at h with hpossible
    · obtain rfl := Option.some.inj h
      exact .completed hpast hpossible
    · obtain rfl := Option.some.inj h
      exact .missing hpast (Int.not_lt.1 hpossible)
  rw [if_neg hpast] at h
  obtain ⟨⟨map, g'⟩, hmap, hpass⟩ := Option.bind_eq_some_iff.1 h
  have hmapped := mapBlock_mapped hmap
  simp only at hpass
  by_cases hneg : map.toInt < 0
  · rw [if_pos hneg] at hpass
    obtain rfl := Option.some.inj hpass
    exact .unmapped hpast hmap hneg
  rw [if_neg hneg] at hpass
  have hnonneg : 0 ≤ map.toInt := Int.not_lt.1 hneg
  cases hread : g'.rdDirBlock v map with
  | mk ok s =>
    change rdfsb (v.fs { g' with mapblock2 := -1 }) { g'.toState with mapblock2 := -1 } map .datablock2 = (ok, s) at hread
    simp only [hread] at hpass
    cases ok with
    | false =>
      obtain rfl := Option.some.inj hpass
      exact .unread hpast hmap hnonneg hread
    | true =>
      have hheld : s.data .datablock2 = v.image map := rdDirBlock_held hread
      have hcompletes : ({ g' with toState := s } : DirState σ).completes ch = g.completes ch := by
        simp only [DirState.completes, hmapped.printPossibilities]
      simp only [Bool.not_true, Bool.false_eq_true, if_false, hheld, offer_completes, hcompletes] at hpass
      split_ifs at hpass with hfree hover
      · obtain rfl := Option.some.inj hpass
        exact .passedOver hpast hmap hnonneg hread (.inl hfree) (.inl rfl)
      · obtain rfl := Option.some.inj hpass
        exact .passedOver hpast hmap hnonneg hread (.inr hover) (.inr rfl)
      · obtain rfl := Option.some.inj hpass
        exact .found hpast hmap hnonneg hread (not_or.2 ⟨hfree, hover⟩)

theorem ScanCase.next_inode {dirname : List Byte} {ch : Byte} {fuel : Nat} {loc loc' : Word}
    (h : ScanCase v dirname ch fuel loc g (.next loc' g')) : g'.inode = g.inode := by
  generalize hflow : Flow.next loc' g' = flow at h
  cases h with
  | completed | missing | unmapped | unread | found => cases hflow
  | passedOver inside mapped nonneg read passed after =>
    obtain ⟨-, rfl⟩ := Flow.next.inj hflow
    obtain rfl | rfl := after
    · exact (mapBlock_mapped mapped).inode
    · exact (offer_inode _ _ _ _).trans (mapBlock_mapped mapped).inode

/-! ## Links -/

/-- The size of a link is taken for the size of the file. -/
def DirState.sized (g : DirState σ) : DirState σ := { g with filemax := g.iSize.toInt }

/-- The link and the remaining name fit into the buffer, as far as the code tests it. -/
def Path.Fits (p : Path) (g : DirState σ) : Prop := (g.iSize + BitVec.ofNat 32 p.remaining.length).toNat ≤ pathMax - 2

instance (p : Path) (g : DirState σ) : Decidable (p.Fits g) :=
  inferInstanceAs (Decidable ((g.iSize + BitVec.ofNat 32 p.remaining.length).toNat ≤ pathMax - 2))

/-- The buffer with the remaining name behind the place of the link. -/
def Path.spliced (p : Path) (g : DirState σ) : Nat → Byte := store p.linkbuf g.iSize.toInt.toNat (p.remaining ++ [0])

/-- The text of a link in the inode. -/
def DirState.inodeText (g : DirState σ) : List Byte := slice (byteAt g.iBlock) 0 g.iSize.toInt.toNat

theorem grubReadLink_before (v : Volume σ) {fuel fuel' : Nat} (hle : fuel ≤ fuel') (g : DirState σ) (buf : Nat → Byte) :
    Before (grubReadLink v fuel g buf) (grubReadLink v fuel' g buf) := by
  apply Before.guard
  apply Before.bind
  exact run_steady (readPass_steady v) hle _ _

/-- What comes of a link. -/
inductive LinkCase (v : Volume σ) (fuel : Nat) (p : Path) (g : DirState σ) : Flow Path (DirState σ) Int → Prop where
  | loops (many : maxLinkCount ≤ p.linkCount) : LinkCase v fuel p g (g.fail .symlinkLoop 0)
  | long (few : p.linkCount < maxLinkCount) (wide : ¬ p.Fits g) : LinkCase v fuel p g (g.sized.fail .filelength 0)
  | fast (few : p.linkCount < maxLinkCount) (fits : p.Fits g) (nonneg : 0 ≤ g.iSize.toInt) (fast : isFastSymlink v g.sized) :
      LinkCase v fuel p g (.next (p.relinked (store (p.spliced g) 0 g.inodeText)) g.sized)
  | unread {buf : Nat → Byte} {g' : DirState σ} (few : p.linkCount < maxLinkCount) (fits : p.Fits g) (nonneg : 0 ≤ g.iSize.toInt)
      (slow : ¬ isFastSymlink v g.sized) (read : grubReadLink v fuel g.sized (p.spliced g) = some (0, buf, g')) :
      LinkCase v fuel p g (.done 0 { g' with filepos := 0 })
  | slow {len : Nat} {buf : Nat → Byte} {g' : DirState σ} (few : p.linkCount < maxLinkCount) (fits : p.Fits g) (nonneg : 0 ≤ g.iSize.toInt)
      (slow : ¬ isFastSymlink v g.sized) (read : grubReadLink v fuel g.sized (p.spliced g) = some (len, buf, g')) (len_pos : 0 < len) :
      LinkCase v fuel p g (.next (p.relinked buf) { g' with filepos := 0 })

theorem followLink_cases {fuel : Nat} {p : Path} {flow : Flow Path (DirState σ) Int} (h : followLink v fuel p g = some flow) :
    LinkCase v fuel p g flow := by
  unfold followLink at h
  by_cases hmany : maxLinkCount < p.linkCount + 1
  · rw [if_pos hmany] at h
    obtain rfl := Option.some.inj h
    exact .loops (Nat.le_of_lt_succ hmany)
  rw [if_neg hmany] at h
  have hfew : p.linkCount < maxLinkCount := Nat.lt_of_succ_le (Nat.le_of_not_lt hmany)
  change (if pathMax - 2 < (g.iSize + BitVec.ofNat 32 p.remaining.length).toNat then some (g.sized.fail .filelength 0)
    else if g.iSize.toInt < 0 then none
    else if isFastSymlink v g.sized then some (.next (p.relinked (store (p.spliced g) 0 g.inodeText)) g.sized)
    else (grubReadLink v fuel g.sized (p.spliced g)).bind _) = some flow at h
  split_ifs at h with hwide hneg hfast
  · obtain rfl := Option.some.inj h
    exact .long hfew (Nat.not_le.2 hwide)
  · obtain rfl := Option.some.inj h
    exact .fast hfew (Nat.not_lt.1 hwide) (Int.not_lt.1 hneg) hfast
  · obtain ⟨⟨len, buf, g'⟩, hread, hflow⟩ := Option.bind_eq_some_iff.1 h
    simp only at hflow
    split_ifs at hflow with hlen
    · obtain rfl := Option.some.inj hflow
      exact .unread hfew (Nat.not_lt.1 hwide) (Int.not_lt.1 hneg) hfast (hlen ▸ hread)
    · obtain rfl := Option.some.inj hflow
      exact .slow hfew (Nat.not_lt.1 hwide) (Int.not_lt.1 hneg) hfast hread (Nat.pos_of_ne_zero hlen)

theorem followLink_before (v : Volume σ) {fuel fuel' : Nat} (hle : fuel ≤ fuel') (p : Path) (g : DirState σ) :
    Before (followLink v fuel p g) (followLink v fuel' p g) := by
  apply Before.guard
  apply Before.guard
  apply Before.guard
  apply Before.guard
  apply Before.bind
  exact grubReadLink_before v hle _ _

/-- The bytes of a link that `grub_read` is to deliver. -/
def DirState.linkLength (g : DirState σ) : Nat :=
  if g.measureKernel then g.iSize.toInt.toNat else (g.iSize.toInt - g.sized.sanePos).toNat

/-- The reading of a link begins. -/
def DirState.atLink (g : DirState σ) : DirState σ := { g.sized with filepos := g.sized.sanePos }

/-- What a pass over the path comes to. -/
inductive DirCase (v : Volume σ) (fuel : Nat) (p : Path) (g : DirState σ) : Flow Path (DirState σ) Int → Prop where
  | unfound {result : Int} {g' : DirState σ} (lookup : lookupInode v g p.currentIno = (some result, g')) :
      DirCase v fuel p g (.done result g')
  | link {g' : DirState σ} {flow : Flow Path (DirState σ) Int} (lookup : lookupInode v g p.currentIno = (none, g')) (islnk : g'.sIslnk)
      (follow : LinkCase v fuel p g' flow) : DirCase v fuel p g flow
  | ended {g' : DirState σ} (lookup : lookupInode v g p.currentIno = (none, g')) (notlnk : ¬ g'.sIslnk)
      (ended : p.dirname.head?.all isspace) : DirCase v fuel p g (atEnd g')
  | noDirectory {g' : DirState σ} (lookup : lookupInode v g p.currentIno = (none, g')) (notlnk : ¬ g'.sIslnk)
      (more : ¬ p.dirname.head?.all isspace) (kind : g'.iSize = 0 ∨ !g'.sIsdir) : DirCase v fuel p g (g'.fail .badFiletype 0)
  | returns {g' g'' : DirState σ} {result : Int} (lookup : lookupInode v g p.currentIno = (none, g')) (notlnk : ¬ g'.sIslnk)
      (more : ¬ p.dirname.head?.all isspace) (kind : ¬ (g'.iSize = 0 ∨ !g'.sIsdir))
      (scan : run (scanPass v p.name p.ch) fuel 0 g' = some (.returns result, g'')) : DirCase v fuel p g (.done result g'')
  | enters {g' g'' : DirState σ} {ino : Word} (lookup : lookupInode v g p.currentIno = (none, g')) (notlnk : ¬ g'.sIslnk)
      (more : ¬ p.dirname.head?.all isspace) (kind : ¬ (g'.iSize = 0 ∨ !g'.sIsdir))
      (scan : run (scanPass v p.name p.ch) fuel 0 g' = some (.found ino, g'')) :
      DirCase v fuel p g (.next { p with currentIno := ino, updirIno := p.currentIno, dirname := p.rest } g'')

theorem dirPass_cases {fuel : Nat} {p : Path} {flow : Flow Path (DirState σ) Int} (h : dirPass v fuel p g = some flow) :
    DirCase v fuel p g flow := by
  unfold dirPass at h
  cases hlookup : lookupInode v g p.currentIno with
  | mk returned g' =>
    simp only [hlookup] at h
    cases returned with
    | some result =>
      obtain rfl := Option.some.inj h
      exact .unfound hlookup
    | none =>
      simp only at h
      split_ifs at h with hlink hended
      · exact .link hlookup hlink (followLink_cases h)
      · obtain rfl := Option.some.inj h
        exact .ended hlookup hlink hended
      · unfold enterDirectory at h
        split_ifs at h with hkind
        · obtain rfl := Option.some.inj h
          exact .noDirectory hlookup hlink hended hkind
        · obtain ⟨⟨scanned, g''⟩, hscan, hflow⟩ := Option.bind_eq_some_iff.1 h
          cases scanned with
          | returns result =>
            obtain rfl := Option.some.inj hflow
            exact .returns hlookup hlink hended hkind hscan
          | found ino =>
            obtain rfl := Option.some.inj hflow
            exact .enters hlookup hlink hended hkind hscan

theorem dirPass_link {fuel : Nat} {p : Path} (hlookup : lookupInode v g p.currentIno = (none, g')) (hlnk : g'.sIslnk) :
    dirPass v fuel p g = followLink v fuel p g' := by
  simp only [dirPass, hlookup]
  exact if_pos hlnk

theorem dirPass_atEnd {fuel : Nat} {p : Path} (hlookup : lookupInode v g p.currentIno = (none, g')) (hlnk : ¬ g'.sIslnk)
    (hended : p.dirname.head?.all isspace) : dirPass v fuel p g = some (atEnd g') := by
  simp only [dirPass, hlookup]
  exact (if_neg hlnk).trans (if_pos hended)

theorem dirPass_enter {fuel : Nat} {p : Path} (hlookup : lookupInode v g p.currentIno = (none, g')) (hlnk : ¬ g'.sIslnk)
    (hmore : ¬ p.dirname.head?.all isspace) : dirPass v fuel p g = enterDirectory v fuel p g' := by
  simp only [dirPass, hlookup]
  exact (if_neg hlnk).trans (if_neg hmore)

theorem dirPass_steady (v : Volume σ) : Steady (dirPass v) := by
  intro fuel fuel' hle p g
  unfold dirPass
  cases hlookup : lookupInode v g p.currentIno with
  | mk returned g' =>
    cases returned with
    | some result => exact Before.refl _
    | none =>
      apply Before.ite
      · exact fun _ => followLink_before v hle p g'
      · intro _
        apply Before.guard
        apply Before.guard
        apply Before.bind
        exact run_steady (scanPass_steady v _ _) hle _ _

end TrustedGrub.Ext2
