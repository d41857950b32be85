import Mathlib.Data.List.TakeWhile
import TrustedGrub.Ext2.Located

/-!
# What a path comes to on a file system in order

`ext2fs_dir` takes the steps of `Resolution`, in the tree of a file system that is in order
and with the texts of links as the code gets them, until it has come to the end of the walk
or a read has failed. `ext2fsDir_resolves_iff` says when that is what the path names.
-/

namespace TrustedGrub.Ext2
open Fips180 (Byte Word)
open Disk (GrubError isspace)
open Loop (Flow Yields run)
open Memory (slice store)
open Resolution (System Walker)

variable {σ : Type} {v : Volume σ} {g g' : DirState σ} {t : Nat → Word} {b : Word} {kernel : Bool}

/-! ## The scan of a directory -/

/-- No error is set, and the file is to be opened. -/
structure Ready (kernel : Bool) (g : DirState σ) : Prop where
  errnum : g.errnum = .none
  filepos : g.filepos = 0
  printPossibilities : g.printPossibilities = 0
  measureKernel : g.measureKernel = kernel

/-- `INODE` is this one, and blocks of it can be asked for. -/
structure At (v : Volume σ) (kernel : Bool) (t : Nat → Word) (g : DirState σ) extends Ready kernel g where
  inode : g.inode = t
  mapReady : MapReady v t g.toState

/-- A read has failed since, and there is an error. -/
structure Broken (g g' : DirState σ) : Prop where
  failures : g.failures < g'.failures
  errnum : g'.errnum ≠ .none

theorem Ready.completes (h : Ready kernel g) (ch : Byte) : g.completes ch = false := by
  simp [DirState.completes, h.printPossibilities]

theorem Ready.offer (h : Ready kernel g) (dirname name : List Byte) (ch : Byte) : g.offer dirname ch name = g := by
  rw [DirState.offer, if_neg (by simp [h.completes ch])]

theorem substring_eq_zero {s s' : List Byte} : substring s s' = 0 ↔ s = s' := by
  induction s generalizing s' with
  | nil =>
    cases s' with
    | nil => exact ⟨fun _ => rfl, fun _ => rfl⟩
    | cons => simp [substring]
  | cons c s ih =>
    cases s' with
    | nil => simp [substring]
    | cons c' s' =>
      rw [substring]
      split_ifs with hc
      · rw [ih, hc]
        simp
      · simp [hc]

/-- What a request for a block of the file leaves. -/
theorem At.mapped (h : At v kernel t g) {word : Word} {s : State σ} (hanswer : Answered g.toState b (word, s))
    (hready : s.failures = g.failures → MapReady v t s) :
    word = b ∧ s.failures = g.failures ∧ At v kernel t { g with toState := s } ∨ word = -1 ∧ Broken g { g with toState := s } := by
  generalize hresult : (word, s) = result at hanswer
  cases hanswer with
  | word failures errnum =>
    obtain ⟨rfl, rfl⟩ := Prod.mk.inj hresult
    exact .inl ⟨rfl, failures, ⟨errnum.trans h.errnum, h.filepos, h.printPossibilities, h.measureKernel⟩, h.inode, hready failures⟩
  | failed failures =>
    obtain ⟨rfl, rfl⟩ := Prod.mk.inj hresult
    exact .inr ⟨rfl, failures, by simp⟩

/-- What the read of a block of a directory leaves. -/
theorem At.scanned (h : At v kernel t g) (map : Word) :
    ∃ ok s, g.rdDirBlock v map = (ok, s) ∧
      (ok = true ∧ s.failures = g.failures ∧ At v kernel t { g with toState := s } ∨ ok = false ∧ g.failures < s.failures) := by
  obtain ⟨s, -, ⟨hread, hs⟩ | ⟨hread, hm⟩⟩ := rdfsb_cases (v.fs g) { g.toState with mapblock2 := -1 } map .datablock2
  · refine ⟨true, s, hread, .inl ⟨rfl, hs.failures, ?_⟩⟩
    constructor
    case inode => exact h.inode
    case mapReady =>
      intro hplain
      constructor
      case first =>
        rw [hs.mapblock1, hs.other _ (by decide)]
        exact (h.mapReady hplain).first
      case second => exact .inl hs.mapblock2
    exact ⟨hs.errnum.trans h.errnum, h.filepos, h.printPossibilities, h.measureKernel⟩
  · exact ⟨false, s, hread, .inr ⟨rfl, hm.failures⟩⟩

theorem dirBlock_ofNat {loc : Nat} (hloc : loc < 2 ^ 31) :
    dirBlock v (BitVec.ofNat 32 loc) = BitVec.ofNat 32 (loc / v.super.blockSize) := by
  have hnat : (BitVec.ofNat 32 loc).toNat = loc := by
    rw [BitVec.toNat_ofNat]
    omega
  have hdiv := Nat.div_le_self loc (2 ^ v.super.blockSizeBits)
  apply BitVec.eq_of_toNat_eq
  rw [dirBlock, toNat_sshiftRight _ _ (hnat.symm ▸ hloc), hnat, BitVec.toNat_ofNat, Superblock.blockSize, Nat.mod_eq_of_lt (by omega)]

theorem entryIn_ofNat {loc : Nat} (hloc : loc < 2 ^ 31) (map : Word) :
    entryIn v map (BitVec.ofNat 32 loc) = dirEntryAt (v.image map) (loc % v.super.blockSize) := by
  have hbits := v.usable.blockSizeBits_le
  rw [entryIn, Superblock.blockSize, toNat_and_mask _ (by omega), BitVec.toNat_ofNat, Nat.mod_eq_of_lt (show loc < 2 ^ 32 by omega)]

/-- What the scan for a name comes to. -/
inductive Scan (kernel : Bool) (entries : List (List Byte × Word)) (name : List Byte) (g : DirState σ) : Scanned → DirState σ → Prop where
  | broken {g' : DirState σ} (broken : Broken g g') : Scan kernel entries name g (.returns 0) g'
  | missing {g' : DirState σ} (lookup : entries.lookup name = none) (failures : g'.failures = g.failures) (errnum : g'.errnum ≠ .none) :
    Scan kernel entries name g (.returns 0) g'
  | found {ino : Word} {g' : DirState σ} (lookup : entries.lookup name = some ino) (failures : g'.failures = g.failures)
    (ready : Ready kernel g') : Scan kernel entries name g (.found ino) g'

theorem Scan.of_failures {entries entries' : List (List Byte × Word)} {name : List Byte} {r : Scanned} {g'' : DirState σ}
    (h : Scan kernel entries name g' r g'') (hsame : g'.failures = g.failures) (hlookup : entries.lookup name = entries'.lookup name) :
    Scan kernel entries' name g r g'' := by
  cases h with
  | broken broken => exact .broken ⟨hsame ▸ broken.failures, broken.errnum⟩
  | missing lookup failures errnum => exact .missing (hlookup ▸ lookup) (failures.trans hsame) errnum
  | found lookup failures ready => exact .found (hlookup ▸ lookup) (failures.trans hsame) ready

theorem lookup_liveEntries_free {e : DirEntry} {es : List DirEntry} (hfree : e.inode = 0) (name : List Byte) :
    (liveEntries es).lookup name = (liveEntries (e :: es)).lookup name := by
  simp [liveEntries, hfree]

theorem lookup_liveEntries {e : DirEntry} {es : List DirEntry} (hused : e.inode ≠ 0) (name : List Byte) :
    (liveEntries (e :: es)).lookup name = if name = e.name then some e.inode else (liveEntries es).lookup name := by
  have hlive : liveEntries (e :: es) = (e.name, e.inode) :: liveEntries es := by
    rw [liveEntries, List.filter_cons_of_pos (by simpa using hused), List.map_cons]
    rfl
  rw [hlive, List.lookup_cons]
  by_cases hname : name = e.name
  · rw [if_pos hname, beq_iff_eq.2 hname]
  · rw [if_neg hname, beq_eq_false_iff_ne.2 hname]

theorem next_ofNat (loc : Nat) (recLen : BitVec 16) : BitVec.ofNat 32 loc + recLen.setWidth 32 = BitVec.ofNat 32 (loc + recLen.toNat) := by
  apply BitVec.eq_of_toNat_eq
  simp only [BitVec.toNat_add, BitVec.toNat_setWidth, BitVec.toNat_ofNat]
  omega

theorem At.scan (hat : At v kernel t g) (name : List Byte) (ch : Byte) {loc : Nat} {es : List DirEntry}
    (hlisting : Listing v.toImage t (t 1).toNat loc es) (hsize : (t 1).toNat < 2 ^ 31) :
    ∃ r g', Yields (scanPass v name ch) (BitVec.ofNat 32 loc) g r g' ∧ Scan kernel (liveEntries es) name g r g' := by
  induction hlisting generalizing g with
  | done =>
    have hpast : g.iSize ≤ BitVec.ofNat 32 (t 1).toNat := by
      rw [BitVec.ofNat_toNat, BitVec.setWidth_eq, DirState.iSize, hat.inode]
      exact BitVec.le_refl _
    obtain ⟨flow, hflow⟩ := @scanPass_defined _ v g name ch 0 (BitVec.ofNat 32 (t 1).toNat) (fun h => absurd hpast h)
    cases scanPass_cases hflow with
    | completed _ some =>
      rw [hat.printPossibilities] at some
      omega
    | missing => exact ⟨_, _, .done hflow, .missing rfl rfl (by simp)⟩
    | unmapped inside | unread inside | passedOver inside | found inside => exact absurd hpast inside
  | @entry loc b e es inside blockAt eq room fits named rest ih =>
    have hloc : loc < 2 ^ 31 := by omega
    have hinside : ¬ g.iSize ≤ BitVec.ofNat 32 loc := by
      rw [DirState.iSize, hat.inode, BitVec.le_def, BitVec.toNat_ofNat]
      omega
    have hdiv := Nat.div_le_self loc v.super.blockSize
    obtain ⟨fuel, word, s, hmap, hanswer, hready⟩ := mapBlock_found hat.inode blockAt hat.mapReady (by omega)
    rw [← dirBlock_ofNat hloc] at hmap
    have hentry : entryIn v b (BitVec.ofNat 32 loc) = e := (entryIn_ofNat hloc b).trans eq.symm
    obtain ⟨flow, hflow⟩ := @scanPass_defined _ v g name ch fuel (BitVec.ofNat 32 loc) fun _ => ⟨_, hmap⟩
    have hentry : entryIn v b (BitVec.ofNat 32 loc) = e := (entryIn_ofNat hloc b).trans eq.symm
    have hpositive : ¬ b.toInt < 0 := by
      have hlt := (blockAt_isBlock blockAt).2
      rw [BitVec.toInt_eq_toNat_of_lt (by omega)]
      omega
    cases scanPass_cases hflow with
    | completed past | missing past => exact absurd past hinside
    | unmapped _ mapped negative =>
      obtain ⟨rfl, rfl⟩ := Prod.mk.inj (Option.some.inj (hmap.symm.trans mapped))
      obtain ⟨rfl, -, -⟩ | ⟨-, hbroken⟩ := hat.mapped hanswer hready
      · exact absurd negative hpositive
      · exact ⟨_, _, .done hflow, .broken ⟨hbroken.failures, hbroken.errnum⟩⟩
    | unread _ mapped nonneg read =>
      obtain ⟨rfl, rfl⟩ := Prod.mk.inj (Option.some.inj (hmap.symm.trans mapped))
      obtain ⟨rfl, hsame, hat'⟩ | ⟨rfl, -⟩ := hat.mapped hanswer hready
      · obtain ⟨ok, s', hread, ⟨rfl, -, -⟩ | ⟨-, hfailed⟩⟩ := hat'.scanned word
        · cases hread.symm.trans read
        · cases hread.symm.trans read
          exact ⟨_, _, .done hflow, .broken ⟨hsame ▸ hfailed, by simp⟩⟩
      · exact absurd nonneg (by decide)
    | passedOver _ mapped nonneg read passed after =>
      obtain ⟨rfl, rfl⟩ := Prod.mk.inj (Option.some.inj (hmap.symm.trans mapped))
      obtain ⟨rfl, hsame, hat'⟩ | ⟨rfl, -⟩ := hat.mapped hanswer hready
      · obtain ⟨ok, s', hread, ⟨-, hkept, hat''⟩ | ⟨rfl, -⟩⟩ := hat'.scanned word
        · cases hread.symm.trans read
          have hafter := after.elim id fun h => h.trans (hat''.offer _ _ _)
          subst hafter
          rw [hentry] at passed hflow
          rw [next_ofNat] at hflow
          obtain ⟨r, g', hyields, hscan⟩ := ih hat''
          refine ⟨r, g', .next (scanPass_steady v name ch) hflow hyields, hscan.of_failures (hkept.trans hsame) ?_⟩
          obtain hfree | hother := passed
          · exact lookup_liveEntries_free hfree name
          · by_cases hused : e.inode = 0
            · exact lookup_liveEntries_free hused name
            · have hname : name ≠ e.name := by
                rw [hat.completes] at hother
                simpa [substring_eq_zero] using hother
              rw [lookup_liveEntries hused, if_neg hname]
        · cases hread.symm.trans read
      · exact absurd nonneg (by decide)
    | found _ mapped nonneg read stopped =>
      obtain ⟨rfl, rfl⟩ := Prod.mk.inj (Option.some.inj (hmap.symm.trans mapped))
      obtain ⟨rfl, hsame, hat'⟩ | ⟨rfl, -⟩ := hat.mapped hanswer hready
      · obtain ⟨ok, s', hread, ⟨-, hkept, hat''⟩ | ⟨rfl, -⟩⟩ := hat'.scanned word
        · cases hread.symm.trans read
          rw [hentry] at stopped hflow
          rw [hat''.offer] at hflow
          obtain ⟨hused, hrest⟩ := not_or.1 stopped
          have hname : name = e.name := substring_eq_zero.1 (not_not.1 (not_or.1 hrest).1)
          refine ⟨_, _, .done hflow, .found ?_ (hkept.trans hsame) hat''.toReady⟩
          rw [lookup_liveEntries hused, if_pos hname]
        · cases hread.symm.trans read
      · exact absurd nonneg (by decide)

/-! ## The text of a link -/

/-- The text of a link as `ext2fs_dir` gets it. While a kernel is measured, `grub_read` takes
a link that is not in its inode for the kernel. -/
def Image.linkText (d : Image σ) (kernel : Bool) (t : Nat → Word) (target : List Byte) : List Byte :=
  if kernel ∧ ¬ d.isFast t then slice d.kernel 0 target.length else target

theorem linkText_length (d : Image σ) (kernel : Bool) (t : Nat → Word) (target : List Byte) :
    (d.linkText kernel t target).length = target.length := by
  unfold Image.linkText
  split_ifs
  · exact Memory.slice_length _ _ _
  · rfl

theorem takeWhile_stop {α : Type} {p : α → Bool} {c : α} (hc : p c = false) (l junk : List α) :
    (l ++ c :: junk).takeWhile p = l.takeWhile p := by
  rw [List.takeWhile_append]
  split
  next hall =>
    rw [List.takeWhile_cons_of_neg (by simp [hc]), List.append_nil]
    exact ((List.takeWhile_prefix p).eq_of_length hall).symm
  next => rfl

/-- What is in the buffer for links: the text, the name that is left, and a zero. -/
theorem relinked_dirname (p : Path) {text : List Byte} {n : Nat} (hlength : text.length = n)
    (hroom : n + p.remaining.length ≤ pathMax - 2) :
    (p.relinked (store (store p.linkbuf n (p.remaining ++ [0])) 0 text)).dirname = (text ++ p.remaining).takeWhile (· ≠ 0) := by
  have hmax : pathMax = n + ((p.remaining ++ [0]).length + (pathMax - 2 - n - p.remaining.length + 1)) := by
    have hbig : 2 ≤ pathMax := by decide
    rw [List.length_append, List.length_singleton]
    omega
  generalize pathMax - 2 - n - p.remaining.length + 1 = k at hmax
  have hbuffer : ∃ junk, slice (store (store p.linkbuf n (p.remaining ++ [0])) 0 text) 0 pathMax = (text ++ p.remaining) ++ 0 :: junk := by
    refine ⟨slice p.linkbuf (n + (p.remaining ++ [0]).length) k, ?_⟩
    rw [hmax, Memory.slice_add, Memory.slice_store _ _ hlength, Nat.zero_add, Memory.slice_store_disjoint (by omega), Memory.slice_add,
      Memory.slice_store _ _ rfl, Memory.slice_store_disjoint (.inr (Nat.le_refl _))]
    simp only [List.append_assoc, List.singleton_append]
  obtain ⟨junk, hjunk⟩ := hbuffer
  rw [Path.relinked, hjunk]
  exact takeWhile_stop (by simp) _ _

theorem head_takeWhile {α : Type} {p : α → Bool} {c : α} (hc : p c = true) {l : List α} (rest : List α) (hl : l ≠ []) :
    ((l ++ rest).takeWhile p).head? = some c ↔ l.head? = some c := by
  obtain ⟨a, l, rfl⟩ := List.exists_cons_of_ne_nil hl
  rw [List.cons_append, List.takeWhile_cons]
  split
  next => simp
  next ha =>
    constructor
    · intro h
      cases h
    · intro h
      obtain rfl := Option.some.inj h
      exact absurd hc ha

/-! ## The path -/

theorem dropWhile_takeWhile {α : Type} {p q : α → Bool} (h : ∀ c, p c = true → q c = true) (l : List α) :
    (l.takeWhile q).dropWhile p = (l.dropWhile p).takeWhile q := by
  induction l with
  | nil => rfl
  | cons c l ih =>
    by_cases hp : p c = true
    · rw [List.takeWhile_cons_of_pos (h c hp), List.dropWhile_cons_of_pos hp, List.dropWhile_cons_of_pos hp, ih]
    · rw [List.dropWhile_cons_of_neg hp]
      by_cases hq : q c = true
      · rw [List.takeWhile_cons_of_pos hq, List.dropWhile_cons_of_neg hp]
      · rw [List.takeWhile_cons_of_neg hq, List.dropWhile_nil]

theorem takeWhile_dropWhile_and {α : Type} (q r : α → Bool) (l : List α) :
    (l.dropWhile fun c => q c && r c).takeWhile q = (l.takeWhile q).dropWhile r := by
  induction l with
  | nil => rfl
  | cons c l ih =>
    by_cases hq : q c = true
    · rw [List.takeWhile_cons_of_pos hq]
      by_cases hr : r c = true
      · rw [List.dropWhile_cons_of_pos (by simp [hq, hr]), List.dropWhile_cons_of_pos hr, ih]
      · rw [List.dropWhile_cons_of_neg (by simp [hr]), List.dropWhile_cons_of_neg hr, List.takeWhile_cons_of_pos hq]
    · rw [List.takeWhile_cons_of_neg hq, List.dropWhile_cons_of_neg (by simp [hq]), List.takeWhile_cons_of_neg hq, List.dropWhile_nil]

theorem remaining_eq_nil {p : Path} : p.remaining = [] ↔ p.dirname.head?.all isspace := by
  unfold Path.remaining
  cases p.dirname with
  | nil => simp
  | cons c dirname => simp [List.takeWhile_cons]

theorem skipped_remaining (p : Path) : p.remaining.dropWhile (· = 0x2F) = p.skipped.takeWhile fun c => !isspace c := by
  apply dropWhile_takeWhile
  intro c hc
  rw [of_decide_eq_true hc]
  rfl

theorem name_eq {sys : System Word Byte} (hslash : sys.slash = 0x2F) (p : Path) : sys.name p.remaining = p.name := by
  unfold System.name
  rw [hslash, skipped_remaining, List.takeWhile_takeWhile, Path.name]
  congr 1
  funext c
  simp [Bool.and_comm]

theorem rest_eq {sys : System Word Byte} (hslash : sys.slash = 0x2F) (p : Path) :
    sys.rest p.remaining = p.rest.takeWhile fun c => !isspace c := by
  unfold System.rest
  rw [hslash, skipped_remaining, Path.rest, takeWhile_dropWhile_and]

/-! ## A link that is not in its inode -/

theorem BlockAt.nonneg {n : Nat} (h : BlockAt v.toImage t n b) : 0 ≤ b.toInt := by
  have hlt := (blockAt_isBlock h).2
  rw [BitVec.toInt_eq_toNat_of_lt (by omega)]
  omega

/-- A link is read from its beginning on. -/
theorem At.atLink (hat : At v kernel t g) (hle : (t 1).toNat ≤ v.super.blockSize) :
    At v kernel t g.atLink ∧ g.iSize.toInt = (t 1).toNat ∧ g.sized.sanePos = 0 := by
  have hbits : v.super.blockSize ≤ 2 ^ 13 := Nat.pow_le_pow_right (by decide) v.usable.blockSizeBits_le
  have hsize : g.iSize.toInt = (t 1).toNat := by
    rw [DirState.iSize, hat.inode, BitVec.toInt_eq_toNat_of_lt (by omega)]
  have hsane : g.sized.sanePos = 0 := by
    have hpos : g.sized.filepos = 0 := hat.filepos
    have hmax : g.sized.filemax = (t 1).toNat := hsize
    rw [DirState.sanePos, hpos, hmax, if_neg (by omega)]
  exact ⟨⟨⟨hat.errnum, hsane, hat.printPossibilities, hat.measureKernel⟩, hat.inode, hat.mapReady⟩, hsize, hsane⟩

/-- What a pass of `ext2fs_read` comes to that is to read the whole link. -/
inductive FirstPiece (v : Volume σ) (kernel : Bool) (b : Word) (n : Nat) (buf : Nat → Byte) (g : DirState σ) :
    Flow Piece (DirState σ) Piece → Prop where
  | unmapped {g' : DirState σ} (broken : Broken g g') : FirstPiece v kernel b n buf g (.done ⟨n, 0, buf⟩ g')
  | unread {g' : DirState σ} (broken : Broken g g') : FirstPiece v kernel b n buf g (.next ⟨0, n, buf⟩ g')
  | read {g' : DirState σ} (failures : g'.failures = g.failures) (ready : Ready kernel { g' with filepos := 0 }) :
    FirstPiece v kernel b n buf g (.next ⟨0, n, store buf 0 (slice (byteAt (v.image b)) 0 n)⟩ g')

theorem At.firstPiece (hat : At v kernel t g) {n : Nat} (hpos : 0 < n) (hle : n ≤ v.super.blockSize) (hblock : BlockAt v.toImage t 0 b)
    (buf : Nat → Byte) : ∃ fuel flow, readPass v fuel ⟨n, 0, buf⟩ g = some flow ∧ FirstPiece v kernel b n buf g flow := by
  obtain ⟨fuel, word, s, hmap, hanswer, hready⟩ := mapBlock_found hat.inode hblock hat.mapReady (by decide)
  have hlogical : BitVec.ofInt 32 (g.filepos / v.super.blockSize) = BitVec.ofNat 32 0 := by
    rw [hat.filepos, Int.zero_ediv]
    rfl
  have hoffset : (g.filepos % v.super.blockSize).toNat = 0 := by
    rw [hat.filepos, Int.zero_emod]
    rfl
  have hsize : min (v.super.blockSize - 0) n = n := Nat.min_eq_right hle
  refine ⟨fuel, ?_⟩
  simp only [readPass, if_neg (Nat.ne_of_gt hpos), hlogical, hmap, hoffset, hsize, Option.bind_eq_bind, Option.bind_some, Nat.sub_self,
    Nat.zero_add]
  obtain ⟨rfl, hsame, hat'⟩ | ⟨rfl, hbroken⟩ := hat.mapped hanswer hready
  · have hblock' := blockAt_isBlock hblock
    rw [if_neg (Int.not_lt.2 hblock.nonneg), if_neg hblock'.1]
    cases hread : v.devreadPart s.dev word 0 n with
    | mk ok dev =>
      cases ok with
      | true =>
        refine ⟨_, if_pos (congrArg Prod.fst hread), ?_⟩
        apply FirstPiece.read hsame
        exact ⟨hat'.errnum, rfl, hat'.printPossibilities, hat'.measureKernel⟩
      | false =>
        refine ⟨_, if_neg (show ¬ (v.devreadPart s.dev word 0 n).1 = true by simp [hread]), ?_⟩
        apply FirstPiece.unread
        constructor
        · show g.failures < s.failures + 1
          omega
        · exact (v.fault _).2
  · exact ⟨_, rfl, .unmapped hbroken⟩

/-- The link is read in one piece, or a read fails. -/
theorem At.readLink (hat : At v kernel t g) (hkernel : kernel = false) (hpos : 0 < (t 1).toNat) (hle : (t 1).toNat ≤ v.super.blockSize)
    (hblock : BlockAt v.toImage t 0 b) (buf : Nat → Byte) :
    ∃ fuel len buf' g', grubReadLink v fuel g.sized buf = some (len, buf', g') ∧
      (len = 0 ∧ Broken g g' ∨
        len = (t 1).toNat ∧ buf' = store buf 0 (slice (byteAt (v.image b)) 0 (t 1).toNat) ∧ g'.failures = g.failures ∧
          Ready kernel { g' with filepos := 0 }) := by
  obtain ⟨hlink, hsize, hsane⟩ := hat.atLink hle
  have hnot : ¬ g.sized.measureKernel := by simp [DirState.sized, hat.measureKernel, hkernel]
  have hlen : (g.sized.filemax - g.sized.sanePos).toNat = (t 1).toNat := by
    have hmax : g.sized.filemax = (t 1).toNat := hsize
    rw [hmax, hsane]
    omega
  obtain ⟨fuel, flow, hflow, hpiece⟩ := hlink.firstPiece hpos hle hblock buf
  have hread {t' : Piece} {g' : DirState σ} (hy : Yields (readPass v) ⟨(t 1).toNat, 0, buf⟩ g.atLink t' g') :
      ∃ fuel, grubReadLink v fuel g.sized buf = some (if g'.errnum ≠ .none then 0 else t'.ret, t'.buf, g') := by
    obtain ⟨fuel, hrun⟩ := hy
    refine ⟨fuel, ?_⟩
    rw [grubReadLink, if_neg hnot, hlen, ext2fsRead]
    exact Option.bind_eq_some_iff.2 ⟨_, hrun, rfl⟩
  have hlast (buf' : Nat → Byte) (g' : DirState σ) : Yields (readPass v) ⟨0, (t 1).toNat, buf'⟩ g' ⟨0, (t 1).toNat, buf'⟩ g' :=
    ⟨1, rfl⟩
  cases hpiece with
  | unmapped broken =>
    obtain ⟨fuel, hgrub⟩ := hread (.done hflow)
    exact ⟨fuel, _, _, _, hgrub, .inl ⟨if_pos broken.errnum, broken.failures, broken.errnum⟩⟩
  | unread broken =>
    obtain ⟨fuel, hgrub⟩ := hread (.next (readPass_steady v) hflow (hlast _ _))
    exact ⟨fuel, _, _, _, hgrub, .inl ⟨if_pos broken.errnum, broken.failures, broken.errnum⟩⟩
  | read failures ready =>
    obtain ⟨fuel, hgrub⟩ := hread (.next (readPass_steady v) hflow (hlast _ _))
    exact ⟨fuel, _, _, _, hgrub, .inr ⟨if_neg (not_not.2 ready.errnum), rfl, failures, ready⟩⟩

/-! ## Passes over the path -/

/-- The tree as `ext2fs_dir` takes it: with the text that it gets of a link, in which a space
ends the path. -/
def Image.takenSystem (d : Image σ) (kernel : Bool) (node : Word → Resolution.Node Word Byte) : System Word Byte :=
  { pathSystem node with
    node := fun ino =>
      match node ino with
      | .link target => .link (d.linkText kernel (d.inode ino) target)
      | entry => entry
    ends := fun c => c = 0 ∨ isspace c }

/-- The test for a size of more than 32 bits. -/
def Refused (t : Nat → Word) : Prop := t 8 &&& hugeFileFl ≠ 0 ∧ t 27 = 0

instance (t : Nat → Word) : Decidable (Refused t) := inferInstanceAs (Decidable (t 8 &&& hugeFileFl ≠ 0 ∧ t 27 = 0))

/-- The walker is at the end of its path, at a file that is not refused. -/
def Opens (d : Image σ) (sys : System Word Byte) (w : Walker Word Byte) : Prop :=
  w.path = [] ∧ (∃ size, sys.node w.ino = .file size) ∧ ¬ Refused (d.inode w.ino)

/-- The locals are those of a walker. -/
structure Sim (inUse : Word → Prop) (w : Walker Word Byte) (p : Path) : Prop where
  ino : p.currentIno = w.ino
  up : p.updirIno = w.up
  path : p.remaining = w.path
  links : p.linkCount = w.links
  length : w.path.length < 2 ^ 31
  used : inUse w.ino
  usedUp : inUse w.up

/-- The file has been found. -/
structure Opened (d : Image σ) (w : Walker Word Byte) (g g' : DirState σ) : Prop where
  failures : g'.failures = g.failures
  errnum : g'.errnum = .none
  inode : g'.inode = d.inode w.ino
  filemax : g'.filemax = (d.inode w.ino 1).toInt

/-- What a pass over the path comes to. -/
inductive Pass (d : Image σ) (sys : System Word Byte) (inUse : Word → Prop) (kernel : Bool) (w : Walker Word Byte) (g : DirState σ) :
    Flow Path (DirState σ) Int → Prop where
  | broken {g' : DirState σ} (broken : Broken g g') : Pass d sys inUse kernel w g (.done 0 g')
  | stuck {g' : DirState σ} (last : sys.step w = none) (nothing : ¬ Opens d sys w) (failures : g'.failures = g.failures)
    (errnum : g'.errnum ≠ .none) : Pass d sys inUse kernel w g (.done 0 g')
  | opened {g' : DirState σ} (last : sys.step w = none) (opens : Opens d sys w) (opened : Opened d w g g') :
    Pass d sys inUse kernel w g (.done 1 g')
  | onward {w' : Walker Word Byte} {p' : Path} {g' : DirState σ} (step : sys.step w = some w') (sim : Sim inUse w' p')
    (failures : g'.failures = g.failures) (ready : Ready kernel g') : Pass d sys inUse kernel w g (.next p' g')

/-! ## Following a link -/

section
variable {p : Path} {fuel : Nat}

theorem followLink_loops (hmany : maxLinkCount ≤ p.linkCount) : followLink v fuel p g = some (g.fail .symlinkLoop 0) := if_pos (by omega)

variable (hfew : p.linkCount < maxLinkCount)
include hfew

theorem followLink_long (hwide : ¬ p.Fits g) : followLink v fuel p g = some (g.sized.fail .filelength 0) := by
  rw [followLink, if_neg (by omega)]
  exact if_pos (Nat.lt_of_not_le hwide)

variable (hfits : p.Fits g) (hnonneg : 0 ≤ g.iSize.toInt)
include hfits hnonneg

theorem followLink_fast (hfast : isFastSymlink v g.sized) :
    followLink v fuel p g = some (.next (p.relinked (store (p.spliced g) 0 g.inodeText)) g.sized) := by
  rw [followLink, if_neg (by omega)]
  exact (if_neg (Nat.not_lt.2 hfits)).trans ((if_neg (Int.not_lt.2 hnonneg)).trans (if_pos hfast))

theorem followLink_slow (hslow : ¬ isFastSymlink v g.sized) {len : Nat} {buf : Nat → Byte}
    (hread : grubReadLink v fuel g.sized (p.spliced g) = some (len, buf, g')) :
    followLink v fuel p g =
      some (if len = 0 then .done 0 { g' with filepos := 0 } else .next (p.relinked buf) { g' with filepos := 0 }) := by
  rw [followLink, if_neg (by omega)]
  refine (if_neg (Nat.not_lt.2 hfits)).trans ((if_neg (Int.not_lt.2 hnonneg)).trans ((if_neg hslow).trans ?_))
  refine Option.bind_eq_some_iff.2 ⟨_, hread, ?_⟩
  simp only
  split_ifs
  all_goals rfl

end

section
variable {inUse : Word → Prop} {node : Word → Resolution.Node Word Byte} {w : Walker Word Byte} {p : Path} {target text : List Byte}

theorem step_link {sys : System Word Byte} (hnode : sys.node w.ino = .link text) :
    sys.step w = if w.links < sys.maxLinks ∧ text.length + w.path.length ≤ sys.maxLength then
      some { ino := sys.origin w.up text, up := sys.origin w.up text, path := sys.relinked text w.path, links := w.links + 1 } else
        none := by
  rw [System.step, hnode]

theorem not_opens_link {d : Image σ} {sys : System Word Byte} (hnode : sys.node w.ino = .link text) : ¬ Opens d sys w := by
  rintro ⟨-, ⟨size, hfile⟩, -⟩
  rw [hnode] at hfile
  cases hfile

/-- Where the text of a link begins. -/
theorem relinked_origin (p : Path) (buf : Nat → Byte) :
    (p.relinked buf).currentIno = (if (p.relinked buf).dirname.head? = some 0x2F then rootIno else p.updirIno) ∧
      (p.relinked buf).updirIno = (p.relinked buf).currentIno ∧ (p.relinked buf).linkCount = p.linkCount + 1 := by
  unfold Path.relinked
  generalize (slice buf 0 pathMax).takeWhile _ = dirname
  exact ⟨rfl, rfl, rfl⟩

/-- The walker and the code go on with the same name, from the same place. -/
theorem Sim.relinked (hsim : Sim inUse w p) (hroot : inUse rootIno) {n : Nat} (hlength : text.length = n) (hpos : 0 < n)
    (hroom : n + w.path.length ≤ pathMax - 2) {d : Image σ} {sys : System Word Byte} (hsys : sys = d.takenSystem kernel node) :
    Sim inUse { ino := sys.origin w.up text, up := sys.origin w.up text, path := sys.relinked text w.path, links := w.links + 1 }
      (p.relinked (store (store p.linkbuf n (p.remaining ++ [0])) 0 text)) := by
  have hdirname := relinked_dirname p hlength (hsim.path ▸ hroom)
  obtain ⟨hino, hup, hlinks⟩ := relinked_origin p (store (store p.linkbuf n (p.remaining ++ [0])) 0 text)
  have htext : text ≠ [] := by
    rintro rfl
    simp at hlength
    omega
  have hhead : (p.relinked (store (store p.linkbuf n (p.remaining ++ [0])) 0 text)).dirname.head? = some 0x2F ↔ text.head? = some 0x2F := by
    rw [hdirname]
    exact head_takeWhile (by decide) p.remaining htext
  have horigin : (p.relinked (store (store p.linkbuf n (p.remaining ++ [0])) 0 text)).currentIno = sys.origin w.up text := by
    rw [hino, hsim.up, System.origin, hsys]
    simp only [hhead]
    rfl
  have hpath : sys.relinked text w.path = (text ++ w.path).takeWhile fun c => !isspace c && decide (c ≠ 0) := by
    have hends : (fun c => !sys.ends c) = fun c => !isspace c && decide (c ≠ 0) := by
      funext c
      simp [hsys, Image.takenSystem, Bool.and_comm]
    rw [System.relinked, hends]
  constructor
  case ino => exact horigin
  case up => exact hup.trans horigin
  case path =>
    have hboth : (fun c : Byte => decide ((!isspace c) = true ∧ decide (c ≠ 0) = true)) = fun c => !isspace c && decide (c ≠ 0) := by
      funext c
      simp
    rw [Path.remaining, hdirname, List.takeWhile_takeWhile, hsim.path, hpath, hboth]
  case links => rw [hlinks, hsim.links]
  case length =>
    have hcut := (List.takeWhile_prefix (l := text ++ w.path) fun c => !isspace c && decide (c ≠ 0)).length_le
    have hmax : pathMax - 2 < 2 ^ 31 := by decide
    rw [List.length_append] at hcut
    simp only [hpath]
    omega
  case used =>
    show inUse (sys.origin w.up text)
    rw [System.origin, hsys]
    split_ifs
    · exact hroot
    · exact hsim.usedUp
  case usedUp =>
    show inUse (sys.origin w.up text)
    rw [System.origin, hsys]
    split_ifs
    · exact hroot
    · exact hsim.usedUp

/-- The text of a link on the disk is as long as its size says, and not long. -/
theorem OnDisk.link_size (h : OnDisk v.toImage t (.link target)) :
    0 < (t 1).toNat ∧ (t 1).toNat ≤ 2 ^ 13 ∧ target.length = (t 1).toNat ∧ inodeType t = 0xA000 := by
  have hbits : v.super.blockSize ≤ 2 ^ 13 := Nat.pow_le_pow_right (by decide) v.usable.blockSizeBits_le
  cases h with
  | fastLink type size_pos size_le fast text => exact ⟨size_pos, by omega, by rw [text, Memory.slice_length], type⟩
  | slowLink type size_pos size_le slow blockAt text => exact ⟨size_pos, by omega, by rw [text, Memory.slice_length], type⟩

theorem fits_iff (hinode : g.inode = t) (hsim : Sim inUse w p) {n : Nat} (hsize : (t 1).toNat = n) (hle : n ≤ 2 ^ 13) :
    p.Fits g ↔ n + w.path.length ≤ pathMax - 2 := by
  have hlength := hsim.length
  have hsum : (g.iSize + BitVec.ofNat 32 p.remaining.length).toNat = n + w.path.length := by
    rw [BitVec.toNat_add, BitVec.toNat_ofNat, DirState.iSize, hinode, hsize, hsim.path]
    omega
  rw [Path.Fits, hsum]

theorem isFastSymlink_eq (hinode : g.inode = t) : isFastSymlink v g.sized = v.isFast t := by
  subst hinode
  rfl

theorem inodeText_eq (hinode : g.inode = t) {n : Nat} (hsize : g.iSize.toInt.toNat = n) (hle : n ≤ 60) :
    g.inodeText = slice (byteAt fun i => t (10 + i)) 0 n := by
  rw [DirState.inodeText, hsize]
  apply Memory.slice_congr
  intro i _ hi
  have hword : g.iBlock (i / 4) = t (10 + i / 4) := by
    rw [DirState.iBlock, if_pos (by omega), hinode]
  simp only [byteAt, hword]

theorem At.link_pass (hat : At v kernel (v.inode w.ino) g) (hc : Consistent v.toImage inUse node) (hsim : Sim inUse w p)
    (hnode : node w.ino = .link target) :
    ∃ fuel flow, followLink v fuel p g = some flow ∧ Pass v.toImage (v.takenSystem kernel node) inUse kernel w g flow := by
  have hdisk := hnode ▸ hc.onDisk w.ino hsim.used
  obtain ⟨hpos, hle, hlength, -⟩ := hdisk.link_size
  generalize ht : v.inode w.ino = t at hat hdisk hpos hle hlength
  have htaken : (v.takenSystem kernel node).node w.ino = .link (v.linkText kernel t target) := by
    simp only [Image.takenSystem, hnode, ht]
  have hstep := step_link htaken
  have hnothing : ¬ Opens v.toImage (v.takenSystem kernel node) w := not_opens_link htaken
  have htext : (v.linkText kernel t target).length = (t 1).toNat := (linkText_length _ _ _ _).trans hlength
  have hfits := @fits_iff _ g t inUse w p hat.inode hsim _ rfl hle
  have hsize : g.iSize.toInt = (t 1).toNat := by
    rw [DirState.iSize, hat.inode, BitVec.toInt_eq_toNat_of_lt (by omega)]
  rw [htext] at hstep
  by_cases hfew : p.linkCount < maxLinkCount
  · by_cases hroom : p.Fits g
    · have hlinks : w.links < maxLinkCount ∧ (t 1).toNat + w.path.length ≤ pathMax - 2 := ⟨hsim.links ▸ hfew, hfits.1 hroom⟩
      have hspliced : p.spliced g = store p.linkbuf (t 1).toNat (p.remaining ++ [0]) := by
        rw [Path.spliced, hsize, Int.toNat_natCast]
      have honward := hstep.trans (if_pos hlinks)
      have hnext := @Sim.relinked _ kernel inUse node w p _ hsim hc.root _ htext hpos hlinks.2 v.toImage _ rfl
      rw [← hspliced] at hnext
      have hfast : isFastSymlink v g.sized = v.isFast t := isFastSymlink_eq hat.inode
      have hready : Ready kernel g.sized := ⟨hat.errnum, hat.filepos, hat.printPossibilities, hat.measureKernel⟩
      have hnonneg : 0 ≤ g.iSize.toInt := by omega
      cases hdisk with
      | fastLink type size_pos size_le fast text =>
        have hnot : ¬ (kernel ∧ ¬ v.isFast t) := fun h => h.2 fast
        rw [Image.linkText, if_neg hnot] at hnext honward
        have hflow := @followLink_fast _ v g p 0 hfew hroom hnonneg (hfast.trans fast)
        rw [inodeText_eq hat.inode (by omega) size_le, ← text] at hflow
        exact ⟨0, _, hflow, .onward honward hnext rfl hready⟩
      | @slowLink _ b type size_pos size_le slow blockAt text =>
        have hslow : ¬ isFastSymlink v g.sized := fun h => slow (hfast.symm.trans h)
        cases hkernel : kernel with
        | true =>
          subst hkernel
          obtain ⟨-, -, hsane⟩ := hat.atLink size_le
          have hmeasured : g.sized.measureKernel := hat.measureKernel
          have hmax : g.sized.filemax.toNat = (t 1).toNat := congrArg Int.toNat hsize
          have hread : grubReadLink v 0 g.sized (p.spliced g) = some ((t 1).toNat, store (p.spliced g) 0 (slice v.kernel 0 (t 1).toNat),
              { g.sized with filepos := 0 + g.sized.filemax }) := by
            rw [grubReadLink, if_pos hmeasured, hmax, hsane]
            rfl
          have hflow := followLink_slow hfew hroom hnonneg hslow hread
          rw [if_neg (Nat.ne_of_gt hpos)] at hflow
          rw [Image.linkText, if_pos ⟨rfl, slow⟩, hlength] at hnext honward
          exact ⟨0, _, hflow, .onward honward hnext rfl ⟨hat.errnum, rfl, hat.printPossibilities, hat.measureKernel⟩⟩
        | false =>
          have hnot : ¬ (kernel ∧ ¬ v.isFast t) := by simp [hkernel]
          rw [Image.linkText, if_neg hnot] at hnext honward
          obtain ⟨fuel, len, buf, g', hread, ⟨rfl, hbroken⟩ | ⟨rfl, rfl, hfailures, hready'⟩⟩ :=
            hat.readLink hkernel hpos size_le blockAt (p.spliced g)
          · have hflow := followLink_slow hfew hroom hnonneg hslow hread
            exact ⟨fuel, _, hflow, .broken ⟨hbroken.failures, hbroken.errnum⟩⟩
          · have hflow := followLink_slow hfew hroom hnonneg hslow hread
            rw [if_neg (Nat.ne_of_gt hpos), ← text] at hflow
            subst hkernel
            exact ⟨fuel, _, hflow, .onward honward hnext hfailures hready'⟩
    · have hstuck := hstep.trans (if_neg fun h => hroom (hfits.2 h.2))
      exact ⟨0, _, followLink_long hfew hroom, .stuck hstuck hnothing rfl (by simp)⟩
  · have hstuck := hstep.trans (if_neg fun h => hfew (hsim.links ▸ h.1))
    exact ⟨0, _, followLink_loops (Nat.le_of_not_lt hfew), .stuck hstuck hnothing rfl (by simp)⟩

/-! ## A pass -/

theorem Looked.at {ino : Word} (h : Looked v ino g g') (hready : Ready kernel g) : At v kernel (v.inode ino) g' :=
  ⟨⟨h.errnum.trans hready.errnum, h.filepos.trans hready.filepos, h.printPossibilities.trans hready.printPossibilities,
    h.measureKernel.trans hready.measureKernel⟩, h.inode, fun _ => ⟨.inl h.mapblock1, .inl h.mapblock2⟩⟩

theorem Pass.of_failures {d : Image σ} {sys : System Word Byte} {flow : Flow Path (DirState σ) Int} (h : Pass d sys inUse kernel w g' flow)
    (hsame : g'.failures = g.failures) : Pass d sys inUse kernel w g flow := by
  cases h with
  | broken broken => exact .broken ⟨hsame ▸ broken.failures, broken.errnum⟩
  | stuck last nothing failures errnum => exact .stuck last nothing (failures.trans hsame) errnum
  | opened last opens opened => exact .opened last opens ⟨opened.failures.trans hsame, opened.errnum, opened.inode, opened.filemax⟩
  | onward step sim failures ready => exact .onward step sim (failures.trans hsame) ready

/-- The types of an inode, and what is tested of them. -/
theorem type_tests (hinode : g.inode = t) :
    (g.sIslnk = true ↔ inodeType t = 0xA000) ∧ (g.sIsreg = true ↔ inodeType t = 0x8000) ∧ (g.sIsdir = true ↔ inodeType t = 0x4000) := by
  subst hinode
  exact ⟨decide_eq_true_iff, decide_eq_true_iff, decide_eq_true_iff⟩

/-- The end of the path. -/
theorem At.end_pass (hat : At v kernel (v.inode w.ino) g) {sys : System Word Byte} (hpath : w.path = [])
    (hfile : (∃ size, sys.node w.ino = .file size) ↔ inodeType (v.inode w.ino) = 0x8000) (hlast : sys.step w = none) :
    Pass v.toImage sys inUse kernel w g (atEnd g) := by
  have hreg := (type_tests hat.inode).2.1
  have hrefused : (g.iFlags &&& hugeFileFl ≠ 0 ∧ g.iSizeHigh = 0) ↔ Refused (v.inode w.ino) := by
    rw [Refused, DirState.iFlags, DirState.iSizeHigh, hat.inode]
  unfold atEnd
  by_cases htype : g.sIsreg
  · rw [if_neg (by simp [htype])]
    by_cases hhuge : Refused (v.inode w.ino)
    · rw [if_pos (hrefused.2 hhuge)]
      exact .stuck hlast (fun h => h.2.2 hhuge) rfl (by simp)
    · rw [if_neg fun h => hhuge (hrefused.1 h)]
      refine .opened hlast ⟨hpath, hfile.2 (hreg.1 htype), hhuge⟩ ⟨rfl, hat.errnum, hat.inode, ?_⟩
      show g.iSize.toInt = _
      rw [DirState.iSize, hat.inode]
  · rw [if_pos (by simpa using htype)]
    exact .stuck hlast (fun h => htype (hreg.2 (hfile.1 h.2.1))) rfl (by simp)

/-- A directory is entered. -/
theorem At.enter_pass (hat : At v kernel (v.inode w.ino) g) {es : List DirEntry} (hsim : Sim inUse w p) {sys : System Word Byte}
    (hslash : sys.slash = 0x2F) (hnode : sys.node w.ino = .dir (liveEntries es)) (hused : ∀ e ∈ liveEntries es, inUse e.2)
    (htype : inodeType (v.inode w.ino) = 0x4000) (hpos : 0 < (v.inode w.ino 1).toNat) (hlt : (v.inode w.ino 1).toNat < 2 ^ 31)
    (hlisting : Listing v.toImage (v.inode w.ino) (v.inode w.ino 1).toNat 0 es) (hmore : w.path ≠ []) :
    ∃ fuel flow, enterDirectory v fuel p g = some flow ∧ Pass v.toImage sys inUse kernel w g flow := by
  have hkind : ¬ (g.iSize = 0 ∨ !g.sIsdir) := by
    rw [not_or]
    constructor
    · rw [DirState.iSize, hat.inode]
      intro hzero
      rw [hzero] at hpos
      exact absurd hpos (by decide)
    · simpa using (type_tests hat.inode).2.2.2 htype
  have hstep : sys.step w = ((liveEntries es).lookup (sys.name w.path)).map fun ino =>
    { w with ino := ino, up := w.ino, path := sys.rest w.path } := by
    rw [System.step, hnode]
    exact if_neg hmore
  have hname : sys.name w.path = p.name := hsim.path ▸ name_eq hslash p
  have hrest : sys.rest w.path = p.rest.takeWhile fun c => !isspace c := hsim.path ▸ rest_eq hslash p
  rw [hname, hrest] at hstep
  obtain ⟨r, g', ⟨fuel, hrun⟩, hscan⟩ := hat.scan p.name p.ch hlisting hlt
  have henter : enterDirectory v fuel p g = some (match r with
      | .returns result => .done result g'
      | .found ino => .next { p with currentIno := ino, updirIno := p.currentIno, dirname := p.rest } g') := by
    rw [enterDirectory, if_neg hkind]
    refine Option.bind_eq_some_iff.2 ⟨_, hrun, ?_⟩
    cases r with
    | returns => rfl
    | found => rfl
  refine ⟨fuel, _, henter, ?_⟩
  cases hscan with
  | broken broken => exact .broken broken
  | missing lookup failures errnum =>
    refine .stuck (hstep.trans (by rw [lookup]; rfl)) (fun h => hmore h.1) failures errnum
  | @found ino _ lookup failures ready =>
    rw [lookup] at hstep
    apply Pass.onward hstep _ failures ready
    constructor
    case ino => rfl
    case up => exact hsim.ino
    case path => rfl
    case links => exact hsim.links
    case length =>
      have hshort := @System.rest_length_lt _ _ _ sys _ hmore
      have hlength := hsim.length
      rw [hrest] at hshort
      exact Nat.lt_trans hshort hlength
    case used =>
      obtain ⟨e, he, rfl⟩ : ∃ e ∈ liveEntries es, e.2 = ino := by
        obtain ⟨l₁, l₂, hl, -⟩ := List.lookup_eq_some_iff.1 lookup
        exact ⟨(p.name, ino), hl ▸ List.mem_append_right _ (List.mem_cons_self ..), rfl⟩
      exact hused e he
    case usedUp => exact hsim.used

theorem enterDirectory_none {fuel : Nat} (hdir : ¬ g.sIsdir) : enterDirectory v fuel p g = some (g.fail .badFiletype 0) :=
  if_pos (.inr (by simpa using hdir))

theorem takenSystem_node {d : Image σ} {ino : Word} (hlink : ∀ target, node ino ≠ .link target) :
    (d.takenSystem kernel node).node ino = node ino := by
  simp only [Image.takenSystem]

theorem ended_iff (hsim : Sim inUse w p) : p.dirname.head?.all isspace ↔ w.path = [] := by
  rw [← remaining_eq_nil, hsim.path]

/-- What is neither a directory nor a link is the end of the walk. -/
theorem At.leaf_pass (hat : At v kernel (v.inode w.ino) g') (hsim : Sim inUse w p) (hlookup : lookupInode v g p.currentIno = (none, g'))
    {sys : System Word Byte} (hlast : sys.step w = none) (htypes : inodeType (v.inode w.ino) ≠ 0xA000 ∧ inodeType (v.inode w.ino) ≠ 0x4000)
    (hfile : (∃ size, sys.node w.ino = .file size) ↔ inodeType (v.inode w.ino) = 0x8000) :
    ∃ fuel flow, dirPass v fuel p g = some flow ∧ Pass v.toImage sys inUse kernel w g' flow := by
  obtain ⟨hlnk, -, hdir⟩ := type_tests hat.inode
  have hnotlnk : ¬ g'.sIslnk := fun h => htypes.1 (hlnk.1 h)
  by_cases hpath : w.path = []
  · exact ⟨0, _, dirPass_atEnd hlookup hnotlnk ((ended_iff hsim).2 hpath), hat.end_pass hpath hfile hlast⟩
  · have hmore : ¬ p.dirname.head?.all isspace := fun h => hpath ((ended_iff hsim).1 h)
    refine ⟨0, _, (dirPass_enter hlookup hnotlnk hmore).trans (enterDirectory_none fun h => htypes.2 (hdir.1 h)), ?_⟩
    exact .stuck hlast (fun h => hpath h.1) rfl (by simp)

theorem At.node_pass (hat : At v kernel (v.inode w.ino) g') (hc : Consistent v.toImage inUse node) (hsim : Sim inUse w p)
    (hlookup : lookupInode v g p.currentIno = (none, g')) :
    ∃ fuel flow, dirPass v fuel p g = some flow ∧ Pass v.toImage (v.takenSystem kernel node) inUse kernel w g' flow := by
  have hdisk := hc.onDisk w.ino hsim.used
  obtain ⟨hlnk, -, -⟩ := type_tests hat.inode
  cases hnode : node w.ino with
  | link target =>
    rw [hnode] at hdisk
    obtain ⟨fuel, flow, hflow, hpass⟩ := hat.link_pass hc hsim hnode
    exact ⟨fuel, flow, (dirPass_link hlookup (hlnk.2 hdisk.link_size.2.2.2)).trans hflow, hpass⟩
  | file size =>
    have htaken : (v.takenSystem kernel node).node w.ino = .file size :=
      (takenSystem_node (fun target => by rw [hnode]; exact nofun)).trans hnode
    rw [hnode] at hdisk
    have htype : inodeType (v.inode w.ino) = 0x8000 := by
      cases hdisk with
      | file type => exact type
    apply hat.leaf_pass hsim hlookup (System.step_file htaken)
    · rw [htype]
      decide
    · exact ⟨fun _ => htype, fun _ => ⟨size, htaken⟩⟩
  | other =>
    have htaken : (v.takenSystem kernel node).node w.ino = .other :=
      (takenSystem_node (fun target => by rw [hnode]; exact nofun)).trans hnode
    rw [hnode] at hdisk
    have htypes : inodeType (v.inode w.ino) ≠ 0x8000 ∧ inodeType (v.inode w.ino) ≠ 0x4000 ∧ inodeType (v.inode w.ino) ≠ 0xA000 := by
      cases hdisk with
      | other type => exact type
    apply hat.leaf_pass hsim hlookup
    · rw [System.step, htaken]
    · exact ⟨htypes.2.2, htypes.2.1⟩
    · rw [htaken]
      constructor
      · rintro ⟨size, hsize⟩
        cases hsize
      · exact fun h => absurd h htypes.1
  | dir entries =>
    have htaken : (v.takenSystem kernel node).node w.ino = .dir entries :=
      (takenSystem_node (fun target => by rw [hnode]; exact nofun)).trans hnode
    rw [hnode] at hdisk
    cases hdisk with
    | @dir es type size_pos size_lt listing =>
      have hnotlnk : ¬ g'.sIslnk := by
        rw [hlnk, type]
        decide
      by_cases hpath : w.path = []
      · refine ⟨0, _, dirPass_atEnd hlookup hnotlnk ((ended_iff hsim).2 hpath), hat.end_pass hpath ?_ ?_⟩
        · rw [htaken, type]
          constructor
          · rintro ⟨size, hsize⟩
            cases hsize
          · exact fun h => absurd h (by decide)
        · rw [System.step, htaken]
          exact if_pos hpath
      · have hmore : ¬ p.dirname.head?.all isspace := fun h => hpath ((ended_iff hsim).1 h)
        have hused := hc.closed w.ino _ hsim.used hnode
        obtain ⟨fuel, flow, hflow, hpass⟩ := hat.enter_pass hsim rfl htaken hused type size_pos size_lt listing hpath
        exact ⟨fuel, flow, (dirPass_enter hlookup hnotlnk hmore).trans hflow, hpass⟩

theorem dir_pass (hc : Consistent v.toImage inUse node) (hnarrow : v.super.hasIncompatFeature incompat64bit = false)
    (hsim : Sim inUse w p) (hready : Ready kernel g) :
    ∃ fuel flow, dirPass v fuel p g = some flow ∧ Pass v.toImage (v.takenSystem kernel node) inUse kernel w g flow := by
  obtain ⟨returned, g', hlookup, ⟨rfl, hlooked⟩ | ⟨rfl, hfailed⟩⟩ := lookupInode_found hc hsim.used hnarrow g
  · have hat := hlooked.at hready
    rw [← hsim.ino] at hlookup
    obtain ⟨fuel, flow, hflow, hpass⟩ := hat.node_pass hc hsim hlookup
    exact ⟨fuel, flow, hflow, hpass.of_failures hlooked.failures⟩
  · refine ⟨0, .done 0 g', ?_, .broken ⟨hfailed.1, hfailed.2⟩⟩
    simp only [dirPass, hsim.ino, hlookup]

/-! ## The walk -/

/-- What the walk of a path comes to, unless a read fails. -/
inductive Walked (d : Image σ) (sys : System Word Byte) (w : Walker Word Byte) (g : DirState σ) : Int → DirState σ → Prop where
  | broken {g' : DirState σ} (broken : Broken g g') : Walked d sys w g 0 g'
  | missed {w' : Walker Word Byte} {g' : DirState σ} (comes : sys.Comes w w') (nothing : ¬ Opens d sys w')
    (failures : g'.failures = g.failures) (errnum : g'.errnum ≠ .none) : Walked d sys w g 0 g'
  | opened {w' : Walker Word Byte} {g' : DirState σ} (comes : sys.Comes w w') (opens : Opens d sys w') (opened : Opened d w' g g') :
    Walked d sys w g 1 g'

theorem dir_walk (hc : Consistent v.toImage inUse node) (hnarrow : v.super.hasIncompatFeature incompat64bit = false) :
    ∀ p g, Sim inUse w p → Ready kernel g →
      ∃ r g', Yields (dirPass v) p g r g' ∧ Walked v.toImage (v.takenSystem kernel node) w g r g' := by
  have hpass {w : Walker Word Byte} {p : Path} {g : DirState σ} (hsim : Sim inUse w p) (hready : Ready kernel g) :=
    dir_pass hc hnarrow hsim hready
  apply @System.walk_induct _ _ _ (v.takenSystem kernel node)
    fun w => ∀ p g, Sim inUse w p → Ready kernel g → ∃ r g',
      Yields (dirPass v) p g r g' ∧ Walked v.toImage (v.takenSystem kernel node) w g r g'
  · intro w hend p g hsim hready
    obtain ⟨fuel, flow, hflow, hcase⟩ := hpass hsim hready
    cases hcase with
    | broken broken => exact ⟨_, _, .done hflow, .broken broken⟩
    | stuck last nothing failures errnum => exact ⟨_, _, .done hflow, .missed ((System.comes_self last).2 rfl) nothing failures errnum⟩
    | opened last opens opened => exact ⟨_, _, .done hflow, .opened ((System.comes_self last).2 rfl) opens opened⟩
    | onward step =>
      rw [hend] at step
      cases step
  · intro w w' hstep ih p g hsim hready
    obtain ⟨fuel, flow, hflow, hcase⟩ := hpass hsim hready
    cases hcase with
    | broken broken => exact ⟨_, _, .done hflow, .broken broken⟩
    | stuck last | opened last =>
      rw [hstep] at last
      cases last
    | onward step sim failures ready =>
      obtain rfl := Option.some.inj (hstep.symm.trans step)
      obtain ⟨r, g', hyields, hwalked⟩ := ih _ _ sim ready
      refine ⟨r, g', .next (dirPass_steady v) hflow hyields, ?_⟩
      cases hwalked with
      | broken broken => exact .broken ⟨failures ▸ broken.failures, broken.errnum⟩
      | missed comes nothing failures' errnum =>
        exact .missed ((System.Comes.of_step hstep).2 comes) nothing (failures'.trans failures) errnum
      | opened comes opens opened =>
        refine .opened ((System.Comes.of_step hstep).2 comes) opens ?_
        exact ⟨opened.failures.trans failures, opened.errnum, opened.inode, opened.filemax⟩

end

end TrustedGrub.Ext2
