import TrustedGrub.Lib.Replay
import TrustedGrub.Reiserfs.Journal
import Mathlib.Data.BitVec
import Mathlib.Data.Nat.Bitwise

/-!
# What the journal says about a block

The transactions of a journal, replayed in order, are the file system. `block_read` is to
deliver the replayed blocks. It does, as long as the number of the transactions has 16 bits.
-/

namespace TrustedGrub.Reiserfs
open Fips180 (Byte Word)
open Disk (GrubError)
open Loop (Body Flow run Yields)
open Memory (slice store)
open Replay (replay)

/-- A transaction: the numbers of the blocks it writes. -/
structure Transaction where
  blocks : List Word
  nodup : blocks.Nodup
  length_le : blocks.length ≤ 2 * journalTransHalf

variable {σ : Type}

/-! ## Journals -/

/-- A block of the journal. -/
def Image.journal (d : Image σ) (p : Nat) : Block := d.image (d.journalBlock + BitVec.ofNat 32 p)

/-- The block of the journal `n` blocks on from block `p`. -/
def Image.wrap (d : Image σ) (p n : Nat) : Nat := (p + n) % d.journalBlockCount.toNat

/-- A descriptor that `journal_init` does not stop at, with its commit block. -/
structure Valid (d : Image σ) (mount id : Word) (p : Nat) : Prop where
  magic : journalDescMagic <+: jMagic (d.journal p)
  transId : jTransId (d.journal p) = id
  mountId : jMountId (d.journal p) = mount
  commitTransId : jTransId (d.journal (d.wrap p ((jLen (d.journal p)).toNat + 1))) = id
  commitLen : jLen (d.journal (d.wrap p ((jLen (d.journal p)).toNat + 1))) = jLen (d.journal p)

/-- A committed transaction, with the descriptor in block `p`. -/
structure Committed (d : Image σ) (mount id : Word) (p : Nat) (t : Transaction) : Prop where
  valid : Valid d mount id p
  length : (jLen (d.journal p)).toNat = t.blocks.length
  desc (i : Nat) : i < t.blocks.length → i < journalTransHalf → t.blocks[i]? = some (descRealblock (d.journal p) i)
  commit (i : Nat) : i < t.blocks.length → journalTransHalf ≤ i →
    t.blocks[i]? = some (commitRealblock (d.journal (d.wrap p (t.blocks.length + 1))) (i - journalTransHalf))

/-- The transactions from block `p` on. -/
inductive Log (d : Image σ) (mount : Word) : Word → Nat → List Transaction → Prop where
  | stop {id : Word} {p : Nat} (invalid : ¬ Valid d mount id p) : Log d mount id p []
  | next {id : Word} {p : Nat} {t : Transaction} {ts : List Transaction} (committed : Committed d mount id p t)
      (rest : Log d mount (id + 1) (d.wrap p (t.blocks.length + 2)) ts) : Log d mount id p (t :: ts)

/-- A journal with these transactions, the first of them at block `p`. -/
structure Journal (d : Image σ) (p : Nat) (ts : List Transaction) : Prop where
  isPowerOfTwo : ∃ k, d.journalBlockCount.toNat = 2 ^ k
  firstUnflushed : jFirstUnflushedOffset (d.journal d.journalBlockCount.toNat) = BitVec.ofNat 32 p
  inside : p < d.journalBlockCount.toNat
  log : Log d (headerMountId (d.journal d.journalBlockCount.toNat)) (jLastFlushTransId (d.journal d.journalBlockCount.toNat) + 1) p ts

/-- What the transactions write. Behind the descriptor the blocks stand one after the other. -/
def Image.writes (d : Image σ) : Nat → List Transaction → List (Word × Block)
  | _, [] => []
  | p, t :: ts => t.blocks.mapIdx (fun i b => (b, d.journal (d.wrap p (i + 1)))) ++ d.writes (d.wrap p (t.blocks.length + 2)) ts

/-- The blocks after the transactions. -/
def Image.replayed (d : Image σ) (p : Nat) (ts : List Transaction) : Word → Block := replay (d.writes p ts) d.image

/-! ## Places in the journal -/

theorem mask_toNat {count x : Word} {k : Nat} (h : count.toNat = 2 ^ k) : (x &&& count - 1).toNat = x.toNat % 2 ^ k := by
  have hmask : (count - 1).toNat = 2 ^ k - 1 := by
    have hpos := Nat.two_pow_pos k
    rw [BitVec.toNat_sub_of_le, h]
    · rfl
    · rw [BitVec.le_def, h]
      exact hpos
  rw [BitVec.toNat_and, hmask, Nat.and_two_pow_sub_one_eq_mod]

theorem Image.wrap_wrap (d : Image σ) (p n k : Nat) : d.wrap (d.wrap p n) k = d.wrap p (n + k) := by
  rw [wrap, wrap, Nat.mod_add_mod, wrap, Nat.add_assoc]

/-- `& journal_mask` takes a sum around the end of the journal. -/
theorem wrap_word {d : Image σ} (h : ∃ k, d.journalBlockCount.toNat = 2 ^ k) (p n : Nat) :
    (BitVec.ofNat 32 p + BitVec.ofNat 32 n &&& d.journalMask) = BitVec.ofNat 32 (d.wrap p n) := by
  obtain ⟨k, hk⟩ := h
  have hlt : 2 ^ k < 2 ^ 32 := hk ▸ d.journalBlockCount.isLt
  have hdvd : 2 ^ k ∣ 2 ^ 32 := Nat.pow_dvd_pow 2 (Nat.le_of_lt ((Nat.pow_lt_pow_iff_right (by decide)).1 hlt))
  apply BitVec.eq_of_toNat_eq
  rw [Image.journalMask, mask_toNat hk, ← BitVec.ofNat_add, BitVec.toNat_ofNat, BitVec.toNat_ofNat, Nat.mod_mod_of_dvd _ hdvd, Image.wrap,
    hk]
  exact (Nat.mod_eq_of_lt (Nat.lt_trans (Nat.mod_lt _ (Nat.two_pow_pos k)) hlt)).symm

/-! ## Reads -/

section Reads
variable {d : Image σ} {s s' : State σ} {b : Word} {buffer block : Block}

/-- What the journal code knows of a file system stays, whatever is read. -/
structure SameJournal (s s' : State σ) : Prop where
  firstDesc : s'.journalFirstDesc = s.journalFirstDesc
  transactions : s'.journalTransactions = s.journalTransactions
  table : s'.journalTable = s.journalTable

theorem SameJournal.refl (s : State σ) : SameJournal s s := ⟨rfl, rfl, rfl⟩

theorem SameJournal.trans {s'' : State σ} (h : SameJournal s s') (h' : SameJournal s' s'') : SameJournal s s'' :=
  ⟨h'.firstDesc.trans h.firstDesc, h'.transactions.trans h.transactions, h'.table.trans h.table⟩

/-- Reads of the drive may fail. -/
def Faulty (d : Image σ) : Prop := ∃ st b buffer, (d.devread st b buffer).1 ≠ none

/-- How a read of a block ends. -/
inductive Read (d : Image σ) (s : State σ) (block buffer : Block) : Bool × Block × State σ → Prop where
  | delivered {s' : State σ} (same : SameJournal s s') (errnum : s'.errnum = s.errnum) : Read d s block buffer (true, block, s')
  | failed {left : Block} {s' : State σ} (same : SameJournal s s') (errnum : s'.errnum = d.fault) (faulty : Faulty d)
      (leaves : left = buffer ∨ ∃ st b, (d.devread st b buffer).1 = some left) : Read d s block buffer (false, left, s')

theorem devread_read (d : Image σ) (s : State σ) (b : Word) (buffer : Block) : Read d s (d.image b) buffer (devread d s b buffer) := by
  unfold devread
  split
  next dev hread => exact .delivered ⟨rfl, rfl, rfl⟩ rfl
  next left dev hread =>
    have hleft : (d.devread s.dev b buffer).1 = some left := by rw [hread]
    refine Read.failed ⟨rfl, rfl, rfl⟩ rfl ⟨s.dev, b, buffer, ?_⟩ (.inr ⟨s.dev, b, hleft⟩)
    simp only [hleft, ne_eq, reduceCtorEq, not_false_eq_true]

theorem journalRead_read (d : Image σ) (s : State σ) (b : Word) (buffer : Block) :
    Read d s (d.image (d.journalBlock + b)) buffer (journalRead d s b buffer) := devread_read ..

/-- An error of the drive is not taken back. -/
theorem Read.failed_before {r : Bool × Block × State σ} (h : Read d s block buffer r) (hs : s.errnum = d.fault) :
    r.2.2.errnum = d.fault := by
  cases h with
  | delivered same errnum => exact errnum.trans hs
  | failed same errnum => exact errnum

theorem Read.trans {block : Block} {r : Bool × Block × State σ} (h : Read d s' block buffer r) (same : SameJournal s s')
    (errnum : s'.errnum = s.errnum) : Read d s block buffer r := by
  cases h with
  | delivered same' errnum' => exact .delivered (same.trans same') (errnum'.trans errnum)
  | failed same' errnum' faulty leaves => exact .failed (same.trans same') errnum' faulty leaves

end Reads

/-! ## The table -/

/-- The transactions are in the table from here on, as far as there was room. -/
inductive Cached (table : Nat → Word) : Nat → List Transaction → Prop where
  | none {ptr : Nat} : Cached table ptr []
  | stop {ptr : Nat} {ts : List Transaction} (mark : table ptr = 0xffffffff) : Cached table ptr ts
  | next {ptr : Nat} {t : Transaction} {ts : List Transaction} (length : table ptr = BitVec.ofNat 32 t.blocks.length)
      (blocks : slice table (ptr + 1) t.blocks.length = t.blocks) (rest : Cached table (ptr + 1 + t.blocks.length) ts) :
      Cached table ptr (t :: ts)

theorem Transaction.length_lt (t : Transaction) : t.blocks.length < 2 ^ 31 := Nat.lt_of_le_of_lt t.length_le (by decide)

theorem Transaction.toInt_length (t : Transaction) : (BitVec.ofNat 32 t.blocks.length).toInt.toNat = t.blocks.length := by
  have hlt := t.length_lt
  have hsmall : (BitVec.ofNat 32 t.blocks.length).toNat = t.blocks.length := Nat.mod_eq_of_lt (by omega)
  rw [BitVec.toInt_eq_toNat_of_lt (by omega), hsmall, Int.toNat_natCast]

section Init
variable {d : Image σ} {s s' : State σ} {mount id : Word} {p : Nat} {t : Transaction} {ts : List Transaction}

theorem Committed.jLen_eq (h : Committed d mount id p t) : jLen (d.journal p) = BitVec.ofNat 32 t.blocks.length := by
  apply BitVec.eq_of_toNat_eq
  rw [h.length, BitVec.toNat_ofNat, Nat.mod_eq_of_lt (Nat.lt_trans t.length_lt (by decide))]

theorem Committed.realblocks_eq (h : Committed d mount id p t) :
    realblocks (d.journal p) (d.journal (d.wrap p (t.blocks.length + 1))) = t.blocks := by
  apply List.ext_getElem?
  intro i
  rw [realblocks, h.length, List.getElem?_map]
  by_cases hi : i < t.blocks.length
  · rw [List.getElem?_range hi, Option.map_some]
    split
    next hhalf => exact (h.desc i hi hhalf).symm
    next hhalf => exact (h.commit i hi (Nat.le_of_not_lt hhalf)).symm
  · rw [List.getElem?_eq_none (by simpa using hi), List.getElem?_eq_none (Nat.le_of_not_lt hi)]
    rfl

/-- `substring` does not exceed zero where one text begins the other. -/
theorem substring_le_zero {s t : List Byte} : ¬ 0 < Ext2.substring s t ↔ s <+: t := by
  fun_induction Ext2.substring s t with
  | case1 => simp
  | case2 => simp
  | case3 => simp
  | case4 s d t ih => rw [ih, List.cons_prefix_cons, eq_self, true_and]
  | case5 c s d t hne => simp [List.cons_prefix_cons, hne]

variable {l : Init} {header : Block} {fuel : Nat}

/-- The commit block of the descriptor in block `p`. -/
def Image.commitBlock (d : Image σ) (p : Nat) : Nat := d.wrap p ((jLen (d.journal p)).toNat + 1)

/-- What a pass at block `p` of the journal comes to. -/
inductive InitPass (d : Image σ) (header : Block) (p : Nat) (l : Init) (s : State σ) : Flow Init (State σ) Word → Prop where
  | cached {s' : State σ} (valid : Valid d (headerMountId header) l.nextTransId p) (firstDesc : s'.journalFirstDesc = s.journalFirstDesc)
      (errnum : s'.errnum = s.errnum)
      (table : s'.journalTable = (cacheTransaction s.journalTable l.journalTable (d.journal p) (d.journal (d.commitBlock p))).2) :
      InitPass d header p l s (.next ⟨BitVec.ofNat 32 (d.wrap p ((jLen (d.journal p)).toNat + 2)), l.nextTransId + 1, d.journal p,
        d.journal (d.commitBlock p), (cacheTransaction s.journalTable l.journalTable (d.journal p) (d.journal (d.commitBlock p))).1⟩ s')
  | stopped {s' : State σ} (invalid : ¬ Valid d (headerMountId header) l.nextTransId p) (same : SameJournal s s')
    (errnum : s'.errnum = s.errnum) :
      InitPass d header p l s (.done l.nextTransId s')
  | failed {flow : Flow Init (State σ) Word} (errnum : flow.state.errnum = d.fault) (faulty : Faulty d) : InitPass d header p l s flow

/-- A pass comes to something, and an error of the first read stays. -/
theorem initPass_keeps (d : Image σ) (header : Block) (fuel : Nat) (l : Init) (s : State σ) :
    ∃ flow, initPass d header fuel l s = some flow ∧
      ((journalRead d s l.descBlock l.desc).2.2.errnum = d.fault → flow.state.errnum = d.fault) := by
  unfold initPass
  generalize journalRead d s l.descBlock l.desc = read
  obtain ⟨ok, desc, s₁⟩ := read
  simp only
  split
  · exact ⟨_, rfl, fun h => h⟩
  · have hcommit := @Read.failed_before _ _ _ _ _ _ (journalRead_read d s₁ (l.descBlock + jLen desc + 1 &&& d.journalMask) l.commit)
    generalize journalRead d s₁ (l.descBlock + jLen desc + 1 &&& d.journalMask) l.commit = read at hcommit
    obtain ⟨ok', commit, s₂⟩ := read
    simp only
    split
    · exact ⟨_, rfl, hcommit⟩
    · exact ⟨_, rfl, hcommit⟩

theorem initPass_at (hpow : ∃ k, d.journalBlockCount.toNat = 2 ^ k) (hat : l.descBlock = BitVec.ofNat 32 p) (header : Block) (fuel : Nat)
    (s : State σ) : ∃ flow, initPass d header fuel l s = some flow ∧ InitPass d header p l s flow := by
  obtain ⟨flow, hflow, hkeeps⟩ := initPass_keeps d header fuel l s
  refine ⟨flow, hflow, ?_⟩
  have hread := journalRead_read d s l.descBlock l.desc
  unfold initPass at hflow
  generalize journalRead d s l.descBlock l.desc = read at hflow hread hkeeps
  cases hread with
  | failed same errnum faulty => exact .failed (hkeeps errnum) faulty
  | @delivered s₁ same errnum =>
    have hdescBlock : d.image (d.journalBlock + l.descBlock) = d.journal p := by rw [hat, Image.journal]
    have hcommitBlock : (l.descBlock + jLen (d.journal p) + 1 &&& d.journalMask) = BitVec.ofNat 32 (d.commitBlock p) := by
      rw [Image.commitBlock, hat, BitVec.add_assoc, ← wrap_word hpow, BitVec.ofNat_add, BitVec.ofNat_toNat, BitVec.setWidth_eq]
      rfl
    have hnext :
        (BitVec.ofNat 32 (d.commitBlock p) + 1 &&& d.journalMask) = BitVec.ofNat 32 (d.wrap p ((jLen (d.journal p)).toNat + 2)) := by
      rw [← d.wrap_wrap p ((jLen (d.journal p)).toNat + 1) 1]
      exact wrap_word hpow _ 1
    rw [hdescBlock] at hflow
    simp only [hcommitBlock] at hflow
    split at hflow
    next hdesc =>
      obtain rfl := Option.some.inj hflow
      apply InitPass.stopped _ same errnum
      rintro ⟨magic, transId, mountId, -, -⟩
      exact hdesc.elim (substring_le_zero.2 magic) fun h => h.elim (absurd transId) (absurd mountId)
    next hdesc =>
      have hread' := journalRead_read d s₁ (BitVec.ofNat 32 (d.commitBlock p)) l.commit
      generalize journalRead d s₁ _ l.commit = read at hflow hread'
      cases hread' with
      | failed same' errnum' faulty =>
        apply InitPass.failed _ faulty
        simp only at hflow
        split at hflow
        · obtain rfl := Option.some.inj hflow
          exact errnum'
        · obtain rfl := Option.some.inj hflow
          exact errnum'
      | @delivered s₂ same' errnum' =>
        rw [show d.image (d.journalBlock + BitVec.ofNat 32 (d.commitBlock p)) = d.journal (d.commitBlock p) from rfl] at hflow
        simp only [hnext] at hflow
        split at hflow
        next hcommit =>
          obtain rfl := Option.some.inj hflow
          apply InitPass.stopped _ (same.trans same') (errnum'.trans errnum)
          rintro ⟨-, transId, -, commitTransId, commitLen⟩
          exact hcommit.elim (fun h => h (transId.trans commitTransId.symm)) fun h => h commitLen.symm
        next hcommit =>
          obtain rfl := Option.some.inj hflow
          simp only [not_or, ne_eq, Decidable.not_not] at hdesc hcommit
          have hvalid : Valid d (headerMountId header) l.nextTransId p :=
            ⟨substring_le_zero.1 hdesc.1, hdesc.2.1, hdesc.2.2, hcommit.1.symm.trans hdesc.2.1, hcommit.2.symm⟩
          rw [(same.trans same').table]
          exact .cached hvalid (same.trans same').firstDesc (errnum'.trans errnum) rfl

theorem cacheTransaction_le (table : Nat → Word) {ptr : Nat} (desc commit : Block) (hle : ptr ≤ journalWords) :
    ptr ≤ (cacheTransaction table ptr desc commit).1 ∧ (cacheTransaction table ptr desc commit).1 ≤ journalWords := by
  unfold cacheTransaction
  split
  · split
    · exact ⟨hle, Nat.le_refl _⟩
    next hroom => exact ⟨by rw [Nat.add_assoc]; exact Nat.le_add_right _ _, Nat.le_of_not_le hroom⟩
  · exact ⟨Nat.le_refl _, hle⟩

theorem cacheTransaction_below {table : Nat → Word} {ptr x : Nat} (desc commit : Block) (hx : x < ptr) :
    (cacheTransaction table ptr desc commit).2 x = table x := by
  unfold cacheTransaction
  split
  · split
    · exact Memory.store_of_lt hx
    · exact Memory.store_of_lt hx
  · rfl

/-- What is put behind a transaction leaves it in the table. -/
theorem cacheTransaction_cached {table table' : Nat → Word} {ptr : Nat} (hc : Committed d mount id p t) (hroom : ptr < journalWords)
    (hbelow : ∀ x < (cacheTransaction table ptr (d.journal p) (d.journal (d.commitBlock p))).1,
      table' x = (cacheTransaction table ptr (d.journal p) (d.journal (d.commitBlock p))).2 x)
    (hrest : (cacheTransaction table ptr (d.journal p) (d.journal (d.commitBlock p))).1 < journalWords →
      Cached table' (cacheTransaction table ptr (d.journal p) (d.journal (d.commitBlock p))).1 ts) : Cached table' ptr (t :: ts) := by
  have hblocks : realblocks (d.journal p) (d.journal (d.commitBlock p)) = t.blocks := by
    rw [Image.commitBlock, hc.length]
    exact hc.realblocks_eq
  unfold cacheTransaction at hbelow hrest
  rw [if_pos hroom, hblocks, hc.length, hc.jLen_eq] at hbelow hrest
  split at hbelow
  next hfull =>
    apply Cached.stop
    rw [hbelow ptr hroom]
    show store table ptr [0xffffffff] (ptr + 0) = 0xffffffff
    rw [Memory.store_at (by decide)]
    rfl
  next hfits =>
    rw [if_neg hfits] at hrest
    have hstored : slice table' ptr (t.blocks.length + 1) = BitVec.ofNat 32 t.blocks.length :: t.blocks := by
      rw [Memory.slice_congr fun x _ hx => hbelow x (by omega)]
      exact Memory.slice_store table ptr rfl
    rw [Memory.slice_succ] at hstored
    obtain ⟨hlength, hslice⟩ := List.cons.inj hstored
    exact .next hlength hslice (hrest (Nat.lt_of_not_le hfits))

/-- What the loop of `journal_init` leaves, where it does not fail. -/
structure Ran (l : Init) (s : State σ) (ts : List Transaction) (nextTransId : Word) (s' : State σ) : Prop where
  nextTransId : nextTransId = l.nextTransId + BitVec.ofNat 32 ts.length
  firstDesc : s'.journalFirstDesc = s.journalFirstDesc
  errnum : s'.errnum = s.errnum
  below : ∀ x < l.journalTable, s'.journalTable x = s.journalTable x
  cached : l.journalTable < journalWords → Cached s'.journalTable l.journalTable ts

theorem run_failed {nextTransId : Word} (hrun : run (initPass d header) fuel l s = some (nextTransId, s')) (hs : s.errnum = d.fault) :
    s'.errnum = d.fault := by
  apply Loop.run_keeps (P := fun s : State σ => s.errnum = (d.fault : GrubError)) _ hrun hs
  intro fuel l s flow hflow hs
  obtain ⟨flow', hflow', hkeeps⟩ := initPass_keeps d header fuel l s
  obtain rfl := Option.some.inj (hflow.symm.trans hflow')
  exact hkeeps ((journalRead_read d s l.descBlock l.desc).failed_before hs)

/-- **The loop of `journal_init`** goes through the transactions and puts them into the table. -/
theorem run_initPass (hpow : ∃ k, d.journalBlockCount.toNat = 2 ^ k) {id nextTransId : Word} (hlog : Log d (headerMountId header) id p ts)
    (hid : l.nextTransId = id) (hat : l.descBlock = BitVec.ofNat 32 p) (hle : l.journalTable ≤ journalWords)
    (hrun : run (initPass d header) fuel l s = some (nextTransId, s')) : Ran l s ts nextTransId s' ∨ s'.errnum = d.fault ∧ Faulty d := by
  induction hlog generalizing fuel l s with
  | @stop id p invalid =>
    cases fuel with
    | zero => cases hrun
    | succ fuel =>
      obtain ⟨flow, hflow, hpass⟩ := initPass_at hpow hat header fuel s
      rw [run, hflow] at hrun
      cases hpass with
      | cached valid => exact absurd (hid ▸ valid) invalid
      | stopped _ same errnum =>
        obtain ⟨rfl, rfl⟩ := Prod.mk.inj (Option.some.inj hrun)
        exact .inl ⟨(BitVec.add_zero _).symm, same.firstDesc, errnum, fun x _ => congrFun same.table x, fun _ => .none⟩
      | failed errnum faulty =>
        refine .inr ⟨?_, faulty⟩
        cases flow with
        | next l' s₁ => exact run_failed hrun errnum
        | done r s₁ =>
          obtain ⟨rfl, rfl⟩ := Prod.mk.inj (Option.some.inj hrun)
          exact errnum
  | @next id p t ts committed rest ih =>
    cases fuel with
    | zero => cases hrun
    | succ fuel =>
      obtain ⟨flow, hflow, hpass⟩ := initPass_at hpow hat header fuel s
      rw [run, hflow] at hrun
      cases hpass with
      | stopped invalid => exact absurd (hid ▸ committed.valid) invalid
      | @cached s₁ valid firstDesc errnum table =>
        have hle' := cacheTransaction_le s.journalTable (d.journal p) (d.journal (d.commitBlock p)) hle
        obtain hran | hfailed := ih (by rw [← hid]) (by rw [committed.length]) hle'.2 hrun
        · refine .inl ⟨?_, hran.firstDesc.trans firstDesc, hran.errnum.trans errnum, ?_, ?_⟩
          · rw [hran.nextTransId, List.length_cons, BitVec.add_assoc, Nat.add_comm ts.length 1, BitVec.ofNat_add]
            rfl
          · intro x hx
            rw [hran.below x (Nat.lt_of_lt_of_le hx hle'.1), table]
            exact cacheTransaction_below _ _ hx
          · intro hroom
            apply cacheTransaction_cached committed hroom _ hran.cached
            intro x hx
            rw [hran.below x hx, table]
        · exact .inr hfailed
      | failed errnum faulty =>
        refine .inr ⟨?_, faulty⟩
        cases flow with
        | next l' s₁ => exact run_failed hrun errnum
        | done r s₁ =>
          obtain ⟨rfl, rfl⟩ := Prod.mk.inj (Option.some.inj hrun)
          exact errnum

theorem initPass_ends (hpow : ∃ k, d.journalBlockCount.toNat = 2 ^ k) (hhealthy : ¬ Faulty d) {id : Word}
    (hlog : Log d (headerMountId header) id p ts) (hid : l.nextTransId = id) (hat : l.descBlock = BitVec.ofNat 32 p) :
    Loop.Ends (initPass d header) l s := by
  induction hlog generalizing l s with
  | @stop id p invalid =>
    obtain ⟨flow, hflow, hpass⟩ := initPass_at hpow hat header 0 s
    apply Loop.ends_of_pass (fun _ _ _ => Loop.Before.refl _) hflow
    rintro l' s₁ rfl
    cases hpass with
    | cached valid => exact absurd (hid ▸ valid) invalid
    | failed _ faulty => exact absurd faulty hhealthy
  | @next id p t ts committed rest ih =>
    obtain ⟨flow, hflow, hpass⟩ := initPass_at hpow hat header 0 s
    apply Loop.ends_of_pass (fun _ _ _ => Loop.Before.refl _) hflow
    rintro l' s₁ rfl
    cases hpass with
    | cached => exact ih (by rw [← hid]) (by rw [committed.length])
    | failed _ faulty => exact absurd faulty hhealthy

end Init

/-! ## The lookup -/

section Lookup
variable {d : Image σ} {s s' : State σ} {mount id blockNr : Word} {p : Nat} {t : Transaction} {ts : List Transaction}

theorem place_append (xs ys : List Word) (b : Word) : place (xs ++ ys) b = (place xs b).or ((place ys b).map (· + xs.length)) := by
  simp only [place, List.findIdx?_append]
  cases List.findIdx? (· = b) xs with
  | some i => rfl
  | none =>
    cases List.findIdx? (· = b) ys with
    | none => rfl
    | some i =>
      show some (i + xs.length + 1) = some (i + 1 + xs.length)
      rw [Nat.add_right_comm]

/-- A transaction in the table. -/
theorem lookCached_eq {ptr : Nat} (hlength : s.journalTable ptr = BitVec.ofNat 32 t.blocks.length)
    (hblocks : slice s.journalTable (ptr + 1) t.blocks.length = t.blocks) :
    lookCached s ptr blockNr = ⟨BitVec.ofNat 32 t.blocks.length, place t.blocks blockNr, ptr + 1 + t.blocks.length⟩ := by
  rw [lookCached, hlength, t.toInt_length, hblocks]

/-- `a` is what reading comes to, if no read fails. -/
inductive Got {α : Type} (d : Image σ) (s : State σ) (a : α) : Option α × State σ → Prop where
  | got {s' : State σ} (same : SameJournal s s') (errnum : s'.errnum = s.errnum) : Got d s a (some a, s')
  | failed {s' : State σ} (same : SameJournal s s') (errnum : s'.errnum = d.fault) (faulty : Faulty d) : Got d s a (none, s')

theorem Got.healthy {α : Type} {a : α} {r : Option α × State σ} (h : Got d s a r) (hhealthy : ¬ Faulty d) : r.1 = some a := by
  cases h with
  | got => rfl
  | failed _ _ faulty => exact absurd faulty hhealthy

theorem Got.trans {α : Type} {a : α} {r : Option α × State σ} (same : SameJournal s s') (errnum : s'.errnum = s.errnum) (h : Got d s' a r) :
    Got d s a r := by
  cases h with
  | got same' errnum' => exact .got (same.trans same') (errnum'.trans errnum)
  | failed same' errnum' faulty => exact .failed (same.trans same') errnum' faulty

variable (s blockNr) in
/-- A transaction on the disk gives the same answer. -/
theorem lookDisk_eq (hpow : ∃ k, d.journalBlockCount.toNat = 2 ^ k) (hc : Committed d mount id p t) (ptr : Nat) (stack : Block) :
    Got d s ⟨BitVec.ofNat 32 t.blocks.length, place t.blocks blockNr, ptr⟩ (lookDisk d s ptr (BitVec.ofNat 32 p) blockNr stack) := by
  have hfirst : (List.range (min t.blocks.length journalTransHalf)).map (descRealblock (d.journal p)) = t.blocks.take journalTransHalf := by
    apply List.ext_getElem?
    intro i
    rw [List.getElem?_map]
    by_cases hi : i < min t.blocks.length journalTransHalf
    · rw [List.getElem?_range hi, Option.map_some, List.getElem?_take_of_lt (by omega)]
      exact (hc.desc i (by omega) (by omega)).symm
    · rw [List.getElem?_eq_none (by rw [List.length_range]; omega), List.getElem?_eq_none (by rw [List.length_take]; omega)]
      rfl
  unfold lookDisk
  have hread := journalRead_read d s (BitVec.ofNat 32 p) stack
  generalize journalRead d s (BitVec.ofNat 32 p) stack = read at hread
  cases hread with
  | failed same errnum faulty => exact .failed same errnum faulty
  | @delivered s₁ same errnum =>
    rw [show d.image (d.journalBlock + BitVec.ofNat 32 p) = d.journal p from rfl]
    simp only [Bool.not_true, Bool.false_eq_true, if_false, hc.jLen_eq, t.toInt_length, hfirst]
    have hplace : place t.blocks blockNr = (place (t.blocks.take journalTransHalf) blockNr).or
        ((place (t.blocks.drop journalTransHalf) blockNr).map (· + (t.blocks.take journalTransHalf).length)) := by
      rw [← place_append, List.take_append_drop]
    rw [hplace]
    cases place (t.blocks.take journalTransHalf) blockNr with
    | some i => exact .got same errnum
    | none =>
      simp only [Option.none_or]
      split
      next hlong =>
        have hcommitBlock : (BitVec.ofNat 32 p + 1 + BitVec.ofNat 32 t.blocks.length &&& d.journalMask) =
            BitVec.ofNat 32 (d.wrap p (t.blocks.length + 1)) := by
          rw [← wrap_word hpow, BitVec.add_assoc, Nat.add_comm t.blocks.length 1, BitVec.ofNat_add 1]
          rfl
        have hsecond :
            (List.range (t.blocks.length - journalTransHalf)).map (commitRealblock (d.journal (d.wrap p (t.blocks.length + 1)))) =
            t.blocks.drop journalTransHalf := by
          apply List.ext_getElem?
          intro i
          rw [List.getElem?_map, List.getElem?_drop]
          by_cases hi : i < t.blocks.length - journalTransHalf
          · rw [List.getElem?_range hi, Option.map_some, hc.commit _ (by omega) (Nat.le_add_right _ _), Nat.add_sub_cancel_left]
          · rw [List.getElem?_eq_none (by rw [List.length_range]; omega), List.getElem?_eq_none (by omega)]
            rfl
        rw [hcommitBlock]
        have hread' := journalRead_read d s₁ (BitVec.ofNat 32 (d.wrap p (t.blocks.length + 1))) stack
        generalize journalRead d s₁ (BitVec.ofNat 32 (d.wrap p (t.blocks.length + 1))) stack = read at hread'
        cases hread' with
        | failed same' errnum' faulty => exact .failed (same.trans same') errnum' faulty
        | @delivered s₂ same' errnum' =>
          rw [show d.image (d.journalBlock + BitVec.ofNat 32 (d.wrap p (t.blocks.length + 1))) =
            d.journal (d.wrap p (t.blocks.length + 1)) from rfl]
          simp only [Bool.not_true, Bool.false_eq_true, if_false, hsecond, List.length_take, Nat.min_eq_left hlong]
          exact .got (same.trans same') (errnum'.trans errnum)
      next hshort =>
        rw [List.drop_of_length_le (Nat.le_of_not_le hshort)]
        exact .got same errnum

/-- The number of the block that holds what the transactions make of block `b`. -/
def Image.target (d : Image σ) (b : Word) : Nat → List Transaction → Word → Word
  | _, [], translatedNr => translatedNr
  | p, t :: ts, translatedNr =>
    d.target b (d.wrap p (t.blocks.length + 2)) ts
      (match place t.blocks b with
      | some i => d.journalBlock + BitVec.ofNat 32 (d.wrap p i)
      | none => translatedNr)

theorem replay_transaction {store : Word → Block} {translatedNr : Word} (hstore : store blockNr = d.image translatedNr) (t : Transaction)
    (p : Nat) :
    replay (t.blocks.mapIdx fun i b => (b, d.journal (d.wrap p (i + 1)))) store blockNr =
      d.image (match place t.blocks blockNr with
        | some i => d.journalBlock + BitVec.ofNat 32 (d.wrap p i)
        | none => translatedNr) := by
  cases hplace : t.blocks.findIdx? (· = blockNr) with
  | none =>
    rw [place, hplace, Replay.replay_of_notMem]
    · exact hstore
    · intro w hw heq
      obtain ⟨i, hi, rfl⟩ := List.mem_mapIdx.1 hw
      have hne := List.findIdx?_eq_none_iff.1 hplace _ (List.getElem_mem hi)
      simp only [decide_eq_false_iff_not] at hne
      exact hne heq
  | some i =>
    rw [place, hplace]
    obtain ⟨hi, heq, -⟩ := List.findIdx?_eq_some_iff_getElem.1 hplace
    simp only [decide_eq_true_eq] at heq
    have hmem : (blockNr, d.journal (d.wrap p (i + 1))) ∈ t.blocks.mapIdx fun i b => (b, d.journal (d.wrap p (i + 1))) :=
      List.mem_mapIdx.2 ⟨i, hi, by rw [heq]⟩
    apply Replay.replay_of_mem _ hmem
    have hfst : (t.blocks.mapIdx fun i b => (b, d.journal (d.wrap p (i + 1)))).map Prod.fst = t.blocks := by
      apply List.ext_getElem?
      intro k
      rw [List.getElem?_map, List.getElem?_mapIdx, Option.map_map]
      exact congrFun Option.map_id _
    rw [hfst]
    exact t.nodup

/-- The block that `target` names holds the replayed block. -/
theorem image_target {store : Word → Block} {translatedNr : Word} (hstore : store blockNr = d.image translatedNr) (p : Nat)
    (ts : List Transaction) :
    d.image (d.target blockNr p ts translatedNr) = replay (d.writes p ts) store blockNr := by
  induction ts generalizing p store translatedNr with
  | nil => exact hstore.symm
  | cons t ts ih =>
    rw [Image.target, Image.writes, Replay.replay_append]
    exact ih (replay_transaction hstore t p) _

variable (blockNr) in
/-- **The loop of `block_read`** comes to the same block with the table and without it. -/
theorem translate_got (hpow : ∃ k, d.journalBlockCount.toNat = 2 ^ k) (hlog : Log d mount id p ts) {n ptr : Nat} (hn : n ≤ ts.length)
    (hcached : Cached s.journalTable ptr ts) (stack : Block) (translatedNr : Word) :
    Got d s (d.target blockNr p (ts.take n) translatedNr) (translate d blockNr stack n ptr (BitVec.ofNat 32 p) translatedNr s) := by
  induction hlog generalizing n ptr s translatedNr with
  | stop invalid =>
    obtain rfl := Nat.le_zero.1 hn
    exact .got (.refl s) rfl
  | @next id p t ts committed rest ih =>
    cases n with
    | zero => exact .got (.refl s) rfl
    | succ n =>
      have hdescBlock : (BitVec.ofNat 32 p + 2 + BitVec.ofNat 32 t.blocks.length &&& d.journalMask) =
          BitVec.ofNat 32 (d.wrap p (t.blocks.length + 2)) := by
        rw [← wrap_word hpow, BitVec.add_assoc, Nat.add_comm t.blocks.length 2, BitVec.ofNat_add 2]
        rfl
      have hn' : n ≤ ts.length := Nat.le_of_succ_le_succ hn
      rw [translate, List.take_succ_cons, Image.target]
      have hnr : ∀ i, (BitVec.ofNat 32 p + BitVec.ofNat 32 i &&& d.journalMask) = BitVec.ofNat 32 (d.wrap p i) := wrap_word hpow p
      by_cases hmark : s.journalTable ptr = 0xffffffff
      · -- What is not in the table is read from the disk, and so is all that follows.
        have hlook := lookDisk_eq s blockNr hpow committed ptr stack
        rw [if_neg (not_not.2 hmark)]
        generalize lookDisk d s ptr (BitVec.ofNat 32 p) blockNr stack = looked at hlook
        cases hlook with
        | failed same errnum faulty => exact .failed same errnum faulty
        | @got s₁ same errnum =>
          simp only [hdescBlock, hnr]
          apply Got.trans same errnum
          exact ih hn' (.stop (same.table ▸ hmark)) _
      · cases hcached with
        | stop mark => exact absurd mark hmark
        | next length blocks restCached =>
          rw [if_pos hmark, lookCached_eq length blocks]
          simp only [hdescBlock, hnr]
          exact ih hn' restCached _

variable (blockNr) in
/-- `block_read` reads the block that the transactions leave, as far as they are counted. -/
theorem readBlock_read (hpow : ∃ k, d.journalBlockCount.toNat = 2 ^ k) (hlog : Log d mount id p ts)
    (hfirst : s.journalFirstDesc = BitVec.ofNat 32 p)
    (hn : s.journalTransactions.toNat ≤ ts.length) (hcached : Cached s.journalTable 0 ts) (stack buffer : Block) :
    Read d s (d.replayed p (ts.take s.journalTransactions.toNat) blockNr) buffer (readBlock d stack s blockNr buffer) := by
  unfold readBlock
  have htranslate := translate_got blockNr hpow hlog hn hcached stack blockNr
  rw [hfirst]
  generalize translate d blockNr stack s.journalTransactions.toNat 0 (BitVec.ofNat 32 p) blockNr s = translated at htranslate
  cases htranslate with
  | failed same errnum faulty => exact .failed same errnum faulty (.inl rfl)
  | @got s₁ same errnum =>
    rw [Image.replayed, ← image_target rfl]
    exact (devread_read d s₁ _ buffer).trans same errnum

theorem Read.got {block buffer : Block} {r : Bool × Block × State σ} (h : Read d s block buffer r) (start len : Nat) :
    Got d s (slice block start len) (if r.1 then some (slice r.2.1 start len) else none, r.2.2) := by
  cases h with
  | delivered same errnum => exact .got same errnum
  | failed same errnum faulty => exact .failed same errnum faulty

variable (blockNr) in
theorem blockRead_got (hpow : ∃ k, d.journalBlockCount.toNat = 2 ^ k) (hlog : Log d mount id p ts)
    (hfirst : s.journalFirstDesc = BitVec.ofNat 32 p)
    (hn : s.journalTransactions.toNat ≤ ts.length) (hcached : Cached s.journalTable 0 ts) (stack : Block) (start len : Nat) :
    Got d s (slice (d.replayed p (ts.take s.journalTransactions.toNat) blockNr) start len) (blockRead d stack s blockNr start len) :=
  (readBlock_read blockNr hpow hlog hfirst hn hcached stack stack).got start len

end Lookup

/-! ## The whole -/

section Whole
variable {d : Image σ} {s s' : State σ} {p : Nat} {ts : List Transaction} {stack : Block} {fuel : Nat}

theorem journal_header (d : Image σ) : d.image (d.journalBlock + d.journalBlockCount) = d.journal d.journalBlockCount.toNat := by
  rw [Image.journal, BitVec.ofNat_toNat, BitVec.setWidth_eq]

theorem ofNat_toNat_of_lt {count : Word} (h : p < count.toNat) : (BitVec.ofNat 32 p).toNat = p :=
  Nat.mod_eq_of_lt (Nat.lt_trans h count.isLt)

/-- What a `journal_init` leaves that succeeds. -/
theorem journalInit_true (hj : Journal d p ts) (hinit : journalInit d fuel stack s = some (true, s')) :
    s'.journalFirstDesc = BitVec.ofNat 32 p ∧ s'.journalTransactions.toNat = ts.length % 2 ^ 16 ∧ Cached s'.journalTable 0 ts := by
  unfold journalInit at hinit
  have hheader := journalRead_read d s d.journalBlockCount stack
  generalize journalRead d s d.journalBlockCount stack = read at hinit hheader
  obtain ⟨ok, header, s₁⟩ := read
  simp only at hinit
  split at hinit
  · simp only [Option.some.injEq, Prod.mk.injEq, Bool.false_eq_true, false_and] at hinit
  · obtain ⟨⟨nextTransId, s₂⟩, hrun, hinit⟩ := Option.bind_eq_some_iff.1 hinit
    obtain ⟨herrnum, rfl⟩ := Prod.mk.inj (Option.some.inj hinit)
    simp only [decide_eq_true_eq] at herrnum
    have hnofault : s₂.errnum ≠ d.fault := fun h => d.fault.2 (h.symm.trans herrnum)
    cases hheader with
    | failed same errnum faulty => exact absurd (run_failed hrun errnum) hnofault
    | delivered same errnum =>
      rw [journal_header] at hrun ⊢
      obtain hran | ⟨hfailed, -⟩ := run_initPass hj.isPowerOfTwo hj.log rfl hj.firstUnflushed (Nat.zero_le _) hrun
      · refine ⟨hran.firstDesc.trans hj.firstUnflushed, ?_, hran.cached (show 0 < journalWords by decide)⟩
        rw [hran.nextTransId]
        show ((jLastFlushTransId _ + 1 + BitVec.ofNat 32 ts.length - jLastFlushTransId _ - 1).setWidth 16).toNat = _
        have hsub : ∀ x y : Word, x + 1 + y - x - 1 = y := fun x y => by bv_omega
        rw [hsub, BitVec.toNat_setWidth, BitVec.toNat_ofNat]
        exact Nat.mod_mod_of_dvd _ (by decide)
      · exact absurd hfailed hnofault

/-- Without failing reads `journal_init` succeeds. -/
theorem journalInit_succeeds (hj : Journal d p ts) (hhealthy : ¬ Faulty d) (hs : s.errnum = .none) (stack : Block) :
    ∃ fuel s', journalInit d fuel stack s = some (true, s') := by
  have hheader := journalRead_read d s d.journalBlockCount stack
  unfold journalInit
  generalize journalRead d s d.journalBlockCount stack = read at hheader
  cases hheader with
  | failed same errnum faulty => exact absurd faulty hhealthy
  | @delivered s₁ same errnum =>
    rw [journal_header]
    obtain ⟨fuel, ⟨nextTransId, s'⟩, hrun⟩ :=
      initPass_ends (s := { s₁ with journalFirstDesc := jFirstUnflushedOffset (d.journal d.journalBlockCount.toNat) })
      (l := ⟨jFirstUnflushedOffset (d.journal d.journalBlockCount.toNat), _, stack, stack, 0⟩) hj.isPowerOfTwo hhealthy hj.log rfl
        hj.firstUnflushed
    refine ⟨fuel, { s' with journalTransactions := (nextTransId - jLastFlushTransId (d.journal d.journalBlockCount.toNat) - 1).setWidth 16
                              }, ?_⟩
    simp only
    rw [if_neg]
    · rw [hrun]
      obtain hran | ⟨-, hfaulty⟩ := run_initPass hj.isPowerOfTwo hj.log rfl hj.firstUnflushed (Nat.zero_le _) hrun
      · have herrnum : s'.errnum = .none := hran.errnum.trans (errnum.trans hs)
        show some (decide (s'.errnum = .none), _) = some (true, _)
        rw [decide_eq_true herrnum]
      · exact absurd hfaulty hhealthy
    · rw [hj.firstUnflushed, BitVec.le_def, ofNat_toNat_of_lt hj.inside]
      exact Nat.not_le.2 hj.inside

end Whole

/-- The file system on another drive. -/
def Image.onDrive (d : Image σ) (devread : σ → Word → Block → Option Block × σ) : Image σ := { d with devread := devread }

section Drives
variable {d : Image σ} {p : Nat} {ts : List Transaction} {mount id : Word} {t : Transaction}
  {devread : σ → Word → Block → Option Block × σ}

theorem Valid.onDrive (h : Valid d mount id p) : Valid (d.onDrive devread) mount id p := ⟨h.1, h.2, h.3, h.4, h.5⟩

theorem Committed.onDrive (h : Committed d mount id p t) : Committed (d.onDrive devread) mount id p t :=
  ⟨h.valid.onDrive, h.length, h.desc, h.commit⟩

theorem Log.onDrive (h : Log d mount id p ts) : Log (d.onDrive devread) mount id p ts := by
  induction h with
  | stop invalid => exact .stop fun h => invalid ⟨h.1, h.2, h.3, h.4, h.5⟩
  | next committed rest ih => exact .next committed.onDrive ih

theorem Journal.onDrive (h : Journal d p ts) : Journal (d.onDrive devread) p ts :=
  ⟨h.isPowerOfTwo, h.firstUnflushed, h.inside, h.log.onDrive⟩

theorem writes_onDrive (d : Image σ) (devread : σ → Word → Block → Option Block × σ) (p : Nat) (ts : List Transaction) :
    (d.onDrive devread).writes p ts = d.writes p ts := by
  induction ts generalizing p with
  | nil => rfl
  | cons t ts ih =>
    rw [Image.writes, Image.writes, ← ih]
    rfl

theorem replayed_onDrive (d : Image σ) (devread : σ → Word → Block → Option Block × σ) (p : Nat) (ts : List Transaction) :
    (d.onDrive devread).replayed p ts = d.replayed p ts := by
  rw [Image.replayed, writes_onDrive]
  rfl

/-- What `block_read` is to deliver, whatever reads there were before it. -/
def Delivers (d : Image σ) (blocks : Word → Block) (s : State σ) : Prop :=
  ∀ dev errnum stack blockNr start len, Got d { s with dev := dev, errnum := errnum } (slice (blocks blockNr) start len)
    (blockRead d stack { s with dev := dev, errnum := errnum } blockNr start len)

/-- **The journal** is replayed, whatever the drive does, exactly where the number of the
transactions has 16 bits, or those that are not counted change nothing. -/
theorem journal_replayed_iff (hj : Journal d p ts) (s : State σ) (hs : s.errnum = .none) :
    (∀ devread, (¬ Faulty (d.onDrive devread) → ∀ stack, ∃ fuel s', journalInit (d.onDrive devread) fuel stack s = some (true, s')) ∧
      ∀ fuel stack s', journalInit (d.onDrive devread) fuel stack s = some (true, s') → Delivers (d.onDrive devread) (d.replayed p ts) s') ↔
      ts.length < 2 ^ 16 ∨ d.replayed p (ts.take (ts.length % 2 ^ 16)) = d.replayed p ts := by
  constructor
  · intro hall
    right
    have hhealthy : ¬ Faulty (d.onDrive fun dev _ _ => (none, dev)) := fun ⟨_, _, _, h⟩ => h rfl
    obtain ⟨hends, hdelivers⟩ := hall fun dev _ _ => (none, dev)
    obtain ⟨fuel, s', hinit⟩ := hends hhealthy fun _ => 0
    have hj' : Journal (d.onDrive fun dev _ _ => (none, dev)) p ts := hj.onDrive
    obtain ⟨hfirst, hcount, hcached⟩ := journalInit_true hj' hinit
    have hle : s'.journalTransactions.toNat ≤ ts.length := hcount ▸ Nat.mod_le _ _
    funext blockNr x
    have hgot := blockRead_got blockNr hj'.isPowerOfTwo hj'.log hfirst hle hcached (fun _ => 0) x 1
    have hdelivered := hdelivers fuel _ s' hinit s'.dev s'.errnum (fun _ => 0) blockNr x 1
    rw [replayed_onDrive, hcount] at hgot
    have hbytes := Option.some.inj ((hgot.healthy hhealthy).symm.trans (hdelivered.healthy hhealthy))
    rw [Memory.slice_succ, Memory.slice_succ] at hbytes
    exact (List.cons.inj hbytes).1
  · intro h devread
    have hj' : Journal (d.onDrive devread) p ts := hj.onDrive
    refine ⟨fun hhealthy => journalInit_succeeds hj' hhealthy hs, ?_⟩
    intro fuel stack s' hinit dev errnum stack' blockNr start len
    obtain ⟨hfirst, hcount, hcached⟩ := journalInit_true hj' hinit
    have htake : d.replayed p ts = (d.onDrive devread).replayed p (ts.take s'.journalTransactions.toNat) := by
      rw [replayed_onDrive, hcount]
      obtain hlt | heq := h
      · rw [Nat.mod_eq_of_lt hlt, List.take_length]
      · exact heq.symm
    rw [htake]
    exact blockRead_got _ (s := { s' with dev := dev, errnum := errnum }) hj'.isPowerOfTwo hj'.log hfirst (hcount ▸ Nat.mod_le _ _) hcached
      ..

end Drives

section Examples

/-- A block with these words. -/
def blockOf (words : Nat → Word) : Block := fun x => (words (x / 4) >>> (8 * (x % 4))).setWidth 8

theorem wordOf_blockOf (words : Nat → Word) (i : Nat) : wordOf (blockOf words) i = words i := by
  have hdiv : ∀ k < 4, (4 * i + k) / 4 = i ∧ (4 * i + k) % 4 = k := by omega
  have hzero : 4 * i / 4 = i ∧ 4 * i % 4 = 0 := hdiv 0 (by decide)
  simp only [wordOf, blockOf, hzero.1, hzero.2, (hdiv 1 (by decide)).1, (hdiv 1 (by decide)).2, (hdiv 2 (by decide)).1,
    (hdiv 2 (by decide)).2,
    (hdiv 3 (by decide)).1, (hdiv 3 (by decide)).2]
  apply BitVec.eq_of_getLsbD_eq
  intro k hk
  simp only [BitVec.getLsbD_append, BitVec.getLsbD_setWidth, BitVec.getLsbD_ushiftRight]
  by_cases h8 : k < 8
  · simp [h8]
  · by_cases h16 : k < 16
    · simp [h8, show k - 8 < 8 by omega, show 8 + (k - 8) = k by omega]
    · by_cases h24 : k < 24
      · simp [h8, show ¬ k - 8 < 8 by omega, show k - 8 - 8 < 8 by omega, show 16 + (k - 8 - 8) = k by omega]
      · simp [h8, show ¬ k - 8 < 8 by omega, show ¬ k - 8 - 8 < 8 by omega, show k - 8 - 8 - 8 < 8 by omega,
          show 24 + (k - 8 - 8 - 8) = k by omega]

/-- The descriptor of a transaction with block 7. -/
def sampleDesc (id : Word) (i : Nat) : Word :=
  if i = 0 then id else if i = 1 then 1 else if i = 3 then 7 else if i = 1021 then 0x73496552 else if i = 1022 then 0x424C7245 else 0

def sampleCommit (id : Word) (i : Nat) : Word := if i = 0 then id else if i = 1 then 1 else 0

theorem sampleDesc_magic (id : Word) : jMagic (blockOf (sampleDesc id)) = journalDescMagic := by
  have hslice : slice (blockOf (sampleDesc id)) 4084 12 = journalDescMagic ++ [0, 0, 0, 0] := by
    simp [slice, List.range, List.range.loop, blockOf, sampleDesc, journalDescMagic]
  show (slice (blockOf (sampleDesc id)) 4084 12).takeWhile _ = _
  rw [hslice]
  rfl

/-- The words of block `p` of a journal with `n` transactions. -/
def sampleWords (n p : Nat) : Nat → Word :=
  if 3 * n ≤ p then fun _ => 0
  else if p % 3 = 0 then sampleDesc (BitVec.ofNat 32 (p / 3 + 1))
  else if p % 3 = 1 then fun _ => 1
  else sampleCommit (BitVec.ofNat 32 (p / 3 + 1))

/-- A journal of 1 GiB. Each of the transactions fills block 7 with ones. -/
def sampleImage (n : Nat) : Image Unit where
  journalBlock := 256
  journalBlockCount := 2 ^ 18
  image blockNr := blockOf (sampleWords n (blockNr - 256).toNat)
  devread dev _ _ := (none, dev)
  fault := ⟨.read, Disk.GrubError.read_ne_none⟩

def sampleTransaction : Transaction := ⟨[7], by decide, by decide⟩

theorem sampleImage_journal {n p : Nat} (hp : p < 2 ^ 32) : (sampleImage n).journal p = blockOf (sampleWords n p) := by
  have hsub : (256 + BitVec.ofNat 32 p - 256 : Word).toNat = p := by
    rw [show (256 + BitVec.ofNat 32 p - 256 : Word) = BitVec.ofNat 32 p by bv_omega]
    exact Nat.mod_eq_of_lt hp
  show blockOf (sampleWords n (256 + BitVec.ofNat 32 p - 256 : Word).toNat) = _
  rw [hsub]

theorem sampleImage_wrap {n p k : Nat} (h : p + k < 2 ^ 18) : (sampleImage n).wrap p k = p + k := Nat.mod_eq_of_lt h

theorem sampleImage_committed {n k : Nat} (hn : n ≤ 2 ^ 16) (hk : k < n) :
    Committed (sampleImage n) 0 (BitVec.ofNat 32 (k + 1)) (3 * k) sampleTransaction := by
  have hdesc : (sampleImage n).journal (3 * k) = blockOf (sampleDesc (BitVec.ofNat 32 (k + 1))) := by
    rw [sampleImage_journal (by omega), sampleWords, if_neg (by omega), if_pos (by omega), Nat.mul_div_cancel_left k (by decide)]
  have hwrap : (sampleImage n).wrap (3 * k) 2 = 3 * k + 2 := sampleImage_wrap (by omega)
  have hcommit : (sampleImage n).journal (3 * k + 2) = blockOf (sampleCommit (BitVec.ofNat 32 (k + 1))) := by
    rw [sampleImage_journal (by omega), sampleWords, if_neg (by omega), if_neg (by omega), if_neg (by omega),
      show (3 * k + 2) / 3 = k by omega]
  have hlen : jLen ((sampleImage n).journal (3 * k)) = 1 := by
    rw [hdesc]
    exact wordOf_blockOf _ 1
  have hvalid : Valid (sampleImage n) 0 (BitVec.ofNat 32 (k + 1)) (3 * k) := by
    constructor
    · simp only [hdesc, sampleDesc_magic, List.prefix_refl]
    · rw [hdesc]
      exact wordOf_blockOf _ 0
    · rw [hdesc]
      exact wordOf_blockOf _ 2
    · rw [hlen]
      show jTransId ((sampleImage n).journal ((sampleImage n).wrap (3 * k) 2)) = _
      rw [hwrap, hcommit]
      exact wordOf_blockOf _ 0
    · rw [hlen]
      show jLen ((sampleImage n).journal ((sampleImage n).wrap (3 * k) 2)) = _
      rw [hwrap, hcommit]
      exact wordOf_blockOf _ 1
  refine ⟨hvalid, by rw [hlen]; rfl, ?_, ?_⟩
  · intro i hi hhalf
    obtain rfl : i = 0 := Nat.lt_one_iff.1 hi
    rw [hdesc, descRealblock, wordOf_blockOf]
    rfl
  · intro i hi hhalf
    exact absurd (Nat.lt_of_lt_of_le hi (by decide)) (Nat.not_lt.2 hhalf)

theorem sampleImage_log {n k : Nat} (hn : n ≤ 2 ^ 16) (hk : k ≤ n) :
    Log (sampleImage n) 0 (BitVec.ofNat 32 (n - k + 1)) (3 * (n - k)) (List.replicate k sampleTransaction) := by
  induction k with
  | zero =>
    apply Log.stop
    rintro ⟨hmagic, -⟩
    rw [sampleImage_journal (by omega), sampleWords, if_pos (by omega)] at hmagic
    exact absurd (List.prefix_nil.1 hmagic) (List.cons_ne_nil _ _)
  | succ k ih =>
    apply Log.next (sampleImage_committed hn (by omega))
    rw [show (sampleImage n).wrap (3 * (n - (k + 1))) (sampleTransaction.blocks.length + 2) = 3 * (n - k) from
      (sampleImage_wrap (p := 3 * (n - (k + 1))) (k := 3) (by omega)).trans (by omega)]
    have hid : BitVec.ofNat 32 (n - (k + 1) + 1) + 1 = BitVec.ofNat 32 (n - k + 1) := by
      rw [show n - k + 1 = n - (k + 1) + 1 + 1 by omega]
      exact (BitVec.ofNat_add (n - (k + 1) + 1) 1).symm
    rw [hid]
    exact ih (by omega)

theorem sampleImage_wellFormed {n : Nat} (hn : n ≤ 2 ^ 16) : Journal (sampleImage n) 0 (List.replicate n sampleTransaction) := by
  have hcount : (sampleImage n).journalBlockCount.toNat = 2 ^ 18 := rfl
  have hheader : (sampleImage n).journal (2 ^ 18) = blockOf fun _ => 0 := by
    rw [sampleImage_journal (by decide), sampleWords, if_pos (by omega)]
  have hlog := sampleImage_log hn (Nat.le_refl n)
  rw [Nat.sub_self] at hlog
  refine ⟨⟨18, hcount⟩, ?_, ?_, ?_⟩
  · rw [hcount, hheader]
    exact wordOf_blockOf _ 1
  · rw [hcount]
    exact Nat.two_pow_pos 18
  · rw [hcount, hheader, headerMountId, jLastFlushTransId, wordOf_blockOf, wordOf_blockOf]
    exact hlog

theorem sampleImage_replay {n k : Nat} (hn : n ≤ 2 ^ 16) (hk : k < n) (store : Word → Block) :
    replay ((sampleImage n).writes (3 * (n - (k + 1))) (List.replicate (k + 1) sampleTransaction)) store 7 = blockOf fun _ => 1 := by
  induction k generalizing store with
  | zero =>
    have hblock : (sampleImage n).journal ((sampleImage n).wrap (3 * (n - 1)) 1) = blockOf fun _ => 1 := by
      rw [sampleImage_wrap (by omega), sampleImage_journal (by omega), sampleWords, if_neg (by omega), if_neg (by omega), if_pos (by omega)]
    show Function.update store 7 ((sampleImage n).journal ((sampleImage n).wrap (3 * (n - 1)) 1)) 7 = _
    rw [Function.update_self, hblock]
  | succ k ih =>
    have hwrap : (sampleImage n).wrap (3 * (n - (k + 1 + 1))) 3 = 3 * (n - (k + 1)) := (sampleImage_wrap (by omega)).trans (by omega)
    rw [List.replicate_succ, Image.writes, Replay.replay_append]
    show replay ((sampleImage n).writes ((sampleImage n).wrap (3 * (n - (k + 1 + 1))) 3) _) _ 7 = _
    rw [hwrap]
    exact ih (by omega) _

theorem sampleImage_replayed {n : Nat} (hn : n ≤ 2 ^ 16) (hpos : 0 < n) :
    (sampleImage n).replayed 0 (List.replicate n sampleTransaction) 7 = blockOf fun _ => 1 := by
  obtain ⟨k, rfl⟩ := Nat.exists_eq_add_of_le' hpos
  have hreplay := sampleImage_replay hn (Nat.lt_succ_self k) (sampleImage (k + 1)).image
  rw [Nat.sub_self] at hreplay
  exact hreplay

/-- What `reiserfs_mount` hands to `journal_init`. -/
def mounted : State Unit := ⟨0, 0, fun _ => 0, .none, ()⟩

/-- Two transactions are replayed. -/
theorem journal_replayed_iff_two :
    (∀ devread, (¬ Faulty ((sampleImage 2).onDrive devread) → ∀ stack, ∃ fuel s',
      journalInit ((sampleImage 2).onDrive devread) fuel stack mounted = some (true, s')) ∧
      ∀ fuel stack s', journalInit ((sampleImage 2).onDrive devread) fuel stack mounted = some (true, s') →
        Delivers ((sampleImage 2).onDrive devread) ((sampleImage 2).replayed 0 (List.replicate 2 sampleTransaction)) s') ↔
      (List.replicate 2 sampleTransaction).length < 2 ^ 16 ∨
        (sampleImage 2).replayed 0 ((List.replicate 2 sampleTransaction).take ((List.replicate 2 sampleTransaction).length % 2 ^ 16)) =
          (sampleImage 2).replayed 0 (List.replicate 2 sampleTransaction) :=
  journal_replayed_iff (sampleImage_wellFormed (by decide)) mounted rfl

/-- Of `2 ^ 16` transactions none is counted, and block 7 is read as it is on the disk. -/
theorem sampleImage_lost :
    Journal (sampleImage (2 ^ 16)) 0 (List.replicate (2 ^ 16) sampleTransaction) ∧
      (∃ fuel s', journalInit (sampleImage (2 ^ 16)) fuel (fun _ => 0) mounted = some (true, s') ∧
        (blockRead (sampleImage (2 ^ 16)) (fun _ => 0) s' 7 0 1).1 = some [0]) ∧
      slice ((sampleImage (2 ^ 16)).replayed 0 (List.replicate (2 ^ 16) sampleTransaction) 7) 0 1 = [1] := by
  have hj := sampleImage_wellFormed (Nat.le_refl (2 ^ 16))
  have hhealthy : ¬ Faulty (sampleImage (2 ^ 16)) := fun ⟨_, _, _, h⟩ => h rfl
  refine ⟨hj, ?_, ?_⟩
  · obtain ⟨fuel, s', hinit⟩ := journalInit_succeeds hj hhealthy (s := mounted) rfl fun _ => 0
    obtain ⟨hfirst, hcount, hcached⟩ := journalInit_true hj hinit
    refine ⟨fuel, s', hinit, ?_⟩
    rw [List.length_replicate, Nat.mod_self] at hcount
    have hgot := blockRead_got 7 hj.isPowerOfTwo hj.log hfirst (hcount ▸ Nat.zero_le _) hcached (fun _ => 0) 0 1
    rw [hcount, List.take_zero] at hgot
    rw [hgot.healthy hhealthy]
    have hblock : (sampleImage (2 ^ 16)).replayed 0 [] 7 = blockOf fun _ => 0 := by
      show blockOf (sampleWords (2 ^ 16) (7 - 256 : Word).toNat) = _
      rw [sampleWords, if_pos (by decide)]
    rw [hblock]
    rfl
  · rw [sampleImage_replayed (Nat.le_refl (2 ^ 16)) (by decide)]
    rfl

end Examples

end TrustedGrub.Reiserfs
