import TrustedGrub.Jfs.Exact

/-!
# Files and inodes of JFS, read one after the other

All of them share the one page in memory. Where every file has its extents in one leaf the
page never names another one, and then no inode disturbs the next. A file with several leaves
is not gone through right, nor is one in its inode behind it.
-/

namespace TrustedGrub.Jfs
open Extents (Extent Sorted Reads Covered content)
open Fsys (Byte Word Long Block Partition Io devread Faulty devread_lost ofNat_toInt_small)
open Loop (Body Flow Leads run)

variable {σ : Type}

/-! ## The way through the extents -/

/-- An entry as the program takes it. -/
structure Xad where
  offset : Long
  len : Long
  address : Long
  deriving DecidableEq

def xadAt (b : Block) (i : Nat) : Xad := ⟨offsetXAD b i, lengthXAD b i, addressXAD b i⟩

/-- What an extent is to be taken for. -/
def Mount.xad (m : Mount) (x : Extent) : Xad := ⟨.ofNat 64 x.offset, .ofNat 64 x.len, .ofNat 64 (x.start / m.bsize)⟩

/-- A pass of a loop that only looks at the extents. -/
def walkPass (d : Partition σ) (m : Mount) (root : Block) : Body (List Xad) (State σ) (List Xad) := fun _ l s =>
  let l := l ++ [xadAt (s.entries root) (16 * s.xad)]
  match nextExtent d m s with
  | (true, s) => some (.next l s)
  | (false, s) => some (.done l s)

/-- `first_extent`, and `next_extent` until there is none. -/
def walk (d : Partition σ) (m : Mount) (root : Block) (fuel : Nat) (s : State σ) : Option (List Xad × State σ) := do
  let s ← firstExtent d m root fuel s
  run (walkPass d m root) fuel [] s

section Walk
variable {d : Partition σ} {m : Mount} {root : Block} {s s' : State σ} {es : List Extent} {x y : Extent} {l r : List Xad} {pos fuel : Nat}
  {later : List (Nat × List Extent)} {Q : List Xad → State σ → Prop}

theorem Up.xadAt_eq {b : Block} {i : Nat} (h : Up d m b i x) : xadAt b i = m.xad x := by
  rw [xadAt, h.offset, h.len, h.address, Mount.xad]

theorem walkPass_lost {flow : Flow (List Xad) (State σ) (List Xad)} (hflow : walkPass d m root fuel l s = some flow) (h : Lost d s) :
    Lost d flow.state := by
  have hnext : Lost d (nextExtent d m s).2 := nextExtent_lost h
  unfold walkPass at hflow
  generalize nextExtent d m s = r at hflow hnext
  obtain ⟨_ | _, s'⟩ := r
  · cases hflow
    exact hnext
  · cases hflow
    exact hnext

theorem walk_lost (hwalk : walk d m root fuel s = some (r, s')) (h : Lost d s) : Lost d s' := by
  obtain ⟨s₁, hfirst, hrun⟩ := Option.bind_eq_some_iff.1 hwalk
  exact Loop.run_keeps walkPass_lost hrun (firstExtent_lost hfirst h)

/-- A pass in the middle of a leaf. -/
theorem walkPass_within (h : Holds d m root s (x :: y :: es)) (hm : m.Sound) (l : List Xad) :
    (∀ fuel, walkPass d m root fuel l s = some (.next (l ++ [m.xad x]) { s with xindex := s.xindex + 1, xad := s.xad + 1 })) ∧
      Holds d m root { s with xindex := s.xindex + 1, xad := s.xad + 1 } (y :: es) := by
  obtain ⟨hnext, hholds⟩ := nextExtent_within h
  refine ⟨fun fuel => ?_, hholds⟩
  simp only [walkPass, hnext, (h.up hm).xadAt_eq]

/-- From the first extent of a leaf the walk comes to the last one. -/
theorem walkPass_leads (hm : m.Sound) (hholds : Holds d m root s (es ++ [x]))
    (hlast : ∀ s', Holds d m root s' [x] → s'.xtpage = s.xtpage → s'.io = s.io →
      Leads (walkPass d m root) (Lost d) Q (l ++ es.map m.xad) s') :
    Leads (walkPass d m root) (Lost d) Q l s := by
  induction es generalizing s l with
  | nil =>
    have hend := hlast s hholds rfl rfl
    rwa [List.map_nil, List.append_nil] at hend
  | cons y es ih =>
    obtain ⟨z, es', hsplit⟩ : ∃ z es', es ++ [x] = z :: es' :=
      List.exists_cons_of_ne_nil (List.append_ne_nil_of_right_ne_nil _ (List.cons_ne_nil x []))
    rw [List.cons_append, hsplit] at hholds
    obtain ⟨hpass, hholds'⟩ := walkPass_within hholds hm l
    apply Leads.next hpass
    rw [← hsplit] at hholds'
    apply ih hholds'
    intro s' hs' hxtpage hio
    rw [List.append_assoc]
    exact hlast s' hs' hxtpage hio

/-- At the end of the only leaf the walk is over, where no page names another one. -/
theorem walkPass_end (hm : m.Sound) (hholds : Holds d m root s [x]) (hpage : headerNext s.xtpage = 0)
    (hQ : Q (l ++ [m.xad x]) { s with xindex := s.xindex + 1 }) :
    Leads (walkPass d m root) (Lost d) Q l s := by
  have hpass : ∀ fuel, walkPass d m root fuel l s = some (.done (l ++ [m.xad x]) { s with xindex := s.xindex + 1 }) := by
    intro fuel
    simp only [walkPass, nextExtent_end hholds.index, (hholds.up hm).xadAt_eq]
    rw [if_neg (not_not.2 hpage)]
  exact .done hpass (.inl hQ)

/-- The walk through a file with one leaf. -/
theorem walk_one (hm : m.Sound) (hfile : Stored d m root es []) (hes : es ≠ []) (hpage : headerNext s.xtpage = 0) :
    (∀ fuel r s', walk d m root fuel s = some (r, s') →
      r = es.map m.xad ∧ s'.io.errnum = s.io.errnum ∧ headerNext s'.xtpage = 0 ∨ Lost d s') ∧
      (¬ Faulty d → ∃ fuel result, ∀ k, fuel ≤ k → walk d m root k s = some result) := by
  have hleads : ∀ s', First d m root es [] s s' → Leads (walkPass d m root) (Lost d)
      (fun r s'' => r = es.map m.xad ∧ s''.io.errnum = s.io.errnum ∧ headerNext s''.xtpage = 0) [] s' := by
    intro s' hfirst
    have hpage' := hfirst.page_zero hpage
    obtain ⟨front, x, rfl⟩ := List.eq_nil_or_concat' es |>.resolve_left hes
    apply walkPass_leads hm (hfirst.holds hes)
    intro s'' hholds hxtpage hio
    apply walkPass_end hm hholds (hxtpage ▸ hpage')
    refine ⟨?_, by rw [hio, hfirst.errnum], hxtpage ▸ hpage'⟩
    rw [List.nil_append, List.map_append]
    rfl
  exact firstExtent_leads hm hfile walkPass_lost hleads

/-! ## Pages of other inodes -/

theorem run_grows (hrun : run (walkPass d m root) fuel l s = some (r, s')) : l.length < r.length := by
  induction fuel generalizing l s with
  | zero => cases hrun
  | succ fuel ih =>
    rw [run] at hrun
    unfold walkPass at hrun
    generalize nextExtent d m s = next at hrun
    obtain ⟨_ | _, s₁⟩ := next
    · cases hrun
      rw [List.length_append]
      exact Nat.lt_succ_self _
    · have hmore := ih hrun
      rw [List.length_append] at hmore
      exact Nat.lt_of_succ_lt hmore

/-- Where the page in memory names another one, the walk goes on there. -/
theorem run_longer (hm : m.Sound) (hholds : Holds d m root s (x :: es)) (hpage : headerNext s.xtpage ≠ 0)
    (hrun : run (walkPass d m root) fuel l s = some (r, s')) : l.length + (x :: es).length < r.length := by
  induction es generalizing x s l fuel with
  | nil =>
    cases fuel with
    | zero => cases hrun
    | succ fuel =>
      rw [run] at hrun
      simp only [walkPass, nextExtent_end hholds.index] at hrun
      rw [if_pos hpage] at hrun
      have hmore := run_grows hrun
      rw [List.length_append] at hmore
      exact hmore
  | cons y es ih =>
    cases fuel with
    | zero => cases hrun
    | succ fuel =>
      obtain ⟨hpass, hholds'⟩ := walkPass_within hholds hm l
      rw [run, hpass] at hrun
      have hmore := ih hholds' hpage hrun
      rw [List.length_append] at hmore
      simp only [List.length_cons, List.length_nil] at hmore ⊢
      omega

/-- **A file in its inode** is not gone through right behind a page that names another one. -/
theorem walk_root_ne (hm : m.Sound) (hfile : Stored d m root es []) (hroot : isLeaf root = true) (hes : es = [] ∨ headerNext s.xtpage ≠ 0)
    (hwalk : walk d m root fuel s = some (r, s')) : r ≠ es.map m.xad := by
  obtain ⟨s₁, hs₁, hholds, -, hxtpage, -⟩ := firstExtent_root hfile hroot s
  obtain ⟨s₂, hfirst, hrun⟩ := Option.bind_eq_some_iff.1 hwalk
  obtain rfl := Option.some.inj ((hs₁ fuel).symm.trans hfirst)
  intro heq
  cases es with
  | nil =>
    have hmore := run_grows hrun
    rw [heq] at hmore
    exact absurd hmore (Nat.lt_irrefl _)
  | cons x es =>
    have hmore := run_longer hm hholds (hxtpage ▸ hes.resolve_left (List.cons_ne_nil x es)) hrun
    rw [heq, List.length_map, List.length_nil, Nat.zero_add] at hmore
    exact absurd hmore (Nat.lt_irrefl _)

/-! ## Several leaves -/

/-- What the walk takes from the leaves behind the first one: as many entries as there are, but
beginning with the second. -/
inductive Skewed (d : Partition σ) : List (Nat × List Extent) → List Xad → Prop where
  | nil : Skewed d [] []
  | cons {pos : Nat} {es : List Extent} {later : List (Nat × List Extent)} {xads rest : List Xad} (length : xads.length + 1 = es.length)
      (others : Skewed d later rest) : Skewed d ((pos, es) :: later) (xadAt d.bytes (pos + 48) :: xads ++ rest)

/-- The cursor is in a page behind the first leaf, with `n` entries to go. -/
structure Beyond (s : State σ) (n : Nat) : Prop where
  place : s.place = .page
  index : ∃ i, s.xindex = .ofNat 32 i ∧ s.xlastindex = .ofNat 32 (i + n) ∧ i + n ≤ 256

variable (d m root) in
/-- A pass in the middle of such a page. -/
theorem Beyond.within {n : Nat} (h : Beyond s (n + 2)) (l : List Xad) :
    (∀ fuel, walkPass d m root fuel l s = some
      (.next (l ++ [xadAt s.xtpage (16 * s.xad)]) { s with xindex := s.xindex + 1, xad := s.xad + 1 })) ∧
      Beyond { s with xindex := s.xindex + 1, xad := s.xad + 1 } (n + 1) := by
  obtain ⟨hplace, i, hindex, hlast, hle⟩ := h
  have hnext : s.xindex + 1 = .ofNat 32 (i + 1) := by
    rw [hindex, BitVec.ofNat_add]
    rfl
  constructor
  · intro fuel
    simp only [walkPass, nextExtent, State.entries, hplace]
    rw [if_pos]
    rw [hnext, hlast, ofNat_toInt_small (by omega), ofNat_toInt_small (by omega)]
    omega
  · refine ⟨hplace, i + 1, hnext, ?_, by omega⟩
    rw [hlast]
    congr 1
    omega

/-- The walk through the rest of a page, if it is known from its last entry on. -/
theorem walkPass_beyond {next : Long} {R : List Xad → Prop}
    (hlast : ∀ {s : State σ} (l : List Xad), Beyond s 1 → headerNext s.xtpage = next →
      Leads (walkPass d m root) (Lost d) (fun r _ => ∃ rest, R rest ∧ r = l ++ (xadAt s.xtpage (16 * s.xad) :: rest)) l s)
    {n : Nat} {s : State σ} (hbeyond : Beyond s (n + 1)) (hnext : headerNext s.xtpage = next) (l : List Xad) :
    Leads (walkPass d m root) (Lost d) (fun r _ => ∃ xads rest,
      xads.length = n ∧ R rest ∧ r = l ++ (xadAt s.xtpage (16 * s.xad) :: xads ++ rest)) l s := by
  induction n generalizing s l with
  | zero =>
    apply (hlast l hbeyond hnext).imp
    rintro r - ⟨rest, hrest, rfl⟩
    exact ⟨[], rest, rfl, hrest, rfl⟩
  | succ n ih =>
    obtain ⟨hpass, hbeyond'⟩ := hbeyond.within d m root l
    apply Leads.next hpass
    apply (ih hbeyond' hnext _).imp
    rintro r - ⟨xads, rest, hlength, hrest, rfl⟩
    refine ⟨xadAt s.xtpage (16 * (s.xad + 1)) :: xads, rest, congrArg Nat.succ hlength, hrest, ?_⟩
    rw [List.append_assoc]
    rfl

/-- The walk from the last entry of a leaf on. -/
theorem walkPass_later (hm : m.Sound) {next : Long} (hchain : Chain d m next later) (l : List Xad) {s : State σ}
    (hend : ∃ i, s.xindex = .ofNat 32 i ∧ s.xlastindex = .ofNat 32 (i + 1) ∧ i + 1 ≤ 256) (hnext : headerNext s.xtpage = next) :
    Leads (walkPass d m root) (Lost d) (fun r _ => ∃ rest, Skewed d later rest ∧ r = l ++ (xadAt (s.entries root) (16 * s.xad) :: rest)) l
      s := by
  induction hchain generalizing s l with
  | last =>
    have hpass : ∀ fuel, walkPass d m root fuel l s =
      some (.done (l ++ [xadAt (s.entries root) (16 * s.xad)]) { s with xindex := s.xindex + 1 }) := by
      intro fuel
      simp only [walkPass, nextExtent_end hend]
      rw [if_neg (not_not.2 hnext)]
    exact .done hpass (.inl ⟨[], .nil, rfl⟩)
  | @next address pos es next later small names leaf others ih =>
    have hpage : headerNext s.xtpage ≠ 0 := by
      rw [hnext]
      intro hzero
      have hvalue := congrArg BitVec.toNat hzero
      rw [BitVec.toNat_ofNat, Nat.mod_eq_of_lt (by omega)] at hvalue
      exact absurd hvalue (Nat.pos_iff_ne_zero.1 names.behind)
    obtain ⟨xtpage, io, hread, hbytes⟩ := readPage_read (s := { s with xindex := s.xindex + 1 }) hm names
    have hpass : ∀ fuel, walkPass d m root fuel l s = some (.next (l ++ [xadAt (s.entries root) (16 * s.xad)])
        { s with xtpage := xtpage, io := io, xlastindex := nextindex xtpage, xindex := 2, place := .page, xad := 3 }) := by
      intro fuel
      simp only [walkPass, nextExtent_end hend]
      rw [if_pos hpage, hnext, hread]
    obtain ⟨hbytes, -⟩ | hlost := hbytes
    · have hfits := leaf.fits
      obtain ⟨n, hn⟩ : ∃ n, es.length = n + 1 := Nat.exists_eq_succ_of_ne_zero fun h => leaf.some (List.length_eq_zero_iff.1 h)
      have hindex : nextindex xtpage = .ofNat 32 (2 + (n + 1)) := by
        rw [← hn]
        apply nextindex_eq _ (by omega)
        rw [le16_read hbytes (by decide), leaf.nextindex]
      have hnext' : headerNext xtpage = next := by
        show le64 xtpage 0 = _
        rw [le64_read hbytes (by decide), Nat.add_zero, leaf.next]
      have hfirst : xadAt xtpage 48 = xadAt d.bytes (pos + 48) := by
        have haddress : addressXAD xtpage 48 = addressXAD d.bytes (pos + 48) := addressXAD_read hbytes (by decide)
        have hoffset : offsetXAD xtpage 48 = offsetXAD d.bytes (pos + 48) := by
          rw [offsetXAD, offsetXAD, hbytes (48 + 3) (by decide), le32_read hbytes (by decide)]
        have hlen : lengthXAD xtpage 48 = lengthXAD d.bytes (pos + 48) := by
          rw [lengthXAD, lengthXAD, hbytes (48 + 8) (by decide), hbytes (48 + 9) (by decide), hbytes (48 + 10) (by decide)]
        rw [xadAt, haddress, hoffset, hlen]
        rfl
      have hbeyond :
          Beyond { s with xtpage := xtpage, io := io, xlastindex := nextindex xtpage, xindex := 2, place := .page, xad := 3 } (n + 1) :=
        ⟨rfl, 2, rfl, hindex, by omega⟩
      have hlast : ∀ {s : State σ} (l : List Xad), Beyond s 1 → headerNext s.xtpage = next → Leads (walkPass d m root) (Lost d)
          (fun r _ => ∃ rest, Skewed d later rest ∧ r = l ++ (xadAt s.xtpage (16 * s.xad) :: rest)) l s := by
        intro s l hbeyond hnext
        have hrest := ih l hbeyond.index hnext
        rwa [State.entries, hbeyond.place] at hrest
      apply Leads.next hpass
      apply (walkPass_beyond hlast hbeyond hnext' _).imp
      rintro r - ⟨xads, rest, hlength, hrest, rfl⟩
      refine ⟨xadAt d.bytes (pos + 48) :: xads ++ rest, .cons (by rw [hlength, hn]) hrest, ?_⟩
      rw [← hfirst, List.append_assoc]
      rfl
    · exact .next hpass (.lost hlost)

/-- **The walk through a tree** takes the first leaf as it is, and the others from the second
entry on. -/
theorem walk_tree (hm : m.Sound) (hfile : Stored d m root es later) (hroot : isLeaf root = false) (s : State σ) :
    (∀ fuel r s', walk d m root fuel s = some (r, s') → (∃ rest, Skewed d later rest ∧ r = es.map m.xad ++ rest) ∨ Lost d s') ∧
      (¬ Faulty d → ∃ fuel result, ∀ k, fuel ≤ k → walk d m root k s = some result) := by
  have hes : es ≠ [] := by
    cases hfile with
    | root flag => exact absurd (decide_eq_true flag) (Bool.eq_false_iff.1 hroot)
    | tree _ _ leaf => exact leaf.some
  have hleads : ∀ s', First d m root es later s s' → Leads (walkPass d m root) (Lost d)
      (fun r _ => ∃ rest, Skewed d later rest ∧ r = es.map m.xad ++ rest) [] s' := by
    intro s' hfirst
    have hchain : Chain d m (headerNext s'.xtpage) later := by
      obtain ⟨hleaf, -⟩ | ⟨-, hchain⟩ := hfirst.page
      · exact absurd hleaf (Bool.eq_false_iff.1 hroot)
      · exact hchain
    have hholds := hfirst.holds hes
    obtain ⟨front, x, rfl⟩ := (List.eq_nil_or_concat' es).resolve_left hes
    apply walkPass_leads hm hholds
    intro s'' hholds hxtpage hio
    apply (walkPass_later hm (hxtpage ▸ hchain) _ hholds.index rfl).imp
    rintro r - ⟨rest, hrest, rfl⟩
    refine ⟨rest, hrest, ?_⟩
    rw [(hholds.up hm).xadAt_eq, List.nil_append, List.map_append, List.append_assoc]
    rfl
  exact firstExtent_leads hm hfile walkPass_lost hleads

/-- The leaves behind the first one hold one extent each, and behind it a copy of it. -/
def Copied (d : Partition σ) (m : Mount) (later : List (Nat × List Extent)) : Prop :=
  ∀ leaf ∈ later, ∃ x, leaf.2 = [x] ∧ xadAt d.bytes (leaf.1 + 48) = m.xad x

theorem Stored.chain (h : Stored d m root es later) : ∃ next, Chain d m next later := by
  cases h with
  | root => exact ⟨0, .last⟩
  | tree _ _ _ others => exact ⟨_, others⟩

/-- What is skewed is right only where all is copied. -/
theorem Skewed.eq_iff {b : Nat} {rest : List Xad} {next : Long} (h : Skewed d later rest) (hm : m.Sound) (hchain : Chain d m next later)
    (hsorted : Sorted b (later.flatMap Prod.snd)) : rest = (later.flatMap Prod.snd).map m.xad ↔ Copied d m later := by
  induction h generalizing b next with
  | nil => exact ⟨fun _ leaf hleaf => absurd hleaf List.not_mem_nil, fun _ => rfl⟩
  | @cons pos es later xads rest length others ih =>
    cases hchain with
    | next small names leaf chain =>
      obtain ⟨x, es, rfl⟩ := List.exists_cons_of_ne_nil leaf.some
      have hlength : xads.length = (es.map m.xad).length := by
        rw [List.length_map]
        exact Nat.succ_injective length
      obtain ⟨b', hrest⟩ := Extents.Sorted.append_right hsorted
      constructor
      · intro heq
        obtain ⟨hhead, htail⟩ := List.cons.inj heq
        have htail' : xads ++ rest = es.map m.xad ++ (later.flatMap Prod.snd).map m.xad := by
          rw [← List.map_append]
          exact htail
        obtain ⟨-, hrest'⟩ := List.append_inj htail' hlength
        intro leaf' hleaf'
        obtain rfl | hleaf' := List.mem_cons.1 hleaf'
        · refine ⟨x, ?_, hhead⟩
          cases es with
          | nil => rfl
          | cons y es =>
            have hsame : m.xad y = m.xad x := (leaf.entries.2.1.up hm).xadAt_eq.symm.trans hhead
            have hvalue := congrArg BitVec.toNat (congrArg Xad.offset hsame)
            have hx := leaf.entries.1.offset
            have hy := leaf.entries.2.1.offset
            obtain ⟨-, hlen, hnext, -⟩ := hsorted
            simp only [Mount.xad, BitVec.toNat_ofNat] at hvalue
            rw [Nat.mod_eq_of_lt (by omega), Nat.mod_eq_of_lt (by omega)] at hvalue
            rw [Extent.next] at hnext
            omega
        · exact (ih chain hrest).1 hrest' leaf' hleaf'
      · intro hcopied
        obtain ⟨x', hx', hcopy⟩ := hcopied _ List.mem_cons_self
        obtain ⟨rfl, rfl⟩ := List.cons.inj hx'
        obtain rfl := List.length_eq_zero_iff.1 hlength
        rw [(ih chain hrest).2 fun leaf' hleaf' => hcopied leaf' (List.mem_cons_of_mem _ hleaf'), hcopy]
        rfl

end Walk

/-! ## `di_read` -/

section Inodes
variable {d : Partition σ} {m : Mount} {fileset stack di : Block} {s s' : State σ} {es : List Extent} {fuel : Nat} {inum : Word}

theorem diReadPass_lost {key : Long} {xd ioffset : Word} {flow : Flow Block (State σ) Block}
    (hflow : diReadPass d m fileset stack key xd ioffset fuel di s = some flow) (h : Lost d s) : Lost d flow.state := by
  have hnext : Lost d (nextExtent d m s).2 := nextExtent_lost h
  unfold diReadPass at hflow
  simp only at hflow
  split at hflow
  · cases hflow
    exact devread_lost (devread_lost h)
  · generalize nextExtent d m s = r at hflow hnext
    obtain ⟨_ | _, s'⟩ := r
    · cases hflow
      exact hnext
    · cases hflow
      exact hnext

theorem diRead_lost {r : Block} (hread : diRead d m fileset stack fuel inum di s = some (r, s')) (h : Lost d s) : Lost d s' := by
  obtain ⟨s₁, hfirst, hrun⟩ := Option.bind_eq_some_iff.1 hread
  exact Loop.run_keeps diReadPass_lost hrun (firstExtent_lost hfirst h)

/-- The loop of `di_read` ends, and leaves no page that names another one. -/
theorem diReadPass_leads {key : Long} {xd ioffset : Word} (hes : es ≠ []) (hholds : Holds d m fileset s es)
    (hpage : headerNext s.xtpage = 0) :
    Leads (diReadPass d m fileset stack key xd ioffset) (Lost d) (fun _ s' => headerNext s'.xtpage = 0) di s := by
  induction es generalizing s with
  | nil => exact absurd rfl hes
  | cons x es ih =>
    by_cases hin : isinxt key (offsetXAD (s.entries fileset) (16 * s.xad)) (lengthXAD (s.entries fileset) (16 * s.xad))
    · apply Leads.done (fun fuel => if_pos hin)
      exact .inl hpage
    · obtain ⟨s₂, hnext, hholds', -, -, hxtpage⟩ := nextExtent_one hholds hpage
      by_cases hmore : es ≠ []
      · have hpass : ∀ fuel, diReadPass d m fileset stack key xd ioffset fuel di s = some (.next di s₂) := by
          intro fuel
          simp only [diReadPass, hnext, decide_eq_true hmore]
          exact if_neg hin
        exact .next hpass (ih hmore (hholds' hmore) (hxtpage ▸ hpage))
      · have hpass : ∀ fuel, diReadPass d m fileset stack key xd ioffset fuel di s = some (.done di s₂) := by
          intro fuel
          simp only [diReadPass, hnext, decide_eq_false hmore]
          exact if_neg hin
        exact .done hpass (.inl (hxtpage ▸ hpage))

/-- **`di_read`** of any inode, where the fileset has its extents in one leaf. -/
theorem diRead_keeps (hm : m.Sound) (hfileset : Stored d m fileset es []) (hes : es ≠ []) (stack di : Block) (inum : Word)
    (hpage : headerNext s.xtpage = 0) :
    (∀ fuel r s', diRead d m fileset stack fuel inum di s = some (r, s') → headerNext s'.xtpage = 0 ∨ Lost d s') ∧
      (¬ Faulty d → ∃ fuel result, ∀ k, fuel ≤ k → diRead d m fileset stack k inum di s = some result) := by
  apply firstExtent_leads hm hfileset diReadPass_lost
  intro s' hfirst
  exact diReadPass_leads hes (hfirst.holds hes) (hfirst.page_zero hpage)

end Inodes

/-! ## Sessions -/

/-- A file: the root of its tree, the extents of the first leaf, the other leaves, and its size. -/
structure File where
  root : Block
  first : List Extent
  later : List (Nat × List Extent)
  filemax : Nat

def File.extents (f : File) : List Extent := allExtents f.first f.later

inductive Request where
  | walk (f : File)
  | read (f : File) (p n : Nat)
  | inode (inum : Word)

/-- The entries, or what is put into the buffer, what is returned, and `filepos`. `failed` says
that `errnum` has changed. Of an inode nothing is said. -/
inductive Answer where
  | entries (xads : List Xad) (failed : Bool)
  | bytes (out : List Byte) (ret filepos : Word) (failed : Bool)
  | inode

def answer (d : Partition σ) (m : Mount) (fileset stack : Block) (fuel : Nat) : Request → State σ → Option (Answer × State σ)
  | .walk f, s => do
    let (xads, s') ← walk d m f.root fuel s
    some (.entries xads (s'.io.errnum ≠ s.io.errnum), s')
  | .read f p n, s => do
    let ((out, ret), s') ← jfsRead d m f.root stack fuel (.ofNat 32 n) { s with filepos := .ofNat 32 p }
    some (.bytes out ret s'.filepos (s'.io.errnum ≠ s.io.errnum), s')
  | .inode inum, s => do
    let (_, s') ← diRead d m fileset stack fuel inum stack s
    some (.inode, s')

/-- What a request is to come to. -/
def wanted (d : Partition σ) (m : Mount) : Request → Answer
  | .walk f => .entries (f.extents.map m.xad) false
  | .read f p n => .bytes (content m.bsize d.bytes f.extents p n) (.ofNat 32 n) (.ofNat 32 (p + n)) false
  | .inode _ => .inode

/-- The requests for some files, and those for inodes. -/
def Within (files : File → Prop) (inodes : Prop) : Request → Prop
  | .walk f => files f
  | .read f p n => files f ∧ p + n ≤ f.filemax
  | .inode _ => inodes

/-- All sessions with such requests come to what they are to come to, or a read has failed. -/
structure Right (d : Partition σ) (m : Mount) (fileset : Block) (dom : Request → Prop) (s : State σ) : Prop where
  delivered : ∀ {stack : Block} {reqs : List Request} {fuel : Nat} {r : List Answer} {s' : State σ}, (∀ q ∈ reqs, dom q) →
    Session.serve (answer d m fileset stack) fuel reqs s = some (r, s') → r = reqs.map (wanted d m) ∨ Lost d s'
  ends : ¬ Faulty d → ∀ (stack : Block) (reqs : List Request), (∀ q ∈ reqs, dom q) →
    ∃ fuel result, ∀ k, fuel ≤ k → Session.serve (answer d m fileset stack) k reqs s = some result

/-- The file is as it is stored. -/
structure File.Sound (d : Partition σ) (m : Mount) (f : File) : Prop where
  stored : Stored d m f.root f.first f.later
  sorted : Sorted 0 f.extents
  filemax : f.filemax < 2 ^ 31

/-- The extents of the file are in one leaf and cover it. -/
structure File.Plain (m : Mount) (f : File) : Prop where
  some : f.first ≠ []
  one : f.later = []
  covered : Covered m.bsize f.filemax 0 f.first

section Sessions
variable {d : Partition σ} {m : Mount} {fileset stack : Block} {s s' : State σ} {files : File → Prop} {f : File} {fuel : Nat} {a : Answer}
    {q : Request}
  {es : List Extent}

theorem answer_lost (h : answer d m fileset stack fuel q s = some (a, s')) (hs : Lost d s) : Lost d s' := by
  cases q with
  | walk f =>
    obtain ⟨⟨xads, s₁⟩, hwalk, hresult⟩ := Option.bind_eq_some_iff.1 h
    cases hresult
    exact walk_lost hwalk hs
  | read f p n =>
    obtain ⟨⟨r, s₁⟩, hread, hresult⟩ := Option.bind_eq_some_iff.1 h
    cases hresult
    exact jfsRead_lost hread hs
  | inode inum =>
    obtain ⟨⟨r, s₁⟩, hread, hresult⟩ := Option.bind_eq_some_iff.1 h
    cases hresult
    exact diRead_lost hread hs

/-- One request, where every file is plain and no page names another one. -/
theorem answer_plain {inodes : Prop} (hm : m.Sound) (hfileset : inodes → Stored d m fileset es [] ∧ es ≠ [])
    (hfiles : ∀ f, files f → f.Sound d m ∧ f.Plain m) (hq : Within files inodes q) (hpage : headerNext s.xtpage = 0) :
    (∀ fuel a s', answer d m fileset stack fuel q s = some (a, s') → a = wanted d m q ∧ headerNext s'.xtpage = 0 ∨ Lost d s') ∧
      (¬ Faulty d → ∃ fuel result, ∀ k, fuel ≤ k → answer d m fileset stack k q s = some result) := by
  have hextents : ∀ f : File, f.later = [] → f.extents = f.first := by
    intro f hone
    rw [File.extents, allExtents, hone]
    exact List.append_nil f.first
  cases q with
  | walk f =>
    obtain ⟨hsound, hplain⟩ := hfiles f hq
    obtain ⟨hdelivered, hends⟩ := walk_one hm (hplain.one ▸ hsound.stored) hplain.some hpage
    constructor
    · intro fuel a s' h
      obtain ⟨⟨xads, s₁⟩, hwalk, hresult⟩ := Option.bind_eq_some_iff.1 h
      cases hresult
      obtain ⟨rfl, herrnum, hpage'⟩ | hlost := hdelivered fuel xads s' hwalk
      · refine .inl ⟨?_, hpage'⟩
        rw [wanted, hextents f hplain.one, decide_eq_false (not_not.2 herrnum)]
      · exact .inr hlost
    · intro hhealthy
      obtain ⟨fuel, result, hfuel⟩ := hends hhealthy
      refine ⟨fuel, (.entries result.1 (result.2.io.errnum ≠ s.io.errnum), result.2), fun k hk => ?_⟩
      rw [answer, hfuel k hk]
      rfl
  | read f p n =>
    obtain ⟨hsound, hplain⟩ := hfiles f hq.1
    have hmax := Nat.lt_of_le_of_lt hq.2 hsound.filemax
    have hsorted := hsound.sorted
    rw [hextents f hplain.one] at hsorted
    have hreads := Extents.reads_covered d.bytes True (Nat.lt_of_lt_of_le (by decide) hm.bsize.1) hplain.covered hsorted (by omega)
      (Nat.le_add_right p n) hq.2
    rw [Nat.add_sub_cancel_left] at hreads
    have hlength : (content m.bsize d.bytes f.first p n).length = n := Memory.slice_length _ _ _
    obtain ⟨hdelivered, hends⟩ :=
      jfsRead_reads (s := { s with filepos := .ofNat 32 p }) stack hm (hplain.one ▸ hsound.stored) hplain.some hpage hmax hreads rfl
    rw [hlength] at hdelivered
    constructor
    · intro fuel a s' h
      obtain ⟨⟨r, s₁⟩, hread, hresult⟩ := Option.bind_eq_some_iff.1 h
      cases hresult
      obtain ⟨rfl, hfilepos, herrnum, hpage'⟩ | hlost := hdelivered fuel r s' hread
      · refine .inl ⟨?_, hpage'⟩
        rw [wanted, hextents f hplain.one, hfilepos, decide_eq_false (not_not.2 herrnum)]
      · exact .inr hlost
    · intro hhealthy
      obtain ⟨fuel, result, hfuel⟩ := hends hhealthy
      refine ⟨fuel, (.bytes result.1.1 result.1.2 result.2.filepos (result.2.io.errnum ≠ s.io.errnum), result.2), fun k hk => ?_⟩
      rw [answer, hfuel k hk]
      rfl
  | inode inum =>
    obtain ⟨hdelivered, hends⟩ := diRead_keeps hm (hfileset hq).1 (hfileset hq).2 stack stack inum hpage
    constructor
    · intro fuel a s' h
      obtain ⟨⟨r, s₁⟩, hread, hresult⟩ := Option.bind_eq_some_iff.1 h
      cases hresult
      exact (hdelivered fuel r s' hread).imp_left fun hpage' => ⟨rfl, hpage'⟩
    · intro hhealthy
      obtain ⟨fuel, result, hfuel⟩ := hends hhealthy
      refine ⟨fuel, (.inode, result.2), fun k hk => ?_⟩
      rw [answer, hfuel k hk]
      rfl

variable (es) in
/-- **Plain files** are read right, whatever comes between. -/
theorem right_of_plain {inodes : Prop} (hm : m.Sound) (hfileset : inodes → Stored d m fileset es [] ∧ es ≠ [])
    (hfiles : ∀ f, files f → f.Sound d m ∧ f.Plain m) (hpage : headerNext s.xtpage = 0) : Right d m fileset (Within files inodes) s := by
  constructor
  · intro stack reqs fuel r s' hwithin hserve
    apply Or.imp_left And.left (Session.serve_delivers (fun s : State σ => headerNext s.xtpage = 0) answer_lost _ hwithin hserve hpage)
    exact fun hq hpage h => (answer_plain hm hfileset hfiles hq hpage).1 _ _ _ h
  · intro hhealthy stack reqs hwithin
    apply Session.serve_ends (fun s : State σ => headerNext s.xtpage = 0) _ hwithin hpage
    intro q s hq hpage
    obtain ⟨hdelivered, hends⟩ := answer_plain hm hfileset hfiles hq hpage
    obtain ⟨fuel, ⟨a, s'⟩, hfuel⟩ := hends hhealthy
    have hgood := (hdelivered fuel a s' (hfuel fuel (Nat.le_refl _))).resolve_right fun hlost => hhealthy hlost.2
    exact ⟨fuel, a, s', hgood.2, hfuel⟩

theorem Entries.congr {d' : Partition σ} {b : Block} {i : Nat} (h : Entries d m b i es) (hd : d'.partLength = d.partLength) :
    Entries d' m b i es := by
  induction es generalizing i with
  | nil => trivial
  | cons x es ih =>
    obtain ⟨⟨⟨flag, rsvrd, address, hsmall, hnames, hstored⟩, hoffset, hlen, hrecorded⟩, hrest⟩ := h
    refine ⟨⟨⟨flag, rsvrd, address, hsmall, ⟨hnames.behind, hnames.pos_eq, ?_⟩, hstored⟩, hoffset, hlen, hrecorded⟩, ih hrest⟩
    rw [hd]
    exact hnames.inside

/-- The extents in an inode are there with any contents of the disk. -/
theorem Stored.congr {d' : Partition σ} {root : Block} {later : List (Nat × List Extent)} (h : Stored d m root es later)
    (hroot : isLeaf root = true)
    (hd : d'.partLength = d.partLength) : Stored d' m root es later := by
  cases h with
  | root flag nextindex fits entries => exact .root flag nextindex fits (entries.congr hd)
  | tree flag => exact absurd flag (of_decide_eq_true hroot)

/-- A request that is answered right in a session is answered right alone. -/
theorem Right.alone {dom : Request → Prop} (h : Right d m fileset dom s) (hq : dom q) (hhealthy : ¬ Faulty d) :
    ∃ fuel s', answer d m fileset (fun _ => 0) fuel q s = some (wanted d m q, s') := by
  have hwithin : ∀ q' ∈ [q], dom q' := fun q' hq' => List.mem_singleton.1 hq' ▸ hq
  obtain ⟨fuel, ⟨r, s'⟩, hfuel⟩ := h.ends hhealthy (fun _ => 0) [q] hwithin
  have hserve := hfuel fuel (Nat.le_refl _)
  have hr := (h.delivered hwithin hserve).resolve_right fun hlost => hhealthy hlost.2
  obtain ⟨⟨a, s₁⟩, hanswer, hserve⟩ := Option.bind_eq_some_iff.1 hserve
  cases hserve
  obtain ⟨rfl, -⟩ := List.cons.inj hr
  exact ⟨fuel, s', hanswer⟩

/-- **A file in its inode** that is read right for all contents of the disk is plain, and no
page in memory names another one. -/
theorem plain_of_right (hm : m.Sound) (hsound : f.Sound d m) (hroot : isLeaf f.root = true) (hhealthy : ¬ Faulty d)
    (hright : ∀ bytes, Right { d with bytes := bytes } m fileset (Within (· = f) False) s) : f.Plain m ∧ headerNext s.xtpage = 0 := by
  obtain ⟨-, -, -, hone, -⟩ := firstExtent_root hsound.stored hroot s
  have hextents : f.extents = f.first := by
    rw [File.extents, allExtents, hone]
    exact List.append_nil f.first
  have hsorted := hsound.sorted
  rw [hextents] at hsorted
  -- The walk shows that there is an extent, and that the page is at its end.
  obtain ⟨fuel, s', hwalk⟩ := (hright d.bytes).alone (q := .walk f) rfl hhealthy
  obtain ⟨⟨xads, s₁⟩, hwalk, hresult⟩ := Option.bind_eq_some_iff.1 hwalk
  have hxads : xads = f.first.map m.xad := by
    rw [← hextents]
    exact (Answer.entries.inj (Prod.mk.inj (Option.some.inj hresult)).1).1
  have hends : ¬ (f.first = [] ∨ headerNext s.xtpage ≠ 0) := fun hes => walk_root_ne hm (hone ▸ hsound.stored) hroot hes hwalk hxads
  rw [not_or, not_not] at hends
  refine ⟨⟨hends.1, hone, ?_⟩, hends.2⟩
  by_contra hun
  obtain ⟨p, stop, out, -, hp, hstop, hreads, hout⟩ := Extents.reads_uncovered (Nat.lt_of_lt_of_le (by decide) hm.bsize.1)
    (show (1 : Byte) ≠ 0 by decide) trivial hun hsorted
  have hsum : p + (stop - p) = stop := Nat.add_sub_cancel' (Nat.le_of_lt hp)
  have hmax := hsound.filemax
  have hhealthy' : ¬ Faulty { d with bytes := fun _ => 1 } := hhealthy
  obtain ⟨fuel, s', hread⟩ := (hright fun _ => 1).alone (q := .read f p (stop - p)) ⟨rfl, by omega⟩ hhealthy'
  obtain ⟨⟨⟨out', ret⟩, s₁⟩, hread, hresult⟩ := Option.bind_eq_some_iff.1 hread
  have hout' : out' = content m.bsize (fun _ => 1) f.first p (stop - p) := by
    rw [← hextents]
    exact (Answer.bytes.inj (Prod.mk.inj (Option.some.inj hresult)).1).1
  have hstored : Stored { d with bytes := fun _ => 1 } m f.root f.first [] :=
    (hone ▸ hsound.stored : Stored d m f.root f.first []).congr hroot rfl
  obtain ⟨hr, -⟩ :=
    ((jfsRead_reads (s := { s with filepos := .ofNat 32 p }) (n := stop - p) (fun _ => 0) hm hstored hends.1 hends.2 (by omega)
    (by rw [hsum]; exact hreads) rfl).1 fuel _ s₁ hread).resolve_right fun h => hhealthy' h.2
  obtain ⟨rfl, -⟩ := Prod.mk.inj hr
  exact hout hout'

/-- **Files of JFS.** Plain files are read right, with any inodes between them, if the fileset
is in one leaf and no page in memory names another one. For a file in its inode, and a drive
that works, this is exact. A file in a tree is gone through right only if its leaves but the
first hold one extent each, and behind it a copy. -/
theorem right_iff_plain (hm : m.Sound) (hfileset : Stored d m fileset es []) (hes : es ≠ []) :
    (∀ (files : File → Prop) (s : State σ), (∀ f, files f → f.Sound d m ∧ f.Plain m) → headerNext s.xtpage = 0 →
      Right d m fileset (Within files True) s) ∧
    (∀ (f : File) (s : State σ), f.Sound d m → isLeaf f.root = true → ¬ Faulty d →
      ((∀ bytes, Right { d with bytes := bytes } m fileset (Within (· = f) False) s) ↔ f.Plain m ∧ headerNext s.xtpage = 0)) ∧
    (∀ (f : File) (s : State σ), f.Sound d m → isLeaf f.root = false → ¬ Faulty d →
      ((∃ fuel s', walk d m f.root fuel s = some (f.extents.map m.xad, s')) ↔ Copied d m f.later)) := by
  refine ⟨fun files s hfiles hpage => ?_, fun f s hsound hroot hhealthy => ⟨?_, fun ⟨hplain, hpage⟩ bytes => ?_⟩,
    fun f s hsound hroot hhealthy => ?_⟩
  · exact right_of_plain es hm (fun _ => ⟨hfileset, hes⟩) hfiles hpage
  · exact plain_of_right hm hsound hroot hhealthy
  · apply right_of_plain es hm False.elim _ hpage
    rintro f' rfl
    exact ⟨⟨hsound.stored.congr hroot rfl, hsound.sorted, hsound.filemax⟩, hplain⟩
  · obtain ⟨hdelivered, hends⟩ := walk_tree hm hsound.stored hroot s
    obtain ⟨next, hchain⟩ := hsound.stored.chain
    obtain ⟨b, hsorted⟩ := Extents.Sorted.append_right hsound.sorted
    obtain ⟨fuel, ⟨r, s'⟩, hfuel⟩ := hends hhealthy
    constructor
    · rintro ⟨fuel', s'', hwalk⟩
      obtain ⟨rest, hrest, heq⟩ := (hdelivered fuel' _ s'' hwalk).resolve_right fun hlost => hhealthy hlost.2
      rw [File.extents, allExtents, List.map_append] at heq
      exact (hrest.eq_iff hm hchain hsorted).1 (List.append_cancel_left heq).symm
    · intro hcopied
      obtain ⟨rest, hrest, rfl⟩ := (hdelivered fuel r s' (hfuel fuel (Nat.le_refl _))).resolve_right fun hlost => hhealthy hlost.2
      rw [File.extents, allExtents, List.map_append, ← (hrest.eq_iff hm hchain hsorted).2 hcopied]
      exact ⟨fuel, s', hfuel fuel (Nat.le_refl _)⟩

end Sessions

/-! ## A file with a hole -/

def samplePartition : Partition Unit := ⟨4096, fun _ => 1, fun _ _ _ _ => (none, ()), ⟨.read, Disk.GrubError.read_ne_none⟩⟩

def sampleMount : Mount := ⟨9⟩

/-- The root of a tree that is one leaf. -/
def sampleRoot (es : List Extent) : Block := fun i =>
  if i = 16 then 2
  else if i = 18 then .ofNat 8 (2 + es.length)
  else match es[(i - 32) / 16]? with
    | some x => if 32 ≤ i then (entry 0 0 x (x.start / 512)).extractLsb' (8 * (i % 16)) 8 else 0
    | none => 0

def sampleState : State Unit := ⟨0, fun _ => 0, 0, 0, .root, 0, .none, ()⟩

/-- Two blocks one behind the other. -/
def sampleFull : File := ⟨sampleRoot [⟨0, 1, 4096, false⟩, ⟨1, 1, 8192, false⟩], [⟨0, 1, 4096, false⟩, ⟨1, 1, 8192, false⟩], [], 1024⟩

/-- Two blocks with a hole between them. -/
def sampleHole : File := ⟨sampleRoot [⟨0, 1, 4096, false⟩, ⟨2, 1, 8192, false⟩], [⟨0, 1, 4096, false⟩, ⟨2, 1, 8192, false⟩], [], 1536⟩

theorem samplePartition_healthy : ¬ Faulty samplePartition := by
  rintro (⟨dev, pos, n, buf, h⟩ | h)
  · cases h
  · exact absurd h (by decide)

theorem sampleFull_stored : Stored samplePartition sampleMount sampleFull.root sampleFull.first [] := by
  refine .root (by decide) (by decide) (by decide)
    ⟨⟨⟨0, 0, 8, ?_, ⟨?_, ?_, ?_⟩, ?_⟩, ?_, ?_, rfl⟩, ⟨⟨0, 0, 16, ?_, ⟨?_, ?_, ?_⟩, ?_⟩, ?_, ?_, rfl⟩, trivial⟩ <;> decide

theorem right_iff_plain_full : Right samplePartition sampleMount sampleFull.root (Within (· = sampleFull) True) sampleState := by
  refine (right_iff_plain ⟨by decide, by decide⟩ sampleFull_stored (by decide)).1 (· = sampleFull) sampleState ?_ (by decide)
  rintro f rfl
  exact ⟨⟨sampleFull_stored, by simp [Sorted, File.extents, allExtents, sampleFull, Extent.next], by decide⟩,
    ⟨by decide, rfl, by simp [Covered, sampleFull, sampleMount, Mount.bsize, Extent.next]⟩⟩

/-- A read that begins in the hole delivers zeros for the data behind it. -/
theorem sampleHole_zeros :
    (jfsRead samplePartition sampleMount sampleHole.root (fun _ => 0) 4 (.ofNat 32 512) { sampleState with filepos := .ofNat 32 513 }).map
      (fun r => r.1.1[511]?) = some (some 0) ∧
        ¬ Right samplePartition sampleMount sampleHole.root (Within (· = sampleHole) False) sampleState := by
  have hread :
      (jfsRead samplePartition sampleMount sampleHole.root (fun _ => 0) 4 (.ofNat 32 512) { sampleState with filepos := .ofNat 32 513 }).map
      (fun r => r.1.1[511]?) = some (some 0) := by decide +kernel
  refine ⟨hread, fun hright => ?_⟩
  obtain ⟨⟨⟨out, ret⟩, s'⟩, hresult, hbyte⟩ := Option.map_eq_some_iff.1 hread
  have hbyte : out[511]? = some 0 := hbyte
  have hserve : Session.serve (answer samplePartition sampleMount sampleHole.root (fun _ => 0)) 4 [.read sampleHole 513 512] sampleState =
      some ([.bytes out ret s'.filepos (s'.io.errnum ≠ sampleState.io.errnum)], s') := by
    rw [Session.serve, answer, hresult]
    rfl
  have hwithin : ∀ q ∈ [Request.read sampleHole 513 512], Within (· = sampleHole) False q := by
    rintro q hq
    obtain rfl := List.mem_singleton.1 hq
    exact ⟨rfl, by decide⟩
  have hr := (hright.delivered hwithin hserve).resolve_right fun h => samplePartition_healthy h.2
  obtain ⟨hout, -⟩ := Answer.bytes.inj (List.cons.inj hr).1
  have hwanted : (content sampleMount.bsize samplePartition.bytes sampleHole.extents 513 512)[511]? ≠ some 0 := by decide +kernel
  rw [hout] at hbyte
  exact hwanted hbyte

end TrustedGrub.Jfs
