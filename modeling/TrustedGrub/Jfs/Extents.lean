import TrustedGrub.Jfs.Stored

/-!
# The extents of a file of JFS, one by one

`first_extent` goes to the first extent of a stored file, and within a leaf `next_extent` goes
to the next. What is at the end of a leaf depends on the page in memory, be it the leaf's own
or one that another inode has left.
-/

namespace TrustedGrub.Jfs
open Disk (GrubError)
open Extents (Extent)
open Fsys (Byte Word Long Block Partition Io devread Faulty Read devread_read devread_lost ofNat_toNat_small ofNat_toInt_small)
open Loop (Body Flow Leads run)

variable {σ : Type}

/-- A read has failed. -/
abbrev Lost (d : Partition σ) (s : State σ) : Prop := s.io.Lost d

section Pages
variable {d : Partition σ} {m : Mount} {b : Block} {pos n i : Nat} {es : List Extent} {s : State σ}

theorem le16_read (h : ∀ k < n, b k = d.bytes (pos + k)) (hi : i + 2 ≤ n) : le16 b i = le16 d.bytes (pos + i) := by
  rw [le16, le16, h i (by omega), h (i + 1) (by omega), Nat.add_assoc]

theorem le32_read (h : ∀ k < n, b k = d.bytes (pos + k)) (hi : i + 4 ≤ n) : le32 b i = le32 d.bytes (pos + i) := by
  rw [le32, le32, le16_read h (by omega), le16_read h (by omega), Nat.add_assoc]

theorem le64_read (h : ∀ k < n, b k = d.bytes (pos + k)) (hi : i + 8 ≤ n) : le64 b i = le64 d.bytes (pos + i) := by
  rw [le64, le64, le32_read h (by omega), le32_read h (by omega), Nat.add_assoc]

theorem addressXAD_read (h : ∀ k < n, b k = d.bytes (pos + k)) (hi : i + 16 ≤ n) : addressXAD b i = addressXAD d.bytes (pos + i) := by
  rw [addressXAD, addressXAD, h (i + 11) (by omega), le32_read h (by omega), Nat.add_assoc, Nat.add_assoc]

theorem isLeaf_read (h : ∀ k < n, b k = d.bytes (pos + k)) (hn : 16 < n) : isLeaf b = decide (d.bytes (pos + 16) &&& 2 ≠ 0) := by
  rw [isLeaf, h 16 hn]

theorem Entries.read (h : Entries d m d.bytes (pos + i) es) (hb : ∀ k < n, b k = d.bytes (pos + k)) (hn : i + 16 * es.length ≤ n) :
    Entries d m b i es := by
  induction es generalizing i with
  | nil => trivial
  | cons x es ih =>
    rw [List.length_cons] at hn
    obtain ⟨⟨⟨flag, rsvrd, address, hsmall, hnames, hstored⟩, hoffset, hlen, hrecorded⟩, hrest⟩ := h
    refine ⟨⟨⟨flag, rsvrd, address, hsmall, hnames, fun k hk => ?_⟩, hoffset, hlen, hrecorded⟩, ih hrest (by omega)⟩
    rw [hb (i + k) (by omega), ← Nat.add_assoc, hstored k hk]

/-- A page of the tree is read. -/
theorem readPage_read {address : Nat} (hm : m.Sound) (hnames : Names d m address pos 4096) :
    ∃ xtpage io, readPage d m (.ofNat 64 address) s = { s with xtpage := xtpage, io := io } ∧
      ((∀ k < 4096, xtpage k = d.bytes (pos + k)) ∧ io.errnum = s.io.errnum ∨ io.Lost d) := by
  obtain ⟨sector, rfl, -, hsector⟩ := hnames.sector hm
  have hread := devread_read (d := d) sector 0 4096 (by decide) (by decide) hnames.inside s.xtpage s.io
  unfold readPage
  rw [hsector]
  change Read d _ _ _ (devread d (.ofNat 32 sector) 0 4096 s.xtpage s.io) at hread
  generalize devread d (.ofNat 32 sector) 0 4096 s.xtpage s.io = read at hread
  refine ⟨read.2.1, read.2.2, rfl, ?_⟩
  cases hread with
  | delivered bytes => exact .inl ⟨bytes, rfl⟩
  | failed lost => exact .inr lost

theorem readPage_lost {address : Long} (h : Lost d s) : Lost d (readPage d m address s) := devread_lost h

end Pages

/-! ## The cursor -/

section Cursor
variable {d : Partition σ} {m : Mount} {root : Block} {s : State σ} {es : List Extent} {later : List (Nat × List Extent)} {x y : Extent}

/-- The cursor is on the first of the extents `es`, the last ones in a leaf. -/
structure Holds (d : Partition σ) (m : Mount) (root : Block) (s : State σ) (es : List Extent) : Prop where
  entries : Entries d m (s.entries root) (16 * s.xad) es
  index : ∃ i, s.xindex = .ofNat 32 i ∧ s.xlastindex = .ofNat 32 (i + es.length) ∧ i + es.length ≤ 256

theorem Holds.congr {s' : State σ} (h : Holds d m root s es) (hs : ∃ p io, s' = { s with filepos := p, io := io }) :
    Holds d m root s' es := by
  obtain ⟨p, io, rfl⟩ := hs
  exact ⟨h.entries, h.index⟩

/-- The entry that is up. -/
theorem Holds.up (h : Holds d m root s (x :: es)) (hm : m.Sound) : Up d m (s.entries root) (16 * s.xad) x := h.entries.1.up hm

/-- Within a leaf `next_extent` goes on. -/
theorem nextExtent_within (h : Holds d m root s (x :: y :: es)) :
    nextExtent d m s = (true, { s with xindex := s.xindex + 1, xad := s.xad + 1 }) ∧
      Holds d m root { s with xindex := s.xindex + 1, xad := s.xad + 1 } (y :: es) := by
  obtain ⟨i, hindex, hlast, hle⟩ := h.index
  rw [List.length_cons, List.length_cons] at hlast hle
  have hnext : s.xindex + 1 = .ofNat 32 (i + 1) := by
    rw [hindex, BitVec.ofNat_add]
    rfl
  constructor
  · simp only [nextExtent]
    rw [if_pos]
    rw [hnext, hlast, ofNat_toInt_small (by omega), ofNat_toInt_small (by omega)]
    omega
  · refine ⟨h.entries.2, i + 1, hnext, ?_, ?_⟩
    · rw [List.length_cons, hlast]
      congr 1
      omega
    · rw [List.length_cons]
      omega

/-- At the end of a leaf `next_extent` looks at the page in memory. -/
theorem nextExtent_end (h : ∃ i, s.xindex = .ofNat 32 i ∧ s.xlastindex = .ofNat 32 (i + 1) ∧ i + 1 ≤ 256) :
    nextExtent d m s = if headerNext s.xtpage ≠ 0 then
      (true, { readPage d m (headerNext s.xtpage) { s with xindex := s.xindex + 1 } with
        xlastindex := nextindex (readPage d m (headerNext s.xtpage) { s with xindex := s.xindex + 1 }).xtpage, xindex := 2, place :=
          .page, xad := 3 })
      else (false, { s with xindex := s.xindex + 1 }) := by
  obtain ⟨i, hindex, hlast, -⟩ := h
  have hnext : s.xindex + 1 = .ofNat 32 (i + 1) := by
    rw [hindex, BitVec.ofNat_add]
    rfl
  have hend : ¬ (s.xindex + 1).toInt < s.xlastindex.toInt := by
    rw [hnext, hlast]
    exact Int.lt_irrefl _
  simp only [nextExtent]
  rw [if_neg hend]
  rfl

theorem nextExtent_lost (h : Lost d s) : Lost d (nextExtent d m s).2 := by
  simp only [nextExtent]
  split
  · exact h
  · split
    · exact readPage_lost (s := { s with xindex := s.xindex + 1 }) h
    · exact h

/-! ## `first_extent` -/

theorem firstPass_lost {fuel : Nat} {t : Unit} {flow : Flow Unit (State σ) Unit} (hflow : firstPass d m root fuel t s = some flow)
    (h : Lost d s) :
    Lost d flow.state := by
  unfold firstPass at hflow
  simp only at hflow
  split at hflow
  · cases hflow
    exact readPage_lost h
  · cases hflow
    exact readPage_lost h

theorem firstExtent_lost {fuel : Nat} {s' : State σ} (hfirst : firstExtent d m root fuel s = some s') (h : Lost d s) : Lost d s' := by
  unfold firstExtent at hfirst
  split at hfirst
  · cases hfirst
    exact h
  · obtain ⟨⟨⟨⟩, s₁⟩, hrun, hresult⟩ := Option.bind_eq_some_iff.1 hfirst
    cases hresult
    show Lost d s₁
    exact Loop.run_keeps firstPass_lost hrun h

variable (root) in
/-- **The loop of `first_extent`** goes down to the first leaf. -/
theorem firstPass_leads {a : Long} {pos : Nat} {p : Word} {e : GrubError} (hm : m.Sound) (hdown : Down d m a pos)
    (ha : addressXAD (s.entries root) (16 * s.xad) = a) (hp : s.filepos = p) (he : s.io.errnum = e) (hindex : s.xindex = 2) :
    Leads (firstPass d m root) (Lost d) (fun _ s' => s'.place = .page ∧ s'.xad = 2 ∧ s'.xindex = 2 ∧
      (∀ k < 4096, s'.xtpage k = d.bytes (pos + k)) ∧
      s'.filepos = p ∧ s'.io.errnum = e) () s := by
  have hpass :
      ∀ {address pos : Nat} {s : State σ}, Names d m address pos 4096 → addressXAD (s.entries root) (16 * s.xad) = .ofNat 64 address →
      ∃ xtpage io, (∀ fuel, firstPass d m root fuel () s = some (
        if isLeaf xtpage then .done () { s with xtpage := xtpage, io := io, place := .page, xad := 2 }
        else .next () { s with xtpage := xtpage, io := io, place := .page, xad := 2 })) ∧
        ((∀ k < 4096, xtpage k = d.bytes (pos + k)) ∧ io.errnum = s.io.errnum ∨ io.Lost d) := by
    intro address pos s hnames haddress
    obtain ⟨xtpage, io, hpage, hread⟩ := readPage_read (s := s) hm hnames
    refine ⟨xtpage, io, fun fuel => ?_, hread⟩
    simp only [firstPass, haddress, hpage]
    split <;> rfl
  induction hdown generalizing s with
  | @leaf address pos small names flag =>
    obtain ⟨xtpage, io, hflow, ⟨hbytes, herrnum⟩ | hlost⟩ := hpass names ha
    · rw [isLeaf_read hbytes (by decide), if_pos (decide_eq_true flag)] at hflow
      exact .done hflow (.inl ⟨rfl, rfl, hindex, hbytes, hp, herrnum.trans he⟩)
    · apply Leads.of_lost hflow
      split
      · exact hlost
      · exact hlost
  | @node address pos leaf small names flag rest ih =>
    obtain ⟨xtpage, io, hflow, ⟨hbytes, herrnum⟩ | hlost⟩ := hpass names ha
    · rw [isLeaf_read hbytes (by decide), if_neg (by rw [decide_eq_true_eq]; exact not_not.2 flag)] at hflow
      exact .next hflow (ih (addressXAD_read hbytes (show 32 + 16 ≤ 4096 by decide)) hp (herrnum.trans he) hindex)
    · apply Leads.of_lost hflow
      split
      · exact hlost
      · exact hlost

/-- What `first_extent` comes to: the cursor is on the first extent, and the page in memory is
the one that was there, or the first leaf. -/
structure First (d : Partition σ) (m : Mount) (root : Block) (es : List Extent) (later : List (Nat × List Extent)) (s s' : State σ) :
    Prop where
  holds : es ≠ [] → Holds d m root s' es
  page : isLeaf root = true ∧ s'.xtpage = s.xtpage ∨ isLeaf root = false ∧ Chain d m (headerNext s'.xtpage) later
  filepos : s'.filepos = s.filepos
  errnum : s'.io.errnum = s.io.errnum

/-- A root that is a leaf is not left. -/
theorem firstExtent_root (hfile : Stored d m root es later) (hroot : isLeaf root = true) (s : State σ) :
    ∃ s', (∀ fuel, firstExtent d m root fuel s = some s') ∧
    Holds d m root s' es ∧ later = [] ∧ s'.xtpage = s.xtpage ∧ s'.filepos = s.filepos ∧ s'.io = s.io := by
  cases hfile with
  | root flag hnextindex fits entries =>
    refine ⟨{ s with xindex := 2, place := .root, xad := 2, xlastindex := nextindex root }, fun fuel => ?_, ?_, rfl, rfl, rfl, rfl⟩
    · simp only [firstExtent, hroot, if_true]
    · exact ⟨entries, 2, rfl, nextindex_eq hnextindex (by omega), by omega⟩
  | tree flag => exact absurd flag (of_decide_eq_true hroot)

/-- **`first_extent`.** -/
theorem firstExtent_first (hm : m.Sound) (hfile : Stored d m root es later) (s : State σ) :
    (∀ fuel s', firstExtent d m root fuel s = some s' → First d m root es later s s' ∨ Lost d s') ∧
      (¬ Faulty d → ∃ fuel s', ∀ k, fuel ≤ k → firstExtent d m root k s = some s') := by
  cases hfile with
  | root flag hnextindex fits entries =>
    have hleaf : isLeaf root = true := decide_eq_true flag
    obtain ⟨s₁, hs₁, hholds, -, hxtpage, hfilepos, hio⟩ := firstExtent_root (.root flag hnextindex fits entries) hleaf s
    constructor
    · intro fuel s' hfirst
      obtain rfl := Option.some.inj ((hs₁ fuel).symm.trans hfirst)
      exact .inl ⟨fun _ => hholds, .inl ⟨hleaf, hxtpage⟩, hfilepos, by rw [hio]⟩
    · exact fun _ => ⟨0, s₁, fun k _ => hs₁ k⟩
  | tree flag down leaf others =>
    have hleaf : isLeaf root = false := decide_eq_false (not_not.2 flag)
    have hleads := firstPass_leads root (s := { s with xindex := 2, place := .root, xad := 2 }) hm down rfl rfl rfl rfl
    constructor
    · intro fuel s' hfirst
      simp only [firstExtent, hleaf, Bool.false_eq_true, if_false] at hfirst
      obtain ⟨⟨⟨⟩, s₁⟩, hrun, hresult⟩ := Option.bind_eq_some_iff.1 hfirst
      cases hresult
      obtain ⟨hplace, hxad, hxindex, hbytes, hfilepos, herrnum⟩ | hlost := hleads.run firstPass_lost hrun
      · left
        have hfits := leaf.fits
        refine ⟨fun _ => ⟨?_, 2, hxindex, nextindex_eq ?_ (by omega), by omega⟩, .inr ⟨hleaf, ?_⟩, hfilepos, herrnum⟩
        · show Entries d m (s₁.entries root) (16 * s₁.xad) es
          rw [State.entries, hplace, hxad]
          exact leaf.entries.read hbytes (by omega)
        · show le16 s₁.xtpage 18 = _
          rw [le16_read hbytes (by decide), leaf.nextindex]
        · show Chain d m (le64 s₁.xtpage 0) later
          rw [le64_read hbytes (by decide), Nat.add_zero, leaf.next]
          exact others
      · exact .inr hlost
    · intro hhealthy
      obtain ⟨fuel, ⟨⟨⟩, s₁⟩, hfuel⟩ := hleads.ends fun g hg => hhealthy hg.2
      refine ⟨fuel, { s₁ with xlastindex := nextindex s₁.xtpage }, fun k hk => ?_⟩
      simp only [firstExtent, hleaf, Bool.false_eq_true, if_false, hfuel k hk]
      rfl

/-- A file with one leaf brings no page that names another one. -/
theorem First.page_zero (h : First d m root es [] s s') (hpage : headerNext s.xtpage = 0) : headerNext s'.xtpage = 0 := by
  obtain ⟨-, hsame⟩ | ⟨-, hchain⟩ := h.page
  · rw [hsame, hpage]
  · generalize headerNext s'.xtpage = next at hchain
    cases hchain
    rfl

/-- **A loop that starts at the first extent.** -/
theorem firstExtent_leads {τ ρ : Type} {body : Body τ (State σ) ρ} {t : τ} {Q : ρ → State σ → Prop} (hm : m.Sound)
    (hfile : Stored d m root es later)
    (hlost : ∀ {fuel : Nat} {t : τ} {s : State σ} {flow : Flow τ (State σ) ρ}, body fuel t s = some flow → Lost d s → Lost d flow.state)
    (hleads : ∀ s', First d m root es later s s' → Leads body (Lost d) Q t s') :
    (∀ fuel r s', ((firstExtent d m root fuel s).bind fun s => run body fuel t s) = some (r, s') → Q r s' ∨ Lost d s') ∧
      (¬ Faulty d → ∃ fuel result, ∀ k, fuel ≤ k → ((firstExtent d m root k s).bind fun s => run body k t s) = some result) := by
  obtain ⟨hfirst, hends⟩ := firstExtent_first hm hfile s
  constructor
  · intro fuel r s'' hloop
    obtain ⟨s', hs', hrun⟩ := Option.bind_eq_some_iff.1 hloop
    obtain hgood | hgone := hfirst fuel s' hs'
    · exact (hleads s' hgood).run hlost hrun
    · exact .inr (Loop.run_keeps hlost hrun hgone)
  · intro hhealthy
    obtain ⟨fuel, s', hfuel⟩ := hends hhealthy
    have hgood := (hfirst fuel s' (hfuel fuel (Nat.le_refl _))).resolve_right fun hgone => hhealthy hgone.2
    obtain ⟨fuel', result, hfuel'⟩ := (hleads s' hgood).ends fun g hg => hhealthy hg.2
    refine ⟨max fuel fuel', result, fun k hk => ?_⟩
    rw [hfuel k (Nat.le_trans (Nat.le_max_left _ _) hk)]
    exact hfuel' k (Nat.le_trans (Nat.le_max_right _ _) hk)

end Cursor

end TrustedGrub.Jfs
