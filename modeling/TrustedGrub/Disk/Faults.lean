import TrustedGrub.Disk.Settings

/-!
# Runs without device faults

A run in which no device access goes wrong is a run of the repaired platform, whose
devices always deliver. So what is proved of working devices holds of every run that
leaves `faulted` clear, whatever the devices would have done otherwise.
-/

namespace TrustedGrub.Disk
open Fips180 (Byte Word Words)

variable {σ ι : Type} {p : Platform σ ι}

/-- The platform with every fault turned into a delivery. -/
def Platform.repaired (p : Platform σ ι) : Platform σ ι :=
  { p with
    readFunc := fun d rq => (none, (p.readFunc d rq).2)
    devread := fun d rq => (none, (p.devread d rq).2) }

theorem Platform.repaired_healthy (p : Platform σ ι) : p.repaired.Healthy := ⟨fun _ _ => rfl, fun _ _ => rfl⟩

/-- A reader runs as another one does, unless there is a fault. -/
def Agree (read read' : Reader σ ι) : Prop :=
  ∀ st buf len, (read st buf len).2.2.faulted = false → st.faulted = false ∧ read st buf len = read' st buf len

theorem noRead_agree : Agree (noRead : Reader σ ι) noRead := fun _ _ _ h => ⟨h, rfl⟩

theorem driverRead_agree : Agree (driverRead p) (driverRead p.repaired) := by
  intro st buf len h
  have hrepaired (rq : Request) : p.repaired.readFunc st.driver rq = (none, (p.readFunc st.driver rq).2) := rfl
  simp only [driverRead, hrepaired] at h ⊢
  generalize p.readFunc st.driver _ = answer at h ⊢
  obtain ⟨_ | fault, driver⟩ := answer
  · exact ⟨h, rfl⟩
  · exact absurd h (by simp [State.driverAnswered])

theorem blockLoop_agree {buf : Dest} (fuel : Nat) : ∀ {off len : Nat} {bytes : Nat → Byte} {st : State σ ι},
    (blockLoop p buf fuel off len (bytes, st)).2.faulted = false →
      st.faulted = false ∧ blockLoop p buf fuel off len (bytes, st) = blockLoop p.repaired buf fuel off len (bytes, st) := by
  induction fuel with
  | zero => intro off len bytes st h; exact ⟨h, rfl⟩
  | succ fuel ih =>
    intro off len bytes st h
    have hrepaired (rq : Request) : p.repaired.devread st.driver rq = (none, (p.devread st.driver rq).2) := rfl
    simp only [blockLoop, hrepaired] at h ⊢
    split at h
    next hc =>
      simp only [if_pos hc]
      obtain ⟨hf, heq⟩ := ih h
      generalize p.devread st.driver _ = answer at hf heq ⊢
      obtain ⟨_ | fault, driver⟩ := answer
      · exact ⟨hf, heq⟩
      · exact absurd hf (by simp [State.blockAnswered])
    next hc =>
      simp only [if_neg hc]
      exact ⟨h, trivial⟩

theorem blockRead_agree : Agree (blockRead p) (blockRead p.repaired) := by
  intro st buf len h
  obtain ⟨hf, heq⟩ := blockLoop_agree len.toNat h
  exact ⟨hf, by simp only [blockRead, heq]⟩

theorem getByte_agree {read read' : Reader σ ι} (hr : Agree read read') {st : State σ ι}
    (h : (getByte read st).2.faulted = false) : st.faulted = false ∧ getByte read st = getByte read' st := by
  simp only [getByte] at h ⊢
  split at h
  next hc =>
    simp only [if_pos hc]
    obtain ⟨hf, heq⟩ := hr _ _ _ h
    exact ⟨hf, by simp only [fillBuffer, heq]⟩
  next hc =>
    simp only [if_neg hc]
    exact ⟨h, trivial⟩

theorem runInflate_agree {read read' : Reader σ ι} (hr : Agree read read') (t : Inflating ι) : ∀ {st : State σ ι},
    (runInflate read t st).faulted = false → st.faulted = false ∧ runInflate read t st = runInflate read' t st := by
  induction t with
  | getByte next ih =>
    intro st h
    simp only [runInflate] at h ⊢
    obtain ⟨hf, heq⟩ := ih _ _ h
    obtain ⟨hf', heq'⟩ := getByte_agree hr hf
    exact ⟨hf', by rw [← heq', heq]⟩
  | window state bad => intro st h; exact ⟨h, rfl⟩
  | abandoned state => intro st h; exact ⟨h, rfl⟩

theorem inflateTo_agree {read read' : Reader σ ι} (hr : Agree read read') (fuel : Nat) : ∀ {st : State σ ι},
    (inflateTo p read fuel st).faulted = false →
      st.faulted = false ∧ inflateTo p read fuel st = inflateTo p.repaired read' fuel st := by
  induction fuel with
  | zero => intro st h; exact ⟨h, rfl⟩
  | succ fuel ih =>
    intro st h
    simp only [inflateTo] at h ⊢
    split at h
    next hc =>
      simp only [if_pos hc]
      obtain ⟨hf, heq⟩ := ih h
      simp only [inflateWindow] at hf heq ⊢
      split at hf
      next he =>
        simp only [if_pos he] at heq ⊢
        obtain ⟨hf', heq'⟩ := runInflate_agree hr _ hf
        exact ⟨hf', by rw [heq, heq']; rfl⟩
      next he =>
        simp only [if_neg he] at heq ⊢
        exact ⟨hf, heq⟩
    next hc =>
      simp only [if_neg hc]
      exact ⟨h, trivial⟩

theorem gunzipLoop_agree {read read' : Reader σ ι} (hr : Agree read read') {buf : Dest} (fuel : Nat) :
    ∀ {off len : Nat} {bytes : Nat → Byte} {st : State σ ι},
      (gunzipLoop p read buf fuel off len (bytes, st)).2.faulted = false →
        st.faulted = false ∧
          gunzipLoop p read buf fuel off len (bytes, st) = gunzipLoop p.repaired read' buf fuel off len (bytes, st) := by
  induction fuel with
  | zero => intro off len bytes st h; exact ⟨h, rfl⟩
  | succ fuel ih =>
    intro off len bytes st h
    simp only [gunzipLoop] at h ⊢
    split at h
    next hc =>
      simp only [if_pos hc]
      obtain ⟨hf, heq⟩ := ih h
      obtain ⟨hf', heq'⟩ := inflateTo_agree hr _ hf
      refine ⟨hf', ?_⟩
      rw [heq, heq']
      rfl
    next hc =>
      simp only [if_neg hc]
      exact ⟨h, trivial⟩

theorem gunzipRead_agree {read read' : Reader σ ι} (hr : Agree read read') :
    Agree (gunzipRead p read) (gunzipRead p.repaired read') := by
  intro st buf len h
  simp only [gunzipRead] at h ⊢
  obtain ⟨hf, heq⟩ := gunzipLoop_agree hr _ h
  have hentered : st.gunzipEntered p = st.gunzipEntered p.repaired := rfl
  have hfaulted : (st.gunzipEntered p).faulted = st.faulted := by
    simp only [State.gunzipEntered]
    split <;> rfl
  exact ⟨by rwa [hfaulted] at hf, by rw [heq, hentered]⟩

theorem fileRead_agree {read read' : Reader σ ι} (hr : Agree read read') :
    Agree (fileRead p read) (fileRead p.repaired read') := by
  intro st buf len h
  simp only [fileRead] at h ⊢
  split at h
  next hc =>
    simp only [if_pos hc]
    exact gunzipRead_agree hr _ _ _ h
  next hc =>
    simp only [if_neg hc]
    split at h
    next hb =>
      simp only [if_pos hb]
      exact blockRead_agree _ _ _ h
    next hb =>
      simp only [if_neg hb]
      split at h
      next hm =>
        simp only [if_pos hm]
        have hd : (driverRead p st buf len).2.2.faulted = false := by
          split at h <;> exact h
        obtain ⟨hf, heq⟩ := driverRead_agree st buf len hd
        exact ⟨hf, by rw [heq]⟩
      next hm =>
        simp only [if_neg hm]
        exact ⟨h, trivial⟩

theorem measureSkipped_agree {read read' : Reader σ ι} (hr : Agree read read') {st : State σ ι}
    (h : (measureSkipped read st).faulted = false) :
    st.faulted = false ∧ measureSkipped read st = measureSkipped read' st := by
  simp only [measureSkipped] at h ⊢
  split at h
  next hc =>
    simp only [if_pos hc]
    obtain ⟨hf, heq⟩ := hr _ _ _ h
    exact ⟨hf, by rw [heq]⟩
  next hc =>
    simp only [if_neg hc]
    exact ⟨h, trivial⟩

theorem grubReadWith_agree {read read' : Reader σ ι} (hr : Agree read read') :
    Agree (grubReadWith p read) (grubReadWith p.repaired read') := by
  intro st buf len h
  simp only [grubReadWith] at h ⊢
  split at h
  next hm =>
    simp only [if_pos hm]
    exact ⟨h, trivial⟩
  next hm =>
    simp only [if_neg hm]
    split at h
    next hl => exact absurd h (by simp [State.overlong])
    next hl =>
      simp only [if_neg hl]
      obtain ⟨hf, heq⟩ := fileRead_agree hr _ _ _ h
      obtain ⟨hf', heq'⟩ := measureSkipped_agree hr hf
      exact ⟨hf', by rw [heq, heq']⟩

/-- A read without faults. -/
theorem grubRead_agree : Agree (grubRead p) (grubRead p.repaired) :=
  grubReadWith_agree (grubReadWith_agree (grubReadWith_agree noRead_agree))

/-! ## Opening -/

theorem badField_agree (fuel : Nat) : ∀ {len : Int} {ch : Byte} {st : State σ ι},
    (badField p fuel len ch st).2.faulted = false →
      st.faulted = false ∧ badField p fuel len ch st = badField p.repaired fuel len ch st := by
  induction fuel with
  | zero => intro len ch st h; exact ⟨h, rfl⟩
  | succ fuel ih =>
    intro len ch st h
    simp only [badField] at h ⊢
    by_cases hc : if 0 ≤ len then len = 0 else ch = 0
    · simp only [if_pos hc] at h ⊢
      exact ⟨h, trivial⟩
    · simp only [if_neg hc] at h ⊢
      by_cases hone : (grubRead p st (.local fun _ => ch) 1).1 = 1
      · simp only [if_pos hone] at h ⊢
        obtain ⟨hf, heq⟩ := ih h
        obtain ⟨hf', heq'⟩ := grubRead_agree _ _ _ hf
        exact ⟨hf', by rw [heq, ← heq', if_pos hone]⟩
      · simp only [if_neg hone] at h ⊢
        obtain ⟨hf', heq'⟩ := grubRead_agree _ _ _ h
        exact ⟨hf', by rw [← heq', if_neg hone]⟩

theorem badExtra_agree {buf : Nat → Byte} {st : State σ ι} (h : (badExtra p buf st).2.faulted = false) :
    st.faulted = false ∧ badExtra p buf st = badExtra p.repaired buf st := by
  simp only [badExtra] at h ⊢
  by_cases hfix : buf 2 ≠ 8 ∨ buf 3 &&& (0x02 ||| 0x20 ||| 0xC0) ≠ 0
  · simp only [if_pos hfix] at h ⊢
    exact ⟨h, trivial⟩
  simp only [if_neg hfix] at h ⊢
  by_cases hextra : buf 3 &&& 0x04 ≠ 0
  · simp only [if_pos hextra] at h ⊢
    by_cases hn : (grubRead p st (.local buf) 2).1 ≠ 2
    · simp only [if_pos hn] at h ⊢
      obtain ⟨hf, heq⟩ := grubRead_agree _ _ _ h
      exact ⟨hf, by rw [← heq, if_pos hn]⟩
    · simp only [if_neg hn] at h ⊢
      obtain ⟨hf, heq⟩ := badField_agree _ h
      obtain ⟨hf', heq'⟩ := grubRead_agree _ _ _ hf
      exact ⟨hf', by rw [heq, ← heq', if_neg hn]⟩
  · simp only [if_neg hextra] at h ⊢
    exact ⟨h, trivial⟩

theorem badString_agree {flag : Byte} {st : State σ ι} (h : (badString p flag st).2.faulted = false) :
    st.faulted = false ∧ badString p flag st = badString p.repaired flag st := by
  simp only [badString] at h ⊢
  by_cases hc : flag ≠ 0
  · simp only [if_pos hc] at h ⊢
    exact badField_agree _ h
  · simp only [if_neg hc] at h ⊢
    exact ⟨h, trivial⟩

theorem badHeader_agree {buf : Nat → Byte} {st : State σ ι} (h : (badHeader p buf st).2.faulted = false) :
    st.faulted = false ∧ badHeader p buf st = badHeader p.repaired buf st := by
  simp only [badHeader] at h ⊢
  by_cases hextra : (badExtra p buf st).1 = true
  · simp only [if_pos hextra] at h ⊢
    obtain ⟨hf, heq⟩ := badExtra_agree h
    exact ⟨hf, by rw [← heq, if_pos hextra]⟩
  simp only [if_neg hextra] at h ⊢
  by_cases hname : (badString p (buf 3 &&& 0x08) (badExtra p buf st).2).1 = true
  · simp only [if_pos hname] at h ⊢
    obtain ⟨hf, heq⟩ := badString_agree h
    obtain ⟨hf', heq'⟩ := badExtra_agree hf
    exact ⟨hf', by rw [← heq', if_neg hextra, ← heq, if_pos hname]⟩
  · simp only [if_neg hname] at h ⊢
    obtain ⟨hf, heq⟩ := badString_agree h
    obtain ⟨hf', heq'⟩ := badString_agree hf
    obtain ⟨hf'', heq''⟩ := badExtra_agree hf'
    exact ⟨hf'', by rw [← heq'', if_neg hextra, ← heq', if_neg hname, heq]⟩

theorem unpacking_repaired (p : Platform σ ι) (st : State σ ι) (size : Int) :
    st.unpacking p.repaired size = st.unpacking p size := rfl

theorem gunzipTrailer_agree {st : State σ ι} (h : (gunzipTrailer p st).2.faulted = false) :
    st.faulted = false ∧ gunzipTrailer p st = gunzipTrailer p.repaired st := by
  simp only [gunzipTrailer] at h ⊢
  by_cases hn : (grubRead p st.atTrailer (.local fun _ => 0) 8).1 ≠ 8
  · simp only [if_pos hn] at h ⊢
    obtain ⟨hf, heq⟩ := grubRead_agree _ _ _ h
    exact ⟨hf, by rw [← heq, if_pos hn]⟩
  · simp only [if_neg hn] at h ⊢
    have hr : (grubRead p st.atTrailer (.local fun _ => 0) 8).2.2.faulted = false := h
    obtain ⟨hf, heq⟩ := grubRead_agree _ _ _ hr
    refine ⟨hf, ?_⟩
    rw [← heq, if_neg hn]
    exact congrArg (Prod.mk true) (unpacking_repaired p _ _).symm

theorem gunzipTestHeader_agree {st : State σ ι} (h : (gunzipTestHeader p st).2.faulted = false) :
    st.faulted = false ∧ gunzipTestHeader p st = gunzipTestHeader p.repaired st := by
  simp only [gunzipTestHeader] at h ⊢
  by_cases hno : st.noDecompression = true
  · simp only [if_pos hno] at h ⊢
    exact ⟨h, trivial⟩
  simp only [if_neg hno] at h ⊢
  generalize hr : grubRead p st (.local fun _ => 0) 10 = r at h ⊢
  have hread (hf : r.2.2.faulted = false) : st.faulted = false ∧ r = grubRead p.repaired st (.local fun _ => 0) 10 := by
    rw [← hr] at hf ⊢
    exact grubRead_agree _ _ _ hf
  by_cases hplain : r.1 ≠ 10 ∨ ushortAt r.2.1 0 ≠ 0x8B1F ∧ ushortAt r.2.1 0 ≠ 0x9E1F
  · simp only [if_pos hplain] at h ⊢
    obtain ⟨hf, heq⟩ := hread h
    exact ⟨hf, by rw [← heq, if_pos hplain]⟩
  simp only [if_neg hplain] at h ⊢
  by_cases hbad : (badHeader p r.2.1 r.2.2).1 = true
  · simp only [if_pos hbad] at h ⊢
    obtain ⟨hf, heq⟩ := badHeader_agree h
    obtain ⟨hf', heq'⟩ := hread hf
    exact ⟨hf', by rw [← heq', if_neg hplain, ← heq, if_pos hbad]⟩
  · simp only [if_neg hbad] at h ⊢
    obtain ⟨hf, heq⟩ := gunzipTrailer_agree h
    obtain ⟨hf', heq'⟩ := badHeader_agree hf
    obtain ⟨hf'', heq''⟩ := hread hf'
    exact ⟨hf'', by rw [← heq'', if_neg hplain, ← heq', if_neg hbad, heq]⟩

theorem grubReadTo_agree (st : State σ ι) {addr : Nat} {len : Int} (h : (grubReadTo p st addr len).2.faulted = false) :
    st.faulted = false ∧ grubReadTo p st addr len = grubReadTo p.repaired st addr len := by
  obtain ⟨hf, heq⟩ := grubRead_agree _ _ _ h
  exact ⟨hf, by simp only [grubReadTo, heq]⟩

theorem runWalk_agree (walk : DirWalk σ) : ∀ {st : State σ ι}, (runWalk p walk st).2.faulted = false →
    st.faulted = false ∧ runWalk p walk st = runWalk p.repaired walk st := by
  induction walk with
  | opened file fsmax driver => intro st h; exact ⟨h, rfl⟩
  | failed errnum filepos filemax driver => intro st h; exact ⟨h, rfl⟩
  | readLink link linkbuf driver next ih =>
    intro st h
    simp only [runWalk] at h ⊢
    obtain ⟨hf, heq⟩ := ih _ _ _ h
    obtain ⟨hf', heq'⟩ := grubRead_agree _ _ _ hf
    exact ⟨hf', by rw [heq, heq']⟩

theorem copyKernel_agree (st : State σ ι) (h : (copyKernel p st).faulted = false) :
    st.faulted = false ∧ copyKernel p st = copyKernel p.repaired st := by
  obtain ⟨hf, heq⟩ := grubReadTo_agree st.copyPrepared h
  exact ⟨hf, by simp only [copyKernel, heq]⟩

theorem openMeasured_agree {st : State σ ι} (h : (openMeasured p st).2.faulted = false) :
    st.faulted = false ∧ openMeasured p st = openMeasured p.repaired st := by
  simp only [openMeasured] at h ⊢
  by_cases hp : st.performSha1 = true
  · simp only [if_pos hp] at h ⊢
    have htest {s : State σ ι} (hs : (gunzipTestHeader p s).2.faulted = false) := gunzipTestHeader_agree hs
    by_cases hm : st.measureKernel = true
    · simp only [if_pos hm] at h ⊢
      obtain ⟨hf, heq⟩ := copyKernel_agree _ h
      obtain ⟨hf', heq'⟩ := htest hf
      exact ⟨hf', by rw [heq, heq']⟩
    · simp only [if_neg hm] at h ⊢
      obtain ⟨hf', heq'⟩ := htest h
      exact ⟨hf', by rw [heq']⟩
  · simp only [if_neg hp] at h ⊢
    exact gunzipTestHeader_agree h

theorem openPath_agree {st : State σ ι} {filename : List Byte} (h : (openPath p st filename).state.faulted = false) :
    st.faulted = false ∧ openPath p st filename = openPath p.repaired st filename := by
  simp only [openPath] at h ⊢
  by_cases he : st.errnum ≠ .none
  · simp only [if_pos he] at h ⊢
    exact ⟨h, trivial⟩
  simp only [if_neg he] at h ⊢
  by_cases hm : st.mounted = true
  · simp only [if_pos hm] at h ⊢
    have hdir : p.repaired.dirFunc = p.dirFunc := rfl
    rw [hdir]
    by_cases hfound : (runWalk p (p.dirFunc filename st.driver) st).1 = true
    · simp only [if_pos hfound] at h ⊢
      obtain ⟨hf, heq⟩ := openMeasured_agree h
      obtain ⟨hf', heq'⟩ := runWalk_agree _ hf
      exact ⟨hf', by rw [← heq', if_pos hfound, heq]⟩
    · simp only [if_neg hfound] at h ⊢
      obtain ⟨hf', heq'⟩ := runWalk_agree _ h
      exact ⟨hf', by rw [← heq', if_neg hfound]⟩
  · simp only [if_neg hm] at h ⊢
    exact ⟨h, trivial⟩

theorem openName_agree (st : State σ ι) (filename : List Byte) (h : (openName p st filename).state.faulted = false) :
    st.faulted = false ∧ openName p st filename = openName p.repaired st filename := by
  have hsetup : p.repaired.setupPart = p.setupPart := rfl
  have hdriver : st.restarted.driver = st.driver := rfl
  simp only [openName, hsetup, hdriver] at h ⊢
  cases hs : p.setupPart filename st.driver with
  | refused errnum driver =>
    simp only [hs] at h ⊢
    refine ⟨?_, trivial⟩
    split at h <;> exact h
  | chosen filename part mounted errnum driver =>
    simp only [hs] at h ⊢
    by_cases hslash : filename.chars.head? = some 0x2F
    · simp only [if_pos hslash] at h ⊢
      exact openPath_agree h
    · simp only [if_neg hslash] at h ⊢
      by_cases hok : (blockName filename.chars).ok = true ∧ (blockName filename.chars).ptr.length ≠ filename.chars.length
      · simp only [if_pos hok] at h ⊢
        obtain ⟨hf, heq⟩ := gunzipTestHeader_agree h
        exact ⟨hf, by rw [heq]⟩
      · simp only [if_neg hok] at h ⊢
        exact openPath_agree h

theorem openPasses_agree {filename : FileName} (trials : List (List Byte)) : ∀ {held : List Byte} {st : State σ ι},
    (openPasses p filename trials held st).2.faulted = false →
      st.faulted = false ∧ openPasses p filename trials held st = openPasses p.repaired filename trials held st := by
  induction trials with
  | nil => intro _ st h; exact ⟨h, rfl⟩
  | cons trial trials ih =>
    intro held st h
    simp only [openPasses] at h ⊢
    cases hpass : openName p st (filename.alternative (filename.held st held) trial) with
    | returned result s =>
      simp only [hpass] at h
      obtain ⟨hf, heq⟩ := openName_agree (p := p) st (filename.alternative (filename.held st held) trial) (by rw [hpass]; exact h)
      exact ⟨hf, by rw [← heq, hpass]⟩
    | retry s =>
      simp only [hpass] at h
      obtain ⟨hs, heq'⟩ := ih h
      obtain ⟨hf, heq⟩ := openName_agree (p := p) st (filename.alternative (filename.held st held) trial) (by rw [hpass]; exact hs)
      exact ⟨hf, by rw [← heq, hpass]; exact heq'⟩

/-- **Opening without faults.** -/
theorem grubOpen_agree (st : State σ ι) (filename : FileName) (h : (grubOpen p st filename).2.faulted = false) :
    st.faulted = false ∧ grubOpen p st filename = grubOpen p.repaired st filename := by
  have hfn : p.repaired.fn = p.fn := rfl
  simp only [grubOpen, hfn] at h ⊢
  cases hpass : openName p st (filename.held st (p.fn st.driver)) with
  | returned result s =>
    simp only [hpass] at h
    obtain ⟨hf, heq⟩ := openName_agree (p := p) st (filename.held st (p.fn st.driver)) (by rw [hpass]; exact h)
    exact ⟨hf, by rw [← heq, hpass]⟩
  | retry s =>
    simp only [hpass] at h
    obtain ⟨hs, heq'⟩ := openPasses_agree _ h
    obtain ⟨hf, heq⟩ := openName_agree (p := p) st (filename.held st (p.fn st.driver)) (by rw [hpass]; exact hs)
    exact ⟨hf, by rw [← heq, hpass]; exact heq'⟩

end TrustedGrub.Disk
