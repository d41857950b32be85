import TrustedGrub.Disk.Loaded
import TrustedGrub.Util.HostSha1

/-!
# `verify_pcr`

The host's tool that computes from the files what a register holds after they have been
loaded. Its digests are those of the boot loader; what it lacks is the digest of an empty
file, for which `sha1_update` reports an error.
-/

namespace TrustedGrub.Util
open Fips180 (Byte Word Words)
open Disk (File Load Loaded State Platform Measurable ReadThrough extendFiles pcrKernel)
open Boot (Pcrs extendPcr hashBytes pcrsAfter)

variable {w : Nat}

/-- The machine the tool runs on: whether the shell finds a command to succeed, and the
files. -/
structure Host where
  system : List Byte → Bool
  file : List Byte → Option File

/-- `"NULL"`. -/
def null : List Byte := [0x4E, 0x55, 0x4C, 0x4C]

/-- One digit of the initial value. -/
def hexDigit (c : Byte) : Option Byte :=
  if 0x30 ≤ c ∧ c ≤ 0x39 then some (c - 0x30)
  else if 0x61 ≤ c ∧ c ≤ 0x66 then some (c - 0x61 + 10)
  else none

/-- The initial value: `NULL`, or forty digits. A shorter argument ends with a byte 0. -/
def pcrArgument (arg : List Byte) : Option (List Byte) :=
  if arg = null then some (List.replicate 20 0)
  else
    ((List.range 40).mapM fun i => hexDigit (arg.getD i 0)).map fun digits =>
      (List.range 20).map fun i => ((digits.getD (2 * i) 0 : Byte) <<< (4 : Nat)) ||| digits.getD (2 * i + 1) 0

/-- `snprintf (filename, sizeof (filename), "test -e %s", argv[i])`. -/
def testCommand (name : List Byte) : List Byte := ([0x74, 0x65, 0x73, 0x74, 0x20, 0x2D, 0x65, 0x20] ++ name).take 1023

/-- The bytes of the digest words that are copied. -/
def hostBytes (hashResult : HostWords w) : List Byte :=
  [hashResult.a, hashResult.b, hashResult.c, hashResult.d, hashResult.e].flatMap splitInto4Bytes

/-- The loop over the files: one of them. -/
def extendFile (host : Host) (stack : Sha1Context w) (pcr : List Byte) (name : List Byte) : Option (List Byte) :=
  (calculateSha1 stack ((host.file name).map File.bytes)).map fun hashResult =>
    let pcr2 := pcr ++ hostBytes hashResult
    let mySha1 := (sha1Update (sha1Init stack) pcr2).2
    hostBytes (sha1Finish mySha1).1

/-- `main` on its arguments: the value printed, or `none` where it prints an error. -/
def verifyPcr (host : Host) (stack : Sha1Context w) (args : List (List Byte)) : Option (List Byte) :=
  match args with
  | arg :: name :: names =>
    (pcrArgument arg).bind fun pcr =>
      if (name :: names).all fun name => host.system (testCommand name) then (name :: names).foldlM (extendFile host stack) pcr
      else none
  | _ => none

/-! ## The same register -/

theorem hostBytes_low (hashResult : HostWords w) : hostBytes hashResult = hashBytes hashResult.low := by
  simp only [hostBytes, hashBytes, HostWords.low, List.flatMap_cons, List.flatMap_nil, host_split]

/-- **The step**: a file that is not empty extends the register as the TPM does. -/
theorem extendFile_eq (hw : 32 ≤ w) (host : Host) (stack : Sha1Context w) {pcr name : List Byte} (hpcr : pcr.length = 20) {file : File}
    (hfile : host.file name = some file) :
    extendFile host stack pcr name =
      if file.bytes = [] then none else some (extendPcr pcr (hashBytes (Fips180.sha1 file.bytes))) := by
  have hfits := file.fits
  unfold extendFile
  rw [hfile, Option.map_some]
  split
  next hempty =>
    rw [hempty, calculateSha1_empty]
    rfl
  next hsome =>
    obtain ⟨hash, hcalc, hdigest⟩ := calculateSha1_digest hw stack hsome (by omega)
    rw [hcalc, Option.map_some]
    have hlen : (pcr ++ hostBytes hash).length = 40 := by rw [List.length_append, hpcr, hostBytes_low, Boot.hashBytes_length]
    have hrep := (host_init hw stack).update hw (by omega : (pcr ++ hostBytes hash).length < 2 ^ 32)
    rw [List.nil_append] at hrep
    have hfinish := hrep.finish hw (by omega)
    simp only [hostBytes_low] at hfinish ⊢
    rw [hfinish, hdigest, extendPcr]

theorem extendPcr_length (value digest : List Byte) : (extendPcr value digest).length = 20 := Boot.hashBytes_length _

/-- **The run** over the files. -/
theorem extendFiles_eq (hw : 32 ≤ w) (host : Host) (stack : Sha1Context w) {names : List (List Byte)} {files : List (List Byte)}
    (hfiles : List.Forall₂ (fun name F => ∃ file, host.file name = some file ∧ file.bytes = F) names files) :
    ∀ {pcr : List Byte}, pcr.length = 20 → names.foldlM (extendFile host stack) pcr =
      if ∀ F ∈ files, F ≠ [] then some (extendFiles pcr files) else none := by
  induction hfiles with
  | nil =>
    intro pcr _
    rw [if_pos fun F hF => absurd hF List.not_mem_nil]
    rfl
  | @cons name F names files hfirst _ ih =>
    intro pcr hpcr
    obtain ⟨file, hfile, rfl⟩ := hfirst
    rw [List.foldlM_cons, extendFile_eq hw host stack hpcr hfile]
    by_cases hempty : file.bytes = []
    · rw [if_pos hempty, if_neg fun hall => hall _ List.mem_cons_self hempty]
      rfl
    · rw [if_neg hempty, Option.bind_eq_bind, Option.bind_some, ih (extendPcr_length _ _)]
      have hiff : (∀ G ∈ file.bytes :: files, G ≠ []) ↔ ∀ G ∈ files, G ≠ [] := by
        rw [List.forall_mem_cons]
        exact and_iff_right hempty
      simp only [hiff]
      rfl

theorem pcrArgument_length {arg pcr : List Byte} (h : pcrArgument arg = some pcr) : pcr.length = 20 := by
  unfold pcrArgument at h
  split at h
  · cases h
    rfl
  · obtain ⟨digits, -, rfl⟩ := Option.map_eq_some_iff.1 h
    rw [List.length_map, List.length_range]

/-- **The prediction**: stage2 reads files that it measures, one after the other, on a
machine whose register 14 holds the initial value. The tool prints what the register
then holds exactly when it is given a file at all, its shell finds every name, and no file
is empty. -/
theorem verifyPcr_predicts_iff {σ ι : Type} {p : Platform σ ι} (htpm : p.tpm = true) (hw : 32 ≤ w) (host : Host) (stack : Sha1Context w)
    {arg pcr : List Byte} (harg : pcrArgument arg = some pcr) {names : List (List Byte)} {loads : List (Load × List Byte)}
    (hfiles : List.Forall₂ (fun name F => ∃ file, host.file name = some file ∧ file.bytes = F) names (loads.map Prod.snd))
    {st st' : State σ ι} (hon : st.performSha1 = true) (hevents : st.events = []) (hloaded : Loaded p st loads st') (pcrs : Pcrs)
    (hpcrs : pcrs pcrKernel = pcr) :
    verifyPcr host stack (arg :: names) = some (pcrsAfter pcrs st'.events pcrKernel) ↔
      names ≠ [] ∧ (∀ name ∈ names, host.system (testCommand name) = true) ∧ ∀ load ∈ loads, load.2 ≠ [] := by
  obtain ⟨events, hrun, hafter⟩ := hloaded.pcr htpm hon
  rw [hevents, List.nil_append] at hrun
  rw [hrun, hafter, hpcrs]
  cases names with
  | nil => exact iff_of_false nofun fun hall => hall.1 rfl
  | cons name names =>
    have hfold := extendFiles_eq hw host stack hfiles (pcrArgument_length harg)
    have hnonempty : (∀ F ∈ loads.map Prod.snd, F ≠ []) ↔ ∀ load ∈ loads, load.2 ≠ [] := by
      simp only [List.mem_map, forall_exists_index, and_imp, forall_apply_eq_imp_iff₂]
    simp only [verifyPcr, harg, Option.bind_some, hfold, hnonempty, List.all_eq_true]
    constructor
    · intro heq
      split at heq
      next hfound =>
        split at heq
        next hall => exact ⟨List.cons_ne_nil _ _, hfound, hall⟩
        next => cases heq
      next => cases heq
    · rintro ⟨-, hfound, hall⟩
      rw [if_pos hfound, if_pos hall]

/-- The host of a disk with the file `/f`. -/
def hostWithF : Host where
  system command := command = testCommand [0x2F, 0x66]
  file name := if name = [0x2F, 0x66] then some ⟨[0x61, 0x62, 0x63], Disk.abc_fits⟩ else none

/-- A context as the stack may hold it. -/
def onStack : Sha1Context 64 := ⟨0, 0, ⟨0, 0, 0, 0, 0⟩, Vector.replicate 64 0⟩

open Disk in
/-- `/f` is read in one piece. -/
def loadF : Load := ⟨⟨[0x2F, 0x66], slash_f_fits⟩, false, [(.local fun _ => 0, 3)]⟩

open Disk in
/-- Measuring is on, and nothing has been loaded. -/
def beforeLoading : State Unit Unit := { State.atBoot () () 640 65536 with performSha1 := true }

open Disk in
theorem verifyPcr_predicts_f : ∃ st', Loaded diskWithF beforeLoading [(loadF, openF.rawFile)] st' ∧
    (verifyPcr hostWithF onStack [null, [0x2F, 0x66]] =
        some (pcrsAfter (fun _ => List.replicate 20 0) st'.events pcrKernel) ↔
      [[0x2F#8, 0x66#8]] ≠ [] ∧ (∀ name ∈ [[0x2F#8, 0x66#8]], hostWithF.system (testCommand name) = true) ∧
        ∀ load ∈ [(loadF, openF.rawFile)], load.2 ≠ []) := by
  have hopen : grubOpen diskWithF (beforeLoading.loading loadF) loadF.filename = (true, openF) := Prod.ext (by decide +kernel) rfl
  have hread : ReadThrough diskWithF openF loadF.reads :=
    ⟨by decide +kernel, ⟨by decide +kernel, trivial⟩, by decide +kernel, by decide +kernel⟩
  have hadds : AddsUp loadF.measureKernel openF (loadF.reads.map Prod.snd) 0 0 id := by
    rw [AddsUp.of_driver (by decide +kernel) [] (by decide +kernel)]
    decide +kernel
  have hmeasurable : Measurable diskWithF loadF.measureKernel openF (loadF.reads.map Prod.snd) :=
    ⟨.inr (by decide +kernel), by decide +kernel, 0, 0, id, fun hc => absurd hc (by decide +kernel), hadds⟩
  have hcloses : (grubClose diskWithF (readAll diskWithF openF loadF.reads)).isSome := by decide +kernel
  have hloaded := Loaded.cons hopen hread hmeasurable (Option.some_get hcloses).symm (.nil _)
  have hfile : hostWithF.file [0x2F, 0x66] = some ⟨[0x61, 0x62, 0x63], Disk.abc_fits⟩ := rfl
  exact ⟨_, hloaded, verifyPcr_predicts_iff rfl (by decide) hostWithF onStack (if_pos rfl)
    (.cons ⟨_, hfile, by decide +kernel⟩ .nil) rfl rfl hloaded _ rfl⟩

theorem empty_fits : ([] : List Byte).length ≤ 0x7FFFFFFF := Nat.zero_le _

/-- A disk with the empty file `/e`. -/
def diskWithE : Platform Unit Unit :=
  .ofFiles fun path => if path = [0x2F, 0x65] then some ⟨[], empty_fits⟩ else none

/-- The host of that disk. -/
def hostWithE : Host where
  system command := command = testCommand [0x2F, 0x65]
  file name := if name = [0x2F, 0x65] then some ⟨[], empty_fits⟩ else none

open Disk in
/-- `/e` is opened and closed: there is nothing to read. -/
def loadE : Load := ⟨⟨[0x2F, 0x65], by decide⟩, false, []⟩

open Disk in
def openE : State Unit Unit := (grubOpen diskWithE (beforeLoading.loading loadE) loadE.filename).2

open Disk in
/-- An empty file is measured, and the tool has no value for it. -/
theorem empty_file_unpredicted : ∃ st', Loaded diskWithE beforeLoading [(loadE, [])] st' ∧
    hostWithE.file [0x2F, 0x65] = some ⟨[], by decide⟩ ∧ (∃ digest, st'.events = [.updatePcr pcrKernel digest]) ∧
      verifyPcr hostWithE onStack [null, [0x2F, 0x65]] = none := by
  have hopen : grubOpen diskWithE (beforeLoading.loading loadE) loadE.filename = (true, openE) := Prod.ext (by decide +kernel) rfl
  have hread : ReadThrough diskWithE openE loadE.reads :=
    ⟨by decide +kernel, trivial, by decide +kernel, by decide +kernel⟩
  have hadds : AddsUp loadE.measureKernel openE (loadE.reads.map Prod.snd) 0 0 id := by
    rw [AddsUp.of_driver (by decide +kernel) [] (by decide +kernel)]
    decide +kernel
  have hmeasurable : Measurable diskWithE loadE.measureKernel openE (loadE.reads.map Prod.snd) :=
    ⟨.inr (by decide +kernel), by decide +kernel, 0, 0, id, fun hc => absurd hc (by decide +kernel), hadds⟩
  have hcloses : (grubClose diskWithE (readAll diskWithE openE loadE.reads)).isSome := by decide +kernel
  have hclose := (Option.some_get hcloses).symm
  have hempty : openE.rawFile = [] := by decide +kernel
  have hloaded := Loaded.cons hopen hread hmeasurable hclose (.nil _)
  rw [hempty] at hloaded
  have hevents := grubClose_events hclose
  rw [State.closeEvents, if_neg (by decide +kernel), if_neg (by decide +kernel), if_pos (by decide +kernel)] at hevents
  exact ⟨_, hloaded, rfl, ⟨_, hevents⟩, by decide +kernel⟩

end TrustedGrub.Util
