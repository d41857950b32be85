import TrustedGrub.Disk.State

/-!
# `update_pcr`

The function of `boot.c` that builds a command for the TPM in the TCG buffer. Of the TPM
only the extension is described: a register becomes the digest of its old content
followed by the digest it is extended with.
-/

namespace TrustedGrub.Boot
open Fips180 (Byte Words)
open Disk (Event)

/-- The bytes of a digest, each word with its most significant byte first. -/
def hashBytes (hashResult : Words) : List Byte :=
  [hashResult.a, hashResult.b, hashResult.c, hashResult.d, hashResult.e].flatMap Sha1.splitInto4Bytes

theorem hashBytes_length (hashResult : Words) : (hashBytes hashResult).length = 20 := rfl

/-- What is stored from 0xF012 on: the input parameter block of the BIOS, and the command. -/
def tcgBuffer (pcr : Byte) (hashResult : Words) : List Byte :=
  [0x2A, 0, 0, 0, 0x22, 0, 0, 0] ++
    [0x00, 0xC1, 0x00, 0x00, 0x00, 0x22, 0x00, 0x00, 0x00, 0x14, 0x00, 0x00, 0x00, pcr] ++ hashBytes hashResult

/-- The registers of the TPM. -/
abbrev Pcrs := Nat → List Byte

/-- A register is extended. -/
def extendPcr (value digest : List Byte) : List Byte := hashBytes (Fips180.sha1 (value ++ digest))

/-- The BIOS passes the command on, and the TPM obeys it if it is the one to extend. -/
def tcgHashExtendPcr (pcrs : Pcrs) (buffer : List Byte) : Pcrs :=
  let command := buffer.drop 8
  if (command.drop 6).take 4 = [0x00, 0x00, 0x00, 0x14] then
    let pcr := (command.getD 13 0).toNat
    fun i => if i = pcr then extendPcr (pcrs pcr) (command.drop 14) else pcrs i
  else pcrs

/-- `update_pcr`. -/
def updatePcr (pcrs : Pcrs) (pcr : Nat) (hashResult : Words) : Int × Pcrs :=
  if pcr < 8 ∨ 15 < pcr then (-1, pcrs) else (0, tcgHashExtendPcr pcrs (tcgBuffer (BitVec.ofNat 8 pcr) hashResult))

theorem updatePcr_extends (pcrs : Pcrs) {pcr : Nat} (h : 8 ≤ pcr) (hle : pcr ≤ 15) (hashResult : Words) (i : Nat) :
    (updatePcr pcrs pcr hashResult).2 i = if i = pcr then extendPcr (pcrs pcr) (hashBytes hashResult) else pcrs i := by
  have hbyte : (BitVec.ofNat 8 pcr).toNat = pcr := by
    rw [BitVec.toNat_ofNat, Nat.mod_eq_of_lt (by omega)]
  unfold updatePcr
  rw [if_neg (by omega)]
  change (if i = (BitVec.ofNat 8 pcr).toNat then extendPcr (pcrs (BitVec.ofNat 8 pcr).toNat) (hashBytes hashResult) else pcrs i) = _
  rw [hbyte]

/-- The registers after the events of a run. -/
def pcrsAfter (pcrs : Pcrs) (events : List Event) : Pcrs :=
  events.foldl
    (fun pcrs event =>
      match event with
      | .updatePcr pcr hashResult => (updatePcr pcrs pcr hashResult).2
      | .notMeasured _ _ => pcrs)
    pcrs

end TrustedGrub.Boot
