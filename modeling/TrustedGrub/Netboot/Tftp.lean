import TrustedGrub.Lib.Loop
import TrustedGrub.Lib.StringEdit
import TrustedGrub.CharIo.Number
import TrustedGrub.Builtins.Table

/-!
# The TFTP client

`fsys_tftp.c`. The network is a parameter: it says what every wait for a packet comes to and whether a datagram
gets out, from all that has been sent and from how often the client has waited. Addresses and the headers that
`udp_transmit` fills in are left out, as the client only looks at the port of a packet.
-/

namespace TrustedGrub.Netboot
open Fips180 (Byte)
open Disk (GrubError isspace digitOf)
open CharIo (Word)
open Memory (slice store)
open Loop (Flow)

abbrev Short := BitVec 16

def fsysBuflen : Nat := 0x8000
def tftpDefaultsizePacket : Int := 512
def tftpMaxPacket : Nat := 1432
def tftpPort : Short := 69
def maxTftpRetries : Nat := 20

/-- `TFTP_REXMT`, and the `TFTP_TIMEOUT` of the retransmissions, in ticks. -/
def tftpRexmt : Nat := 54

def tftpTimeout : Nat := 540

def tftpRrq : Short := 1
def tftpData : Short := 3
def tftpAck : Short := 4
def tftpError : Short := 5
def tftpOack : Short := 6

/-- `sizeof (tp.ip) + sizeof (tp.udp) + sizeof (tp.opcode)`. -/
def headers : Nat := 30

/-- `TFTP_MIN_PACKET`. -/
def tftpMinPacket : Short := 32

/-- `struct tftp_t` behind its headers: the opcode, and the bytes of the union. -/
structure Tftp where
  opcode : Short
  u : Nat → Byte

/-- `u.ack.block` and `u.data.block`, in the order of the host. -/
def Tftp.block (t : Tftp) : Short := t.u 0 ++ t.u 1

def Tftp.setBlock (t : Tftp) (block : Short) : Tftp := { t with u := store t.u 0 [block.extractLsb' 8 8, block.setWidth 8] }

/-- A packet that `await_reply` has put into `nic.packet`: `udp.src`, `udp.len`, and the rest. -/
structure Packet where
  src : Short
  len : Short
  tr : Tftp

/-- A call of `udp_transmit`: the two ports, the length, and the packet. -/
structure Datagram where
  src : Short
  dst : Short
  len : Short
  tp : Tftp

/-- What `await_reply` comes to; it is aborted when `ip_abort` is set. -/
inductive Reply where
  | timeout
  | aborted
  | packet (p : Packet)

/-- The network, from all that has been sent, the last first, how often the client has waited, and the port. -/
structure Network where
  reply : List Datagram → Nat → Short → Reply
  transmits : List Datagram → Bool

/-- The static variables of `fsys_tftp.c`, and `filepos`, `filemax` and `errnum`. The `unsigned short` that goes
out as the port is `iport` modulo `2 ^ 16`. -/
structure Client where
  retry : Nat
  iport : Nat
  oport : Short
  block : Short
  prevblock : Short
  bcounter : Nat
  tp : Tftp
  savedTp : Tftp
  packetsize : Int
  bufEof : Bool
  bufRead : Nat
  savedFilepos : Nat
  len : Short
  savedLen : Short
  buf : Nat → Byte
  filepos : Nat
  filemax : Int
  errnum : GrubError
  sent : List Datagram
  waits : Nat

/-- The static variables as the program starts. -/
def Client.initial (buf : Nat → Byte) : Client where
  retry := 0
  iport := 2000
  oport := 0
  block := 0
  prevblock := 0
  bcounter := 0
  tp := ⟨0, fun _ => 0⟩
  savedTp := ⟨0, fun _ => 0⟩
  packetsize := 0
  bufEof := false
  bufRead := 0
  savedFilepos := 0
  len := 0
  savedLen := 0
  buf := buf
  filepos := 0
  filemax := 0
  errnum := .none
  sent := []
  waits := 0

def Client.port (c : Client) : Short := .ofNat 16 c.iport

/-- `udp_transmit` of `tp` from the port of the client. -/
def udpTransmit (net : Network) (dst len : Short) (c : Client) : Bool × Client :=
  if net.transmits c.sent then (true, { c with sent := ⟨c.port, dst, len, c.tp⟩ :: c.sent }) else (false, c)

/-- `await_reply` for a packet to the port of the client. -/
def awaitReply (net : Network) (c : Client) : Reply := net.reply c.sent c.waits c.port

def Client.waited (c : Client) : Client := { c with waits := c.waits + 1 }

/-! ## Option acknowledgements -/

/-- The digits that a text begins with, and how many there are. An `int` overflows silently. -/
def decLoop : List Byte → Word → Word × Nat
  | [], ret => (ret, 0)
  | c :: s, ret =>
    match digitOf 10 c with
    | none => (ret, 0)
    | some d =>
      let rest := decLoop s (ret * 10 + .ofNat 32 d)
      (rest.1, rest.2 + 1)

/-- `getdec`: the number, and how far the pointer moves. -/
def getdec (s : List Byte) : Int × Nat :=
  if (digitOf 10 (s.headD 0)).isNone then (-1, 0)
  else
    let scan := decLoop s 0
    (scan.1.toInt, scan.2)

/-- Where `nic.packet` ends, from the union on; a number that goes on to there ends there. -/
def packetEnd : Nat := 1470

/-- `while (p < e && *p) p++`. -/
def skipText (u : Nat → Byte) : Nat → Nat → Nat
  | 0, p => p
  | n + 1, p => if u p = 0 then p else skipText u n (p + 1)

/-- `! grub_strcmp (name, p)`, of a string constant. -/
def named (name : String) (u : Nat → Byte) (p : Nat) : Bool := slice u p (Builtins.ascii name ++ [0]).length = Builtins.ascii name ++ [0]

/-- `packetsize` and `filemax`. -/
structure Agreed where
  packetsize : Int
  filemax : Int

/-- One option; nothing when it is refused. The value of one that is refused stays, or becomes -1. -/
def oackOption (u : Nat → Byte) (p : Nat) (a : Agreed) : Option Nat × Agreed :=
  if named "blksize" u p then
    let n := getdec (slice u (p + 8) (packetEnd - (p + 8)))
    (if n.1 < tftpDefaultsizePacket then none else some (p + 8 + n.2), { a with packetsize := n.1 })
  else if named "tsize" u p then
    let n := getdec (slice u (p + 6) (packetEnd - (p + 6)))
    if n.1 < 0 then (none, { a with filemax := -1 }) else (some (p + 6 + n.2), { a with filemax := n.1 })
  else (none, a)

/-- The loop over the options up to `e`, and whether they are accepted. An option takes six bytes at least, so a
pass for every byte is enough. -/
def oackLoop (u : Nat → Byte) (e : Nat) : Nat → Nat → Agreed → Bool × Agreed
  | 0, _, a => (false, a)
  | fuel + 1, p, a =>
    if u p ≠ 0 ∧ p < e then
      match oackOption u p a with
      | (none, a) => (false, a)
      | (some p, a) =>
        let p := skipText u (e - p) p
        oackLoop u e fuel (if p < e then p + 1 else p) a
    else (decide (p ≤ e), a)

/-! ## `buf_fill` -/

/-- `RFC1782 error` of the client: the error code in the order of the host, and the text. -/
def noak (net : Network) (dst : Short) (c : Client) : Client :=
  let tp : Tftp := ⟨tftpError, store c.tp.u 0 ([8, 0] ++ Builtins.ascii "RFC1782 error" ++ [0])⟩
  (udpTransmit net dst 46 { c with tp := tp, len := 46 }).2

/-- `Block order should be continuous`. -/
def blockOrder (c : Client) : Client :=
  if (c.block ≠ 0 ∨ c.bcounter ≠ 0) ∧ c.block.toNat ≠ c.prevblock.toNat + 1 then
    { c with block := c.prevblock, tp := c.tp.setBlock c.prevblock }
  else c

/-- The acknowledgement, or an error that ends the transfer. -/
def sendAck (net : Network) (abort : Bool) (p : Packet) (c : Client) : Client :=
  (udpTransmit net p.src tftpMinPacket { c with tp := { c.tp with opcode := if abort then tftpError else tftpAck }, oport := p.src }).2

/-- The downloaded data is copied to the buffer, by a `grub_memmove` that does nothing while an error is pending. -/
def takeBlock (p : Packet) (c : Client) : Client :=
  { c with
    prevblock := c.block
    retry := 0
    bcounter := c.bcounter + 1
    buf := if c.errnum = .none then store c.buf c.bufRead (slice p.tr.u 2 c.len.toNat) else c.buf
    bufRead := c.bufRead + c.len.toNat
    bufEof := c.bufEof || decide ((c.len.toNat : Int) < c.packetsize) }

/-- From the acknowledgement to the end of the loop. -/
def ackBlock (net : Network) (abort : Bool) (p : Packet) (c : Client) : Flow Unit Client Bool :=
  let c := sendAck net abort p c
  if abort then .done true { c with bufEof := true }
  else if c.block - c.prevblock ≠ 1 then .next () c
  else .next () (takeBlock p c)

def acknowledge (net : Network) (abort : Bool) (p : Packet) (c : Client) : Flow Unit Client Bool := ackBlock net abort p (blockOrder c)

/-- A wait that came to nothing: the request or the last acknowledgement is sent once more, as far as the time allows. -/
def timedOut (net : Network) (c : Client) : Flow Unit Client Bool :=
  if c.block = 0 then
    if c.retry < maxTftpRetries then
      match udpTransmit net tftpPort c.len { c with retry := c.retry + 1, iport := c.iport + 1 } with
      | (false, c) => .done false c
      | (true, c) => .next () c
    else .done false { c with retry := c.retry + 1 }
  else
    let c := { c with retry := c.retry + tftpRexmt }
    if c.retry < tftpTimeout then .next () (udpTransmit net c.oport tftpMinPacket c).2
    else .done false c

def onOack (net : Network) (abort : Bool) (p : Packet) (c : Client) : Flow Unit Client Bool :=
  if c.prevblock ≠ 0 then .next () c
  else
    let c := { c with len := p.len - 10 }
    if tftpMaxPacket < c.len.toNat then .done false (noak net p.src c)
    else
      match oackLoop p.tr.u c.len.toNat (c.len.toNat + 1) 0 ⟨c.packetsize, c.filemax⟩ with
      | (false, a) => .done false (noak net p.src { c with packetsize := a.packetsize, filemax := a.filemax })
      | (true, a) =>
        acknowledge net abort p { c with packetsize := a.packetsize, filemax := a.filemax, block := 0, tp := c.tp.setBlock 0 }

def onData (net : Network) (abort : Bool) (p : Packet) (c : Client) : Flow Unit Client Bool :=
  let c := { c with len := p.len - 12 }
  if c.packetsize < c.len.toNat then .next () c
  else acknowledge net abort p { c with tp := c.tp.setBlock p.tr.block, block := p.tr.block }

def onPacket (net : Network) (abort : Bool) (p : Packet) (c : Client) : Flow Unit Client Bool :=
  if p.tr.opcode = tftpError then .done false c
  else if p.tr.opcode = tftpOack then onOack net abort p c
  else if p.tr.opcode = tftpData then onData net abort p c
  else .done true c

/-- A pass through the loop of `buf_fill`. -/
def pass (net : Network) (abort : Bool) (c : Client) : Flow Unit Client Bool :=
  if ¬ c.bufEof ∧ c.bufRead + c.packetsize ≤ fsysBuflen then
    match awaitReply net c with
    | .timeout => timedOut net c.waited
    | .aborted => .done false c.waited
    | .packet p => onPacket net abort p c.waited
  else .done true c

def bufFill (net : Network) (abort : Bool) (fuel : Nat) (c : Client) : Option (Bool × Client) :=
  Loop.run (fun _ _ c => some (pass net abort c)) fuel () c

/-! ## `send_rrq` and `tftp_dir` -/

/-- The receive queue is drained first, which leaves nothing that the client looks at. -/
def sendRrq (net : Network) (c : Client) : Bool × Client :=
  udpTransmit net tftpPort c.len { c with
    retry := 0
    block := 0
    prevblock := 0
    packetsize := tftpDefaultsizePacket
    bcounter := 0
    bufEof := false
    bufRead := 0
    savedFilepos := 0
    iport := c.iport + 1 }

/-- `grub_memmove (dst, src, len)` of two packets, headers included. -/
def Tftp.copy (dst src : Tftp) (len : Short) : Tftp :=
  if headers ≤ len.toNat then ⟨src.opcode, store dst.u 0 (slice src.u 0 (len.toNat - headers))⟩ else dst

/-- The name that `nul_terminate` leaves. -/
def nulTerminate (dirname : List Byte) : List Byte := dirname.takeWhile fun c => c ≠ 0 ∧ ¬ isspace c

/-- What `grub_sprintf` stores, less the zero at its end. -/
def rrqText (name : List Byte) : List Byte :=
  name ++ [0] ++ Builtins.ascii "octet" ++ [0] ++ Builtins.ascii "blksize" ++ [0] ++ CharIo.convertToAscii 0x64 (.ofNat 32 tftpMaxPacket) ++
    [0] ++ Builtins.ascii "tsize" ++ [0] ++ Builtins.ascii "0"

/-- The request is put together and saved, unless an error is pending. -/
def makeRrq (name : List Byte) (c : Client) : Client :=
  let tp : Tftp := ⟨tftpRrq, store c.tp.u 0 (rrqText name ++ [0])⟩
  let len : Short := .ofNat 16 ((rrqText name).length + headers + 1)
  { c with tp := tp, len := len, savedTp := if c.errnum = .none then c.savedTp.copy tp len else c.savedTp, savedLen := len }

/-- The loop that counts the bytes of the file. -/
def countPass (net : Network) : Loop.Body Unit Client Bool := fun fuel _ c =>
  match bufFill net false fuel { c with filemax := c.filemax + c.bufRead, bufRead := 0 } with
  | none => none
  | some (false, c) => some (.done false { c with errnum := .read })
  | some (true, c) => if c.bufEof then some (.done true { c with filemax := c.filemax + c.bufRead }) else some (.next () c)

/-- From `reopen` on. -/
def openPass (net : Network) (name : List Byte) : Loop.Body Unit Client Bool := fun fuel _ c =>
  match sendRrq net (makeRrq name c) with
  | (false, c) => some (.done false { c with errnum := .write })
  | (true, c) =>
    match bufFill net false fuel c with
    | none => none
    | some (false, c) => some (.done false { c with errnum := .fileNotFound })
    | some (true, c) =>
      if c.filemax = -1 then
        match Loop.run (countPass net) fuel () { c with filemax := 0 } with
        | none => none
        | some (false, c) => some (.done false c)
        | some (true, c) => some (.next () c)
      else some (.done true c)

/-- `tftp_dir`, when no completions are printed. -/
def tftpDir (net : Network) (fuel : Nat) (dirname : List Byte) (c : Client) : Option (Bool × Client) :=
  Loop.run (openPass net (nulTerminate dirname)) fuel () { c with filemax := -1 }

end TrustedGrub.Netboot
