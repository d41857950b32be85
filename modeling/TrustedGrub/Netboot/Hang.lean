import TrustedGrub.Netboot.Options

/-!
# A block size that does not fit

With acknowledged blocks that are larger than the buffer `buf_fill` succeeds without waiting for anything, and
`tftp_dir` counts for ever.
-/

namespace TrustedGrub.Netboot
open Fips180 (Byte)
open Memory (slice)
open Loop (Flow)

variable {net : Network} {name dirname : List Byte} {fuel size : Nat} {abort : Bool} {c : Client} {p : Packet}

/-- There is room for another block. -/
def Client.Fills (c : Client) : Prop := ¬ c.bufEof ∧ c.bufRead + c.packetsize ≤ fsysBuflen

/-- The options of an acknowledgement, as the client reads them. -/
def Packet.options (p : Packet) (a : Agreed) : Bool × Agreed := oackLoop p.tr.u (p.len - 10).toNat ((p.len - 10).toNat + 1) 0 a

theorem pass_stops (h : ¬ c.Fills) : pass net abort c = .done true c := by
  unfold pass
  exact if_neg h

theorem pass_packet (h : c.Fills) (hreply : awaitReply net c = .packet p) : pass net abort c = onPacket net abort p c.waited := by
  unfold pass
  rw [if_pos (show ¬ c.bufEof ∧ c.bufRead + c.packetsize ≤ fsysBuflen from h), hreply]

theorem opcodes_ne :
    tftpRrq ≠ tftpAck ∧ tftpRrq ≠ tftpError ∧ tftpAck ≠ tftpError ∧ tftpData ≠ tftpError ∧ tftpData ≠ tftpOack ∧ tftpOack ≠ tftpError := by
  decide

/-- The last block is acknowledged again. -/
theorem ackBlock_stale (hstale : c.block = c.prevblock) : ackBlock net abort p c =
    if abort then .done true (udpTransmit net p.src tftpMinPacket { c with tp := ⟨tftpError, c.tp.u⟩, oport := p.src, bufEof := true }).2
    else .next () (udpTransmit net p.src tftpMinPacket { c with tp := ⟨tftpAck, c.tp.u⟩, oport := p.src }).2 := by
  unfold ackBlock sendAck takeBlock udpTransmit
  cases hsent : net.transmits c.sent <;> cases abort <;> simp [hstale, Client.port]

theorem sub_header (m : Nat) (k : Nat) : (BitVec.ofNat 16 (k + m) - BitVec.ofNat 16 k : Short) = .ofNat 16 m := by
  rw [BitVec.ofNat_add, BitVec.add_comm, BitVec.add_sub_cancel]

theorem short_toNat {m : Nat} (hm : m ≤ tftpMaxPacket) : (BitVec.ofNat 16 m).toNat = m := by
  rw [BitVec.toNat_ofNat]
  exact Nat.mod_eq_of_lt (Nat.lt_of_le_of_lt hm (by decide))

/-- What a pass of the counting loop comes to. -/
theorem countPass_cases {flow : Flow Unit Client Bool} (h : countPass net fuel () c = some flow) :
    ∃ ok d, bufFill net false fuel { c with filemax := c.filemax + c.bufRead, bufRead := 0 } = some (ok, d) ∧
      (flow = .done false { d with errnum := .read } ∨ flow = .next () d ∨
        d.bufEof = true ∧ flow = .done true { d with filemax := d.filemax + d.bufRead }) := by
  unfold countPass at h
  split at h
  next => cases h
  next d hfill =>
    cases h
    exact ⟨_, d, hfill, .inl rfl⟩
  next d hfill =>
    split at h
    next hend =>
      cases h
      exact ⟨_, d, hfill, .inr (.inr ⟨hend, rfl⟩)⟩
    next =>
      cases h
      exact ⟨_, d, hfill, .inr (.inl rfl)⟩

/-- The packet acknowledges blocks of `size` bytes, and nothing else. -/
structure Packet.Acknowledges (p : Packet) (size : Nat) : Prop where
  opcode : p.tr.opcode = tftpOack
  len : p.len = .ofNat 16 (10 + (Grant.blksize.text size 0).length)
  text : slice p.tr.u 0 (Grant.blksize.text size 0).length = Grant.blksize.text size 0

theorem decimal_length (n : Nat) : (decimal n).length ≤ 32 := by
  have hwritten (fuel n : Nat) : (Numeral.written 10 fuel n).length ≤ fuel := by
    induction fuel generalizing n with
    | zero => exact Nat.le_refl 0
    | succ fuel ih =>
      rw [Numeral.written, List.length_cons]
      split
      · exact Nat.succ_le_succ (Nat.zero_le _)
      · exact Nat.succ_le_succ (ih _)
  rw [decimal, List.length_map, List.length_reverse]
  exact hwritten 32 n

/-- It is accepted, whatever its size. -/
theorem Packet.Acknowledges.options (h : p.Acknowledges size) (hsize : size < 2 ^ 31) (hlarge : 512 ≤ size) (a : Agreed) :
    (p.len - 10).toNat ≤ tftpMaxPacket ∧ p.options a = (true, { a with packetsize := size }) := by
  have htext : (Grant.blksize.text size 0).length ≤ 41 := by
    have hdecimal := decimal_length size
    have hname : Grant.blksize.name.length = 7 := rfl
    simp only [Grant.text, Grant.value, List.length_append, List.length_singleton, hname]
    omega
  have hlen : (p.len - 10).toNat = (Grant.blksize.text size 0).length := by
    rw [h.len, show (10 : Short) = .ofNat 16 10 from rfl, sub_header, short_toNat (Nat.le_trans htext (by decide))]
  have hpos : 0 < (Grant.blksize.text size 0).length := Grant.text_pos _
  refine ⟨hlen ▸ Nat.le_trans htext (by decide), ?_⟩
  have hone :=
    oackOption_text (a := a) hsize (Nat.two_pow_pos 31) .blksize h.text (by rw [Nat.zero_add]; exact Nat.le_trans htext (by decide))
  rw [if_neg (by omega), Nat.zero_add] at hone
  have hlast := Grant.text_last .blksize h.text
  rw [Nat.zero_add] at hlast
  unfold Packet.options
  rw [hlen, oackLoop_next (Grant.text_first .blksize h.text) hpos hone hlast (Nat.sub_lt hpos Nat.one_pos), Nat.sub_add_cancel hpos]
  obtain ⟨fuel, hfuel⟩ := Nat.exists_eq_add_of_le' hpos
  rw [hfuel, oackLoop, if_neg fun hgo => Nat.lt_irrefl _ hgo.2, decide_eq_true (Nat.le_refl _)]
  rfl

theorem not_fills_of_large (h : (fsysBuflen : Int) < c.packetsize) : ¬ c.Fills := by
  intro hfills
  have hroom := hfills.2
  omega

/-- The pass that takes such an acknowledgement. -/
theorem pass_acknowledged (hfills : c.Fills) (hreply : awaitReply net c = .packet p) (hp : p.Acknowledges size) (hsize : size < 2 ^ 31)
    (hlarge : 512 ≤ size)
    (hprev : c.prevblock = 0) :
    ∃ d, pass net false c = .next () d ∧ d.bufEof = c.bufEof ∧ d.packetsize = size ∧ d.filemax = c.filemax := by
  obtain ⟨hshort, hoptions⟩ := hp.options hsize hlarge ⟨c.packetsize, c.filemax⟩
  have hacknowledge (d : Client) (hb : d.block = 0) (hp : d.prevblock = 0) :
      ∃ e, acknowledge net false p d = .next () e ∧ e.bufEof = d.bufEof ∧ e.packetsize = d.packetsize ∧ e.filemax = d.filemax := by
    have horder :
        (blockOrder d).block = (blockOrder d).prevblock ∧ (blockOrder d).bufEof = d.bufEof ∧ (blockOrder d).packetsize = d.packetsize ∧
        (blockOrder d).filemax = d.filemax := by
      unfold blockOrder
      split
      · exact ⟨rfl, rfl, rfl, rfl⟩
      · exact ⟨hb.trans hp.symm, rfl, rfl, rfl⟩
    obtain ⟨hsame, hend, hps, hfm⟩ := horder
    unfold acknowledge
    rw [ackBlock_stale hsame, if_neg Bool.false_ne_true]
    refine ⟨_, rfl, ?_⟩
    unfold udpTransmit
    split <;> exact ⟨hend, hps, hfm⟩
  rw [pass_packet hfills hreply]
  unfold onPacket onOack
  rw [if_neg fun herror => opcodes_ne.2.2.2.2.2 (hp.opcode.symm.trans herror), if_pos hp.opcode,
    if_neg (not_not.2 (show c.waited.prevblock = 0 from hprev))]
  dsimp only
  rw [if_neg (Nat.not_lt.2 hshort)]
  have hwaited : p.options ⟨c.waited.packetsize, c.waited.filemax⟩ = _ := hoptions
  unfold Packet.options at hwaited
  rw [hwaited]
  exact hacknowledge _ rfl hprev

/-- The counting loop comes round without waiting. -/
theorem countLoop_hangs (hend : c.bufEof = false) (hlarge : (fsysBuflen : Int) < c.packetsize) (fuel : Nat) :
    Loop.run (countPass net) fuel () c = none := by
  refine Loop.run_endless (P := fun (_ : Unit) (c : Client) => c.bufEof = false ∧ (fsysBuflen : Int) < c.packetsize) ?_ ⟨hend, hlarge⟩ fuel
  intro fuel u g hg flow hpass
  obtain ⟨hend, hlarge⟩ := hg
  obtain ⟨ok, d, hfill, hflow⟩ := countPass_cases hpass
  have hfull : ¬ ({ g with filemax := g.filemax + g.bufRead, bufRead := 0 } : Client).Fills := not_fills_of_large hlarge
  have hsame : ok = true ∧ d = { g with filemax := g.filemax + g.bufRead, bufRead := 0 } := by
    unfold bufFill at hfill
    cases fuel with
    | zero => cases hfill
    | succ fuel =>
      rw [Loop.run, pass_stops hfull] at hfill
      cases hfill
      exact ⟨rfl, rfl⟩
  obtain ⟨rfl, rfl⟩ := hsame
  unfold countPass at hpass
  rw [hfill] at hpass
  dsimp only at hpass
  rw [if_neg (show ¬ g.bufEof = true by rw [hend]; exact Bool.false_ne_true)] at hpass
  exact ⟨(), _, (Option.some.inj hpass).symm, hend, hlarge⟩

/-- **`tftp_dir` hangs** when the answer to its request acknowledges blocks that are larger than the buffer, and does not tell
the size of the file: what the network does afterwards makes no difference. -/
theorem tftpDir_hangs (hsent : net.transmits c.sent = true) (hsize : size < 2 ^ 31) (hlarge : fsysBuflen < size)
    (hreply : net.reply (sendRrq net (makeRrq (nulTerminate dirname) c)).2.sent c.waits (.ofNat 16 (c.iport + 1)) = .packet p)
    (hp : p.Acknowledges size) (fuel : Nat) : tftpDir net fuel dirname c = none := by
  unfold tftpDir
  generalize hname : nulTerminate dirname = name
  rw [hname] at hreply
  cases fuel with
  | zero => rfl
  | succ fuel =>
    let c₀ : Client := { c with filemax := -1 }
    have hsend : sendRrq net (makeRrq name c₀) = (true, (sendRrq net (makeRrq name c₀)).2) := by
      unfold sendRrq udpTransmit
      rw [if_pos (show net.transmits (makeRrq name c₀).sent = true from hsent)]
    have hstart : (sendRrq net (makeRrq name c₀)).2.Fills ∧ (sendRrq net (makeRrq name c₀)).2.prevblock = 0 ∧
        (sendRrq net (makeRrq name c₀)).2.filemax = -1 ∧ (sendRrq net (makeRrq name c₀)).2.bufEof = false ∧
        awaitReply net (sendRrq net (makeRrq name c₀)).2 = .packet p := by
      have hroom : ¬ (false : Bool) = true ∧ ((0 : Nat) : Int) + tftpDefaultsizePacket ≤ fsysBuflen := by decide
      unfold sendRrq udpTransmit at hreply ⊢
      rw [if_pos (show net.transmits (makeRrq name c).sent = true from hsent)] at hreply
      rw [if_pos (show net.transmits (makeRrq name c₀).sent = true from hsent)]
      exact ⟨hroom, rfl, rfl, rfl, hreply⟩
    obtain ⟨hfills, hprev, hunknown, hopen, hawait⟩ := hstart
    generalize (sendRrq net (makeRrq name c₀)).2 = d at hsend hfills hprev hunknown hopen hawait
    -- the first pass takes the acknowledgement, and no other pass follows
    obtain ⟨e, hpass, hend, hgranted, hstill⟩ :=
      pass_acknowledged hfills hawait hp hsize (Nat.le_of_lt (Nat.lt_trans (by decide) hlarge)) hprev
    have hfull : ¬ e.Fills := by
      apply not_fills_of_large
      rw [hgranted]
      exact Int.ofNat_lt.2 hlarge
    have hopened : openPass net name fuel () c₀ = none := by
      unfold openPass
      rw [hsend]
      dsimp only
      have hfill : bufFill net false fuel d = none ∨ bufFill net false fuel d = some (true, e) := by
        have hstops (fuel : Nat) : Loop.run (fun _ _ c => some (pass net false c)) (fuel + 1) () e = some (true, e) := by
          rw [Loop.run, pass_stops hfull]
        unfold bufFill
        cases fuel with
        | zero => exact .inl rfl
        | succ fuel =>
          rw [Loop.run, hpass]
          cases fuel with
          | zero => exact .inl rfl
          | succ fuel => exact .inr (hstops fuel)
      obtain hnone | hfilled := hfill
      · rw [hnone]
      · rw [hfilled]
        dsimp only
        rw [if_pos (hstill.trans hunknown), countLoop_hangs]
        · exact hend.trans hopen
        · show (fsysBuflen : Int) < e.packetsize
          rw [hgranted]
          exact Int.ofNat_lt.2 hlarge
    show Loop.run (openPass net name) (fuel + 1) () c₀ = none
    rw [Loop.run, hopened]

/-- Blocks of 40000 bytes are acknowledged. -/
def largeBlocks : Packet :=
  ⟨69, .ofNat 16 (10 + (Grant.blksize.text 40000 0).length), ⟨tftpOack, Memory.store (fun _ => 0) 0 (Grant.blksize.text 40000 0)⟩⟩

def largeNetwork : Network := ⟨fun _ _ _ => .packet largeBlocks, fun _ => true⟩

theorem tftpDir_hangs_large : tftpDir largeNetwork 1000 [0x61] (.initial fun _ => 0) = none :=
  tftpDir_hangs rfl (by decide) (by decide) rfl ⟨rfl, rfl, Memory.slice_store _ 0 rfl⟩ 1000

end TrustedGrub.Netboot
