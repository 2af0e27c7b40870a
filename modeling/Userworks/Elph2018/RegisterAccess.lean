import Userworks.Elph2018.UDPRBCP
import Userworks.Lib.Registers

/-!
Registers of a board, read and written over UDP. The board is not part of the program. It
is a server of packets that does what the header of a packet says: it writes the data of a
write at consecutive addresses, answers a read with the registers that it names, and
acknowledges nothing that it has not done. Its registers change in no other way.

Packets that come late or twice are told from new ones neither by the board nor by the
program, and so the program can know of a register no more than `Registers` keeps.
-/
namespace Userworks.RegisterAccess

open Datagrams

abbrev Memory := BitVec 32 → UInt8

/-- The board and its packets. -/
abbrev Board := Memory → Bytes → Memory × Option Bytes

/-- The address in a packet. -/
def addressOf (packet : Bytes) : BitVec 32 := htonl (field 4 4 packet)

/-- The byte that a packet writes at an address. -/
def written (packet : Bytes) (a : BitVec 32) : Option UInt8 :=
  if packet.getD 1 0 = 0x80 ∧ (a - addressOf packet).toNat < (packet.getD 3 0).toNat then
    (packet.drop RbcpHeader.size)[(a - addressOf packet).toNat]?
  else none

/-- The registers after a packet. -/
def afterWrite (packet : Bytes) (memory : Memory) : Memory :=
  fun a => (written packet a).getD (memory a)

/-- The registers that a packet names. -/
def asked (packet : Bytes) (memory : Memory) : Bytes :=
  (List.range (packet.getD 3 0).toNat).map fun i => memory (addressOf packet + BitVec.ofNat 32 i)

def Acknowledges (reply : Bytes) : Prop :=
  RbcpHeader.size ≤ reply.length ∧ 0x0f &&& reply.getD 1 0 = 0x8

/-- What the program relies on. -/
structure Sitcp (serve : Board) : Prop where
  writes : ∀ memory packet, (serve memory packet).1 = memory ∨
    (serve memory packet).1 = afterWrite packet memory
  acknowledges : ∀ memory packet reply, (serve memory packet).2 = some reply →
    Acknowledges reply → (serve memory packet).1 = afterWrite packet memory
  reads : ∀ memory packet reply, (serve memory packet).2 = some reply → Acknowledges reply →
    packet.getD 1 0 = 0xC0 → reply.drop RbcpHeader.size = asked packet memory
  fits : ∀ memory packet reply, (serve memory packet).2 = some reply →
    reply.length < UDPRBCP.udp_buf_size_

theorem htonl_htonl (x : BitVec 32) : htonl (htonl x) = x := by
  have hput : put 4 (htonl x) = (put 4 x).reverse := by
    have h := put_field 4 0 (put 4 x).reverse (by simp)
    rw [List.drop_zero, List.take_of_length_le (by simp)] at h
    exact h
  rw [htonl, hput, List.reverse_reverse]
  simpa using field_put 4 0 x [] [] rfl

section Packets

theorem bytes_eq (h : RbcpHeader) : h.bytes =
    UInt8.ofNat h.type.toNat :: UInt8.ofNat h.command.toNat :: UInt8.ofNat h.id.toNat ::
      UInt8.ofNat h.length.toNat :: put 4 h.address :=
  rfl

theorem length_bytes (h : RbcpHeader) : h.bytes.length = RbcpHeader.size := rfl

theorem addressOf_bytes (h : RbcpHeader) (rest : Bytes) :
    addressOf (h.bytes ++ rest) = htonl h.address := by
  have haddress := field_put 4 4 h.address (put 1 h.type ++ (put 1 h.command ++
    (put 1 h.id ++ put 1 h.length))) rest rfl
  simp only [List.append_assoc] at haddress
  rw [addressOf, RbcpHeader.bytes]
  simp only [List.append_assoc]
  rw [haddress]

/-- The program is set to write a byte. -/
structure WriteRequest (u : UDPRBCP) (a : BitVec 32) (b : UInt8) : Prop where
  command : u.sendHeader_.command = UDPRBCP.rbcp_cmd_wr_
  length : u.sendHeader_.length = 1
  address : u.sendHeader_.address = htonl a
  data : u.wd_buffer_ = [b]

/-- The program is set to read a byte. -/
structure ReadRequest (u : UDPRBCP) (a : BitVec 32) : Prop where
  command : u.sendHeader_.command = UDPRBCP.rbcp_cmd_rd_
  length : u.sendHeader_.length = 1
  address : u.sendHeader_.address = htonl a

theorem writeRequest_setWD (u : UDPRBCP) (a : BitVec 32) (b : UInt8) :
    WriteRequest (u.setWD a 1 [b]) a b :=
  ⟨rfl, rfl, rfl, rfl⟩

theorem readRequest_setRD (u : UDPRBCP) (a : BitVec 32) : ReadRequest (u.setRD a 1) a :=
  ⟨rfl, rfl, rfl⟩

variable {u : UDPRBCP} {a : BitVec 32} {b : UInt8}

/-- Repeating a request changes its number only. -/
theorem WriteRequest.nextId (h : WriteRequest u a b) : WriteRequest u.nextId a b :=
  ⟨h.command, h.length, h.address, h.data⟩

theorem ReadRequest.nextId (h : ReadRequest u a) : ReadRequest u.nextId a :=
  ⟨h.command, h.length, h.address⟩

theorem WriteRequest.written (h : WriteRequest u a b) (a' : BitVec 32) :
    written u.sndBuf a' = if a' = a then some b else none := by
  have hbuf : u.sndBuf = u.sendHeader_.bytes ++ [b] := by
    rw [UDPRBCP.sndBuf, if_pos h.command, h.length, h.data]
    rfl
  have haddress : addressOf u.sndBuf = a := by
    rw [hbuf, addressOf_bytes, h.address, htonl_htonl]
  have hcommand : u.sndBuf.getD 1 0 = 0x80 := by
    rw [hbuf, bytes_eq, h.command]
    rfl
  have hlength : u.sndBuf.getD 3 0 = 1 := by
    rw [hbuf, bytes_eq, h.length]
    rfl
  have hdata : u.sndBuf.drop RbcpHeader.size = [b] := by
    rw [hbuf, ← length_bytes u.sendHeader_, List.drop_left]
  rw [RegisterAccess.written, haddress, hcommand, hlength, hdata]
  by_cases ha : a' = a
  · subst ha
    simp
  · have hfar : ¬(a' - a).toNat < 1 := by
      intro hlt
      apply ha
      have hzero : a' - a = 0#32 := BitVec.eq_of_toNat_eq (by simpa using hlt)
      simpa [BitVec.sub_eq_iff_eq_add] using hzero
    rw [if_neg (fun hlt => hfar hlt.2), if_neg ha]

theorem ReadRequest.sndBuf_eq (h : ReadRequest u a) : u.sndBuf = u.sendHeader_.bytes := by
  rw [UDPRBCP.sndBuf, if_neg (by rw [h.command]; decide), List.append_nil]

theorem ReadRequest.isRead (h : ReadRequest u a) : u.sndBuf.getD 1 0 = 0xC0 := by
  rw [h.sndBuf_eq, bytes_eq, h.command]
  rfl

theorem ReadRequest.written (h : ReadRequest u a) (a' : BitVec 32) : written u.sndBuf a' = none :=
  if_neg fun hwrite => absurd (h.isRead.symm.trans hwrite.1) (by decide)

theorem ReadRequest.asked (h : ReadRequest u a) (memory : Memory) :
    asked u.sndBuf memory = [memory a] := by
  have haddress : addressOf u.sndBuf = a := by
    have hbytes := addressOf_bytes u.sendHeader_ []
    rw [List.append_nil] at hbytes
    rw [h.sndBuf_eq, hbytes, h.address, htonl_htonl]
  have hlength : u.sndBuf.getD 3 0 = 1 := by
    rw [h.sndBuf_eq, bytes_eq, h.length]
    rfl
  rw [RegisterAccess.asked, haddress, hlength]
  simp

end Packets

/-- What is known of the registers covers what they hold and what is on the way to them. -/
def Known (regs : Registers (BitVec 32) UInt8) (n : Network Memory Bytes Bytes) : Prop :=
  Idle (fun memory => ∀ a, memory a ∈ regs.now a)
    (fun packet => ∀ a b, written packet a = some b → b ∈ regs.late a) n

section Calls

variable {serve : Board} {regs : Registers (BitVec 32) UInt8}

/-- After a packet every register holds what it held or what the packet writes. -/
theorem Sitcp.cases (h : Sitcp serve) (memory : Memory) (packet : Bytes) (a : BitVec 32) :
    (serve memory packet).1 a = memory a ∨ written packet a = some ((serve memory packet).1 a) := by
  obtain heq | heq := h.writes memory packet
  · exact .inl (congrFun heq a)
  · rw [heq, afterWrite]
    cases hw : written packet a with
    | none => exact .inl rfl
    | some b => exact .inr rfl

/-- Late packets keep to what is known. -/
theorem Sitcp.keeps (h : Sitcp serve) {memory : Memory} {packet : Bytes}
    (hmemory : ∀ a, memory a ∈ regs.now a)
    (hpacket : ∀ a b, written packet a = some b → b ∈ regs.late a) (a : BitVec 32) :
    (serve memory packet).1 a ∈ regs.now a := by
  obtain heq | hwritten := h.cases memory packet a
  · rw [heq]
    exact hmemory a
  · exact regs.late_subset a (hpacket a _ hwritten)

/-- Once a byte is known to be written, only later packets can change it. -/
theorem Sitcp.keeps_late (h : Sitcp serve) {memory : Memory} {packet : Bytes} {a : BitVec 32}
    (hmemory : memory a ∈ regs.late a)
    (hpacket : ∀ a b, written packet a = some b → b ∈ regs.late a) :
    (serve memory packet).1 a ∈ regs.late a := by
  obtain heq | hwritten := h.cases memory packet a
  · rw [heq]
    exact hmemory
  · exact hpacket a _ hwritten

/-- A call that has not failed has an acknowledgement, which says `A` of the board. -/
def Answered (I : Memory → Prop) (R : Bytes → Prop) (A : Bytes → Memory → Prop) (u : UDPRBCP)
    (r : Int × UDPRBCP) (n : Network Memory Bytes Bytes) : Prop :=
  Idle I R n ∧ (0 ≤ r.1 → ∃ reply, Acknowledges reply ∧ A reply n.server ∧
    (u.sendHeader_.command = UDPRBCP.rbcp_cmd_rd_ → r.2.rd_buffer_ = reply.drop RbcpHeader.size))

section DoRBCP

variable {I : Memory → Prop} {R mine : Bytes → Prop} {A : Bytes → Memory → Prop} {sock : Nat}

theorem answered_of_neg {u : UDPRBCP} {r : Int × UDPRBCP} {n : Network Memory Bytes Bytes}
    (hidle : Idle I R n) (hneg : r.1 < 0) : Answered I R A u r n :=
  ⟨hidle, fun hok => absurd hok (Int.not_le.mpr hneg)⟩

theorem received_spec (hcall : Call serve I R mine A) {reply : Bytes}
    (hfits : reply.length < UDPRBCP.udp_buf_size_) (u : UDPRBCP) :
    Triple serve (fun n => Waiting I R mine A sock n ∧ A reply n.server) (u.received reply)
      (Answered I R A u) := by
  have hstable := hcall.stable_answer sock reply
  rw [UDPRBCP.received]
  split
  · exact triple_done hstable fun n hn => answered_of_neg hn.1.idle (Int.negSucc_lt_zero 0)
  · split
    · exact triple_done hstable fun n hn => answered_of_neg hn.1.idle (Int.negSucc_lt_zero 0)
    · rename_i hlong hack
      have hacknowledges : Acknowledges reply := ⟨Nat.le_of_not_lt hlong, not_not.mp hack⟩
      rw [if_neg (Nat.not_le_of_lt hfits)]
      split
      · exact triple_done hstable fun n hn =>
          ⟨hn.1.idle, fun _ => ⟨reply, hacknowledges, hn.2, fun _ => rfl⟩⟩
      · rename_i hwrite
        exact triple_done hstable fun n hn =>
          ⟨hn.1.idle, fun _ => ⟨reply, hacknowledges, hn.2, fun hread => absurd hread hwrite⟩⟩

/-- What the requests of a program do and what it may rely on do not depend on how often
they are sent. -/
structure Repeatable (R mine : Bytes → Prop) (W : UDPRBCP → Prop) : Prop where
  nextId : ∀ u, W u → W u.nextId
  request : ∀ u, W u → R u.sndBuf ∧ mine u.sndBuf

variable {W : UDPRBCP → Prop}

theorem reTrans_spec (hcall : Call serve I R mine A) (hrepeat : Repeatable R mine W)
    (hfits : ∀ reply memory, A reply memory → reply.length < UDPRBCP.udp_buf_size_) (rounds : Nat)
    (u : UDPRBCP) (hu : W u) :
    Triple serve (Waiting I R mine A sock) (UDPRBCP.reTrans sock rounds u)
      (Answered I R A u) := by
  induction rounds generalizing u with
  | zero =>
      exact triple_done (hcall.stable sock) fun n hn =>
        answered_of_neg hn.idle (Int.negSucc_lt_zero 2)
  | succ rounds ih =>
      have hnext := hrepeat.nextId u hu
      obtain ⟨hR, hmine⟩ := hrepeat.request u.nextId hnext
      apply triple_wait (fun reply n => Waiting I R mine A sock n ∧ A reply n.server)
        (hcall.stable sock)
      · exact triple_send (hcall.stable sock) (fun n hn => hn.send hR hmine) (ih u.nextId hnext)
      · exact fun n reply hn hreply => ⟨hn, hn.answer hreply⟩
      · intro reply
        apply triple_of_fact fun n hn => hfits reply n.server hn.2
        intro hlength
        show Triple serve _ (u.received (reply.take UDPRBCP.udp_buf_size_)) _
        rw [List.take_of_length_le (Nat.le_of_lt hlength)]
        exact received_spec hcall hlength u

theorem doRBCP_spec (hcall : Call serve I R mine A) (hrepeat : Repeatable R mine W)
    (hfits : ∀ reply memory, A reply memory → reply.length < UDPRBCP.udp_buf_size_)
    (u : UDPRBCP) (hu : W u) :
    Triple serve (Idle I R) u.doRBCP (Answered I R A u) := by
  obtain ⟨hR, hmine⟩ := hrepeat.request u hu
  apply triple_socket (Waiting I R mine A) (Idle.stable hcall.keeps)
  · exact fun n port hn hfree => hn.waiting hfree
  · intro sock
    exact triple_send (hcall.stable sock) (fun n hn => hn.send hR hmine)
      (reTrans_spec hcall hrepeat hfits 3 u hu)

end DoRBCP

variable {a : BitVec 32} {b : UInt8}

theorem call_write (h : Sitcp serve) (regs : Registers (BitVec 32) UInt8) (a : BitVec 32)
    (b : UInt8) :
    Call serve (fun memory => ∀ a', memory a' ∈ (regs.write a b false).now a')
      (fun packet => ∀ a' b', written packet a' = some b' → b' ∈ (regs.write a b false).late a')
      (fun packet => ∀ a', written packet a' = if a' = a then some b else none)
      (fun reply memory => reply.length < UDPRBCP.udp_buf_size_ ∧
        (Acknowledges reply → memory a ∈ (regs.write a b false).late a)) where
  keeps := fun _ _ hmemory hpacket => h.keeps hmemory hpacket
  stays := fun _ _ _ _ hpacket hA => ⟨hA.1, fun hack => h.keeps_late (hA.2 hack) hpacket⟩
  answers := by
    intro memory packet reply _ hmine hreply
    refine ⟨h.fits memory packet reply hreply, ?_⟩
    intro hack
    rw [h.acknowledges memory packet reply hreply hack, afterWrite, hmine a, if_pos rfl]
    rw [Registers.late_write_self]
    exact Set.mem_insert b _

theorem call_read (h : Sitcp serve) (regs : Registers (BitVec 32) UInt8) (a : BitVec 32) :
    Call serve (fun memory => ∀ a', memory a' ∈ regs.now a')
      (fun packet => ∀ a' b', written packet a' = some b' → b' ∈ regs.late a')
      (fun packet => packet.getD 1 0 = 0xC0 ∧ ∀ memory, asked packet memory = [memory a])
      (fun reply _ => reply.length < UDPRBCP.udp_buf_size_ ∧
        (Acknowledges reply → ∃ v ∈ regs.now a, reply.drop RbcpHeader.size = [v])) where
  keeps := fun _ _ hmemory hpacket => h.keeps hmemory hpacket
  stays := fun _ _ _ _ _ hA => hA
  answers := by
    intro memory packet reply hmemory hmine hreply
    refine ⟨h.fits memory packet reply hreply, ?_⟩
    intro hack
    refine ⟨memory a, hmemory a, ?_⟩
    rw [h.reads memory packet reply hreply hack hmine.1, hmine.2]

/-- While a write is sent, the register may still hold what it held. -/
theorem Known.write {n : Network Memory Bytes Bytes} (hn : Known regs n) (a : BitVec 32)
    (b : UInt8) : Known (regs.write a b false) n := by
  refine ⟨fun a' => regs.now_subset_write a a' b (hn.server a'), ?_⟩
  intro x hx a' b' hwritten
  exact regs.late_subset_write a a' b (hn.requests x hx a' b' hwritten)

/-- A write that has been acknowledged is done. -/
theorem Known.acknowledged {n : Network Memory Bytes Bytes} (hn : Known (regs.write a b false) n)
    (hdone : n.server a ∈ (regs.write a b false).late a) : Known (regs.write a b true) n := by
  refine ⟨?_, hn.requests⟩
  intro a'
  by_cases ha : a' = a
  · subst ha
    rw [Registers.late_write_self] at hdone
    rw [Registers.now_write_self, if_pos rfl]
    exact hdone
  · have hserver := hn.server a'
    rw [Registers.now_write_of_ne regs ha] at hserver ⊢
    exact hserver

/-- One byte is written: the return value says whether it has been acknowledged. -/
theorem doRBCP_write (h : Sitcp serve) {u : UDPRBCP} (hu : WriteRequest u a b) :
    Triple serve (Known regs) u.doRBCP
      (fun r n => Known (regs.write a b (decide (0 ≤ r.1))) n) := by
  have hrepeat : Repeatable
      (fun packet => ∀ a' b', written packet a' = some b' → b' ∈ (regs.write a b false).late a')
      (fun packet => ∀ a', written packet a' = if a' = a then some b else none)
      (fun u => WriteRequest u a b) := by
    refine ⟨fun u hu => hu.nextId, fun u hu => ⟨?_, hu.written⟩⟩
    intro a' b' hwritten
    rw [hu.written] at hwritten
    split at hwritten
    · rename_i ha
      cases hwritten
      rw [ha, Registers.late_write_self]
      exact Set.mem_insert b _
    · cases hwritten
  apply (doRBCP_spec (call_write h regs a b) hrepeat (fun _ _ hA => hA.1) u hu).weaken
  · exact fun n hn => hn.write a b
  · rintro r n ⟨hidle, hanswer⟩
    by_cases hok : 0 ≤ r.1
    · rw [decide_eq_true hok]
      obtain ⟨reply, hack, hA, _⟩ := hanswer hok
      exact Known.acknowledged hidle (hA.2 hack)
    · rw [decide_eq_false hok]
      exact hidle

/-- One byte is read: it is one that the register may hold. -/
theorem doRBCP_read (h : Sitcp serve) {u : UDPRBCP} (hu : ReadRequest u a) :
    Triple serve (Known regs) u.doRBCP
      (fun r n => Known regs n ∧ (0 ≤ r.1 → ∃ v ∈ regs.now a, r.2.rd_buffer_ = [v])) := by
  have hrepeat : Repeatable
      (fun packet => ∀ a' b', written packet a' = some b' → b' ∈ regs.late a')
      (fun packet => packet.getD 1 0 = 0xC0 ∧ ∀ memory, asked packet memory = [memory a])
      (fun u => ReadRequest u a) := by
    refine ⟨fun u hu => hu.nextId, fun u hu => ⟨?_, hu.isRead, hu.asked⟩⟩
    intro a' b' hwritten
    rw [hu.written] at hwritten
    cases hwritten
  apply (doRBCP_spec (call_read h regs a) hrepeat (fun _ _ hA => hA.1) u hu).weaken
  · exact fun n hn => hn
  · rintro r n ⟨hidle, hanswer⟩
    refine ⟨hidle, fun hok => ?_⟩
    obtain ⟨reply, hack, hA, hread⟩ := hanswer hok
    obtain ⟨v, hv, hdrop⟩ := hA.2 hack
    exact ⟨v, hv, (hread hu.command).trans hdrop⟩

theorem known_stable (h : Sitcp serve) : Stable serve (Known regs) :=
  Idle.stable fun _ _ hmemory hpacket => h.keeps hmemory hpacket

end Calls

section Modules

open FPGAModule

variable {serve : Board} {regs : Registers (BitVec 32) UInt8}

/-- The registers after some rounds of a write, by whether each was acknowledged. -/
def wroteBytes (register_address write_data : BitVec 32) :
    Registers (BitVec 32) UInt8 → List Bool → Nat → Registers (BitVec 32) UInt8
  | regs, [], _ => regs
  | regs, acknowledged :: rest, i =>
      wroteBytes register_address write_data
        (regs.write (register_address + BitVec.ofNat 32 i) (udp_wd write_data i) acknowledged) rest
        (i + 1)

/-- A write stops at the first round that fails. -/
inductive Rounds (rounds : Nat) (status : Int) : List Bool → Prop
  | all (h : 0 ≤ status) : Rounds rounds status (List.replicate rounds true)
  | failed {j : Nat} (h : status < 0) (hj : j < rounds) :
      Rounds rounds status (List.replicate j true ++ [false])

theorem Rounds.succ {rounds : Nat} {status : Int} {acks : List Bool}
    (h : Rounds rounds status acks) : Rounds (rounds + 1) status (true :: acks) := by
  cases h with
  | all h => exact Rounds.all h
  | @failed j h hj => exact Rounds.failed (j := j + 1) h (Nat.succ_lt_succ hj)

theorem writeCycles_spec (h : Sitcp serve) (register_address write_data : BitVec 32)
    (rounds i : Nat) {status : Int} (hstatus : 0 ≤ status) (m : FPGAModule) :
    Triple serve (Known regs) (writeCycles register_address write_data rounds i status m)
      (fun r n => ∃ acks, Rounds rounds r.1 acks ∧
        Known (wroteBytes register_address write_data regs acks i) n) := by
  induction rounds generalizing i status m regs with
  | zero => exact triple_done (known_stable h) fun n hn => ⟨[], .all hstatus, hn⟩
  | succ rounds ih =>
      refine triple_bind (doRBCP_write h (writeRequest_setWD _ _ _)) ?_
      intro r
      by_cases hneg : r.1 < 0
      · simp only [hneg, if_true]
        refine triple_done (known_stable h) fun n hn => ⟨[false], ?_, ?_⟩
        · exact Rounds.failed (j := 0) hneg (Nat.succ_pos rounds)
        · rwa [decide_eq_false (Int.not_le.mpr hneg)] at hn
      · simp only [hneg, if_false]
        have hok : 0 ≤ r.1 := Int.not_lt.mp hneg
        rw [decide_eq_true hok]
        apply (ih (i + 1) hok _).weaken (fun n hn => hn)
        rintro r' n ⟨acks, hacks, hn⟩
        exact ⟨true :: acks, hacks.succ, hn⟩

/-- Bytes that registers from round `i` on may hold. -/
def MayHold (regs : Registers (BitVec 32) UInt8) (register_address : BitVec 32) : Nat → Bytes → Prop
  | _, [] => True
  | i, v :: vs => v ∈ regs.now (register_address + BitVec.ofNat 32 i) ∧
      MayHold regs register_address (i + 1) vs

/-- What a read that has not failed returns. -/
def IsRead (regs : Registers (BitVec 32) UInt8) (register_address : BitVec 32) (rounds : Nat)
    (value : BitVec 32) : Prop :=
  ∃ vs : Bytes, vs.length = rounds ∧ MayHold regs register_address 0 vs ∧
    value = BitVec.ofNat 32 (ofLE vs)

theorem add_byte (v : UInt8) (i n : Nat) :
    BitVec.ofNat 32 n + (BitVec.ofNat 32 v.toNat &&& data_mask) <<< (8 * i) =
      BitVec.ofNat 32 (n + 256 ^ i * v.toNat) := by
  have hv := v.toNat_lt
  have hsmall : v.toNat % 2 ^ 32 = v.toNat := Nat.mod_eq_of_lt (by omega)
  have hmask : BitVec.ofNat 32 v.toNat &&& data_mask = BitVec.ofNat 32 v.toNat := by
    apply BitVec.eq_of_toNat_eq
    rw [BitVec.toNat_and, BitVec.toNat_ofNat, hsmall, show data_mask.toNat = 2 ^ 8 - 1 from rfl,
      Nat.and_two_pow_sub_one_eq_mod, Nat.mod_eq_of_lt hv]
  have hshift : BitVec.ofNat 32 v.toNat <<< (8 * i) = BitVec.ofNat 32 (256 ^ i * v.toNat) := by
    apply BitVec.eq_of_toNat_eq
    rw [BitVec.toNat_shiftLeft, BitVec.toNat_ofNat, BitVec.toNat_ofNat, hsmall,
      Nat.shiftLeft_eq, Nat.pow_mul, Nat.mul_comm]
  rw [hmask, hshift, ← BitVec.ofNat_add]

theorem readCycles_spec (h : Sitcp serve) (register_address : BitVec 32) (rounds i n : Nat)
    (m : FPGAModule) :
    Triple serve (Known regs) (readCycles register_address rounds i (BitVec.ofNat 32 n) m)
      (fun r net => Known regs net ∧ (r.1 = 0xeeeeeeee ∨
        ∃ vs : Bytes, vs.length = rounds ∧ MayHold regs register_address i vs ∧
          r.1 = BitVec.ofNat 32 (n + 256 ^ i * ofLE vs))) := by
  induction rounds generalizing i n m with
  | zero =>
      refine triple_done (known_stable h) fun net hnet => ⟨hnet, .inr ⟨[], rfl, trivial, ?_⟩⟩
      rw [ofLE, Nat.mul_zero, Nat.add_zero]
  | succ rounds ih =>
      have hbyte := @doRBCP_read serve regs (register_address + BitVec.ofNat 32 i) h
        _ (readRequest_setRD { sendHeader_ := m.sendHeader_ } _)
      have hread : Triple serve (Known regs)
          (m.readModule_nByte (register_address + BitVec.ofNat 32 i) 1)
          (fun r net => Known regs net ∧ (r.1 > -1 →
            ∃ v ∈ regs.now (register_address + BitVec.ofNat 32 i), r.2.rd_data_ = [v])) := by
        refine triple_map hbyte ?_
        rintro r net ⟨hnet, hok⟩
        refine ⟨hnet, fun hpos => ?_⟩
        obtain ⟨v, hv, hbuffer⟩ := hok (by omega)
        exact ⟨v, hv, (if_pos hpos).trans hbuffer⟩
      refine triple_bind hread ?_
      intro r
      apply triple_of_fact (fun _ hnet => hnet.2)
      intro hfact
      by_cases hpos : r.1 > -1
      · simp only [hpos, if_true]
        obtain ⟨v, hv, hdata⟩ := hfact hpos
        rw [hdata]
        simp only [add_byte]
        apply (ih (i + 1) (n + 256 ^ i * v.toNat) r.2).weaken (fun net hnet => hnet.1)
        rintro r' net ⟨hnet, hbad | ⟨vs, hlength, hvs, hvalue⟩⟩
        · exact ⟨hnet, .inl hbad⟩
        · refine ⟨hnet, .inr ⟨v :: vs, congrArg (· + 1) hlength, ⟨hv, hvs⟩, ?_⟩⟩
          rw [hvalue, ofLE, Nat.pow_succ]
          congr 1
          ring
      · simp only [hpos, if_false]
        exact triple_done (fun net net' hnet hstep =>
          ⟨known_stable h net net' hnet.1 hstep, hnet.2⟩) fun net hnet => ⟨hnet.1, .inl rfl⟩

end Modules

end Userworks.RegisterAccess
