import Userworks.Elph2018.RegisterAccess

/-!
Sessions of register accesses. What the program sees in any run, whatever the network
does, is what registers behind late writes can show: `Trace`. A word that was written with
success is read back as long as nothing else is written to its registers.
-/
namespace Userworks.RegisterAccess

open Datagrams FPGAModule

/-- An access by the program. -/
inductive Access where
  | write (register_address write_data : BitVec 32) (nCycle : Int)
  | read (register_address : BitVec 32) (nCycle : Int)

/-- An access with its return value. -/
inductive Observed where
  | wrote (register_address write_data : BitVec 32) (nCycle : Int) (status : Int)
  | read (register_address : BitVec 32) (nCycle : Int) (value : BitVec 32)
  deriving DecidableEq

def Observed.access : Observed → Access
  | .wrote register_address write_data nCycle _ => .write register_address write_data nCycle
  | .read register_address nCycle _ => .read register_address nCycle

/-- Accesses one after the other. -/
def session : List Access → FPGAModule → Client (List Observed)
  | [], _ => pure []
  | .write register_address write_data nCycle :: rest, m => do
      let r ← m.writeModule register_address write_data nCycle
      let seen ← session rest r.2
      pure (.wrote register_address write_data nCycle r.1 :: seen)
  | .read register_address nCycle :: rest, m => do
      let r ← m.readModule register_address nCycle
      let seen ← session rest r.2
      pure (.read register_address nCycle r.1 :: seen)

/-- What an access shows of the registers before it, and what is known of them behind it. -/
inductive Shows : Registers (BitVec 32) UInt8 → Observed → Registers (BitVec 32) UInt8 → Prop
  | refused {regs : Registers (BitVec 32) UInt8} {a d : BitVec 32} {nCycle : Int}
      (h : nCycle > 4) : Shows regs (.wrote a d nCycle (-1)) regs
  | wrote {regs : Registers (BitVec 32) UInt8} {a d : BitVec 32} {nCycle status : Int}
      {acks : List Bool} (h : ¬nCycle > 4) (hrounds : Rounds nCycle.toNat status acks) :
      Shows regs (.wrote a d nCycle status) (wroteBytes a d regs acks 0)
  | notRead {regs : Registers (BitVec 32) UInt8} {a : BitVec 32} {nCycle : Int} :
      Shows regs (.read a nCycle 0xeeeeeeee) regs
  | read {regs : Registers (BitVec 32) UInt8} {a value : BitVec 32} {nCycle : Int}
      (h : ¬nCycle > 4) (hread : IsRead regs a nCycle.toNat value) :
      Shows regs (.read a nCycle value) regs

/-- What a session shows of the registers. -/
inductive Trace :
    Registers (BitVec 32) UInt8 → List Observed → Registers (BitVec 32) UInt8 → Prop
  | nil {regs : Registers (BitVec 32) UInt8} : Trace regs [] regs
  | cons {regs regs' regs'' : Registers (BitVec 32) UInt8} {o : Observed} {seen : List Observed}
      (h : Shows regs o regs') (hrest : Trace regs' seen regs'') : Trace regs (o :: seen) regs''

variable {serve : Board} {regs : Registers (BitVec 32) UInt8}

theorem writeModule_spec (h : Sitcp serve) (m : FPGAModule) (a d : BitVec 32) (nCycle : Int) :
    Triple serve (Known regs) (m.writeModule a d nCycle)
      (fun r n => ∃ regs', Shows regs (.wrote a d nCycle r.1) regs' ∧ Known regs' n) := by
  rw [writeModule]
  split
  · rename_i hmany
    exact triple_done (known_stable h) fun n hn => ⟨regs, .refused hmany, hn⟩
  · rename_i hfew
    apply (writeCycles_spec h a d nCycle.toNat 0 (Int.le_refl 0) m).weaken (fun n hn => hn)
    rintro r n ⟨acks, hacks, hn⟩
    exact ⟨_, .wrote hfew hacks, hn⟩

theorem readModule_spec (h : Sitcp serve) (m : FPGAModule) (a : BitVec 32) (nCycle : Int) :
    Triple serve (Known regs) (m.readModule a nCycle)
      (fun r n => Shows regs (.read a nCycle r.1) regs ∧ Known regs n) := by
  rw [readModule]
  split
  · exact triple_done (known_stable h) fun n hn => ⟨.notRead, hn⟩
  · rename_i hfew
    apply (readCycles_spec h a nCycle.toNat 0 0 m).weaken (fun n hn => hn)
    rintro r n ⟨hn, hbad | ⟨vs, hlength, hvs, hvalue⟩⟩
    · rw [hbad]
      exact ⟨.notRead, hn⟩
    · rw [Nat.pow_zero, Nat.one_mul, Nat.zero_add] at hvalue
      exact ⟨.read hfew ⟨vs, hlength, hvs, hvalue⟩, hn⟩

/-- The rest of a session behind an access. -/
theorem behind_access {rest : List Access} {m : FPGAModule} {o : Observed}
    (hrest : ∀ regs : Registers (BitVec 32) UInt8, Triple serve (Known regs) (session rest m)
      (fun seen n => seen.map Observed.access = rest ∧
        ∃ regs', Trace regs seen regs' ∧ Known regs' n)) :
    Triple serve (fun n => ∃ regs', Shows regs o regs' ∧ Known regs' n)
      (session rest m >>= fun seen => pure (o :: seen))
      (fun seen n => seen.map Observed.access = o.access :: rest ∧
        ∃ regs', Trace regs seen regs' ∧ Known regs' n) := by
  apply triple_exists
  intro regs'
  apply triple_of_fact (fun n hn => hn.1)
  intro hshows
  apply (triple_map (hrest regs') _).weaken (fun n hn => hn.2) (fun _ _ hn => hn)
  rintro seen n ⟨hmap, regs'', htrace, hn⟩
  exact ⟨congrArg (o.access :: ·) hmap, regs'', .cons hshows htrace, hn⟩

theorem session_spec (h : Sitcp serve) (accesses : List Access) (m : FPGAModule)
    (regs : Registers (BitVec 32) UInt8) :
    Triple serve (Known regs) (session accesses m)
      (fun seen n => seen.map Observed.access = accesses ∧
        ∃ regs', Trace regs seen regs' ∧ Known regs' n) := by
  induction accesses generalizing m regs with
  | nil => exact triple_done (known_stable h) fun n hn => ⟨rfl, regs, .nil, hn⟩
  | cons access rest ih =>
      cases access with
      | write a d nCycle =>
          refine triple_bind (writeModule_spec h m a d nCycle) ?_
          exact fun r => behind_access (ih r.2)
      | read a nCycle =>
          refine triple_bind (readModule_spec h m a nCycle) ?_
          intro r
          exact (behind_access (ih r.2)).weaken (fun n hn => ⟨regs, hn⟩) (fun _ _ hn => hn)

/-- A board that does and acknowledges everything. -/
def board : Board := fun memory packet =>
  let head := [0xff, packet.getD 1 0 ||| 0x08, packet.getD 2 0, packet.getD 3 0] ++
    put 4 (field 4 4 packet)
  if packet.getD 1 0 = 0x80 then (afterWrite packet memory, some head)
  else if packet.getD 1 0 = 0xC0 then (memory, some (head ++ asked packet memory))
  else (memory, none)

theorem written_of_not_write {packet : Bytes} (h : packet.getD 1 0 ≠ 0x80) (a : BitVec 32) :
    written packet a = none :=
  if_neg fun hwrite => h hwrite.1

theorem afterWrite_of_not_write {packet : Bytes} (h : packet.getD 1 0 ≠ 0x80) (memory : Memory) :
    afterWrite packet memory = memory := by
  funext a
  rw [afterWrite, written_of_not_write h, Option.getD_none]

theorem length_asked_le (packet : Bytes) (memory : Memory) :
    (asked packet memory).length ≤ 255 := by
  have hlength := (packet.getD 3 0).toNat_lt
  rw [asked, List.length_map, List.length_range]
  omega

theorem sitcp_board : Sitcp board where
  writes := by
    intro memory packet
    by_cases hwrite : packet.getD 1 0 = 0x80
    · exact .inr (by rw [board, if_pos hwrite])
    · rw [board, if_neg hwrite]
      split <;> exact .inl rfl
  acknowledges := by
    intro memory packet reply _ _
    by_cases hwrite : packet.getD 1 0 = 0x80
    · rw [board, if_pos hwrite]
    · rw [afterWrite_of_not_write hwrite, board, if_neg hwrite]
      split <;> rfl
  reads := by
    intro memory packet reply hreply _ hread
    rw [board, if_neg (by rw [hread]; decide), if_pos hread, Option.some.injEq] at hreply
    subst hreply
    rfl
  fits := by
    intro memory packet reply hreply
    have hasked := length_asked_le packet memory
    rw [board] at hreply
    split at hreply
    · cases hreply
      exact Nat.lt_of_le_of_lt (Nat.le_refl 8) (by decide)
    · split at hreply
      · cases hreply
        rw [List.length_append, UDPRBCP.udp_buf_size_]
        have hhead : ([0xff, packet.getD 1 0 ||| 0x08, packet.getD 2 0, packet.getD 3 0] ++
            put 4 (field 4 4 packet) : Bytes).length = 8 := rfl
        omega
      · cases hreply

/-- A word of two bytes is written to a board of zeros and read back. The first request is
lost for a while and repeated. -/
theorem runs_word_session : ∃ n', Runs board
    (session (.write 0x10 0x1234 2 :: ([] ++ [.read 0x10 2]))
      { sendHeader_ := { type := UDPRBCP.rbcp_ver_ } })
    { server := fun _ => 0 } (.ok [.wrote 0x10 0x1234 2 8, .read 0x10 2 0x1234]) n' := by
  have hplay : (play board (session (.write 0x10 0x1234 2 :: ([] ++ [.read 0x10 2]))
      { sendHeader_ := { type := UDPRBCP.rbcp_ver_ } })
      [([], none), ([1], some 0), ([0], some 0), ([0], some 0), ([0], some 0)]
      { server := fun _ => 0 }).map (·.1) =
        some (.ok [.wrote 0x10 0x1234 2 8, .read 0x10 2 0x1234]) := by
    decide +kernel
  obtain ⟨⟨r, n'⟩, hrun, rfl⟩ := Option.map_eq_some_iff.mp hplay
  exact ⟨n', runs_of_play hrun⟩

/-- What a session sees of a board on which nothing else is on the way is what registers
behind late writes can show, and no run of it is undefined, if a new socket never gets a port
with which something is still on the way. -/
theorem session_refines (h : Sitcp serve) (memory : Memory) (accesses : List Access)
    (m : FPGAModule) {r : Except Fault (List Observed)} {n : Network Memory Bytes Bytes}
    (hrun : Runs serve (session accesses m) { server := memory } r n) :
    ∃ seen regs, r = .ok seen ∧ seen.map Observed.access = accesses ∧
      Trace (Registers.quiet memory) seen regs ∧ Known regs n := by
  have hquiet : Known (Registers.quiet memory) { server := memory } :=
    ⟨fun a => rfl, fun x hx => absurd hx List.not_mem_nil⟩
  obtain ⟨seen, hr, hmap, regs, htrace, hn⟩ :=
    session_spec h accesses m (Registers.quiet memory) _ _ _ hquiet hrun
  exact ⟨seen, regs, hr, hmap, htrace, hn⟩

theorem session_refines_word : ∃ n' seen regs,
    (.ok [.wrote 0x10 0x1234 2 8, .read 0x10 2 0x1234] : Except Fault (List Observed)) = .ok seen ∧
      seen.map Observed.access = .write 0x10 0x1234 2 :: ([] ++ [.read 0x10 2]) ∧
      Trace (Registers.quiet fun _ => 0) seen regs ∧ Known regs n' := by
  obtain ⟨n', hrun⟩ := runs_word_session
  exact ⟨n', session_refines sitcp_board _ _ _ hrun⟩

/-- The addresses that an access writes. -/
def Access.Writes (x : BitVec 32) : Access → Prop
  | .write register_address _ nCycle =>
      nCycle ≤ 4 ∧ ∃ i < nCycle.toNat, x = register_address + BitVec.ofNat 32 i
  | .read _ _ => False

theorem now_wroteBytes_of_ne (a d : BitVec 32) {x : BitVec 32} (acks : List Bool) (i : Nat)
    (regs : Registers (BitVec 32) UInt8)
    (hx : ∀ j < acks.length, x ≠ a + BitVec.ofNat 32 (i + j)) :
    (wroteBytes a d regs acks i).now x = regs.now x := by
  induction acks generalizing regs i with
  | nil => rfl
  | cons acknowledged rest ih =>
      rw [wroteBytes, ih (i + 1)]
      · exact Registers.now_write_of_ne regs (hx 0 (Nat.succ_pos _))
      · intro j hj
        have hnext := hx (j + 1) (Nat.succ_lt_succ hj)
        rwa [show i + (j + 1) = i + 1 + j by omega] at hnext

theorem add_ofNat_ne (a : BitVec 32) {i j : Nat} (hi : i < 2 ^ 32) (hj : j < 2 ^ 32) (h : i ≠ j) :
    a + BitVec.ofNat 32 i ≠ a + BitVec.ofNat 32 j := by
  intro heq
  apply h
  have hoffset := congrArg BitVec.toNat (BitVec.add_right_inj a |>.mp heq)
  rwa [BitVec.toNat_ofNat, BitVec.toNat_ofNat, Nat.mod_eq_of_lt hi, Nat.mod_eq_of_lt hj] at hoffset

/-- Behind an acknowledged write a register holds the byte or one that was on the way before. -/
theorem now_wroteBytes (a d : BitVec 32) (rounds i : Nat) (regs : Registers (BitVec 32) UInt8)
    (hrange : i + rounds < 2 ^ 32) {j : Nat} (hj : j < rounds) :
    (wroteBytes a d regs (List.replicate rounds true) i).now (a + BitVec.ofNat 32 (i + j)) =
      insert (udp_wd d (i + j)) (regs.late (a + BitVec.ofNat 32 (i + j))) := by
  induction rounds generalizing i j regs with
  | zero => omega
  | succ rounds ih =>
      rw [List.replicate_succ, wroteBytes]
      cases j with
      | zero =>
          rw [now_wroteBytes_of_ne]
          · exact (regs.now_write_self).trans (congrArg _ (if_pos rfl))
          intro j hj
          rw [List.length_replicate] at hj
          exact add_ofNat_ne a (by omega) (by omega) (by omega)
      | succ j =>
          have hrest := ih (i + 1) (regs.write (a + BitVec.ofNat 32 i) (udp_wd d i) true)
            (by omega) (Nat.lt_of_succ_lt_succ hj)
          rw [show i + 1 + j = i + (j + 1) by omega] at hrest
          rw [hrest, Registers.late_write_of_ne]
          exact add_ofNat_ne a (by omega) (by omega) (by omega)

theorem Rounds.length_le {rounds : Nat} {status : Int} {acks : List Bool}
    (h : Rounds rounds status acks) : acks.length ≤ rounds := by
  cases h with
  | all => rw [List.length_replicate]
  | failed _ hj =>
      rw [List.length_append, List.length_replicate, List.length_singleton]
      exact hj

/-- An access leaves the registers alone that it does not write. -/
theorem Shows.now_eq {regs regs' : Registers (BitVec 32) UInt8} {o : Observed}
    (h : Shows regs o regs') {x : BitVec 32} (hx : ¬o.access.Writes x) :
    regs'.now x = regs.now x := by
  cases h with
  | refused | notRead | read => rfl
  | @wrote a d nCycle status acks hfew hrounds =>
      apply now_wroteBytes_of_ne
      intro j hj heq
      have hle := hrounds.length_le
      rw [Nat.zero_add] at heq
      exact hx ⟨Int.not_lt.mp hfew, j, by omega, heq⟩

theorem Trace.now_eq {regs regs' : Registers (BitVec 32) UInt8} {seen : List Observed}
    (h : Trace regs seen regs') {x : BitVec 32}
    (hx : ∀ access ∈ seen.map Observed.access, ¬access.Writes x) : regs'.now x = regs.now x := by
  induction h with
  | nil => rfl
  | cons hshows _ ih =>
      rw [ih fun access haccess => hx access (List.mem_cons_of_mem _ haccess)]
      exact hshows.now_eq (hx _ List.mem_cons_self)

theorem Trace.append {regs regs' : Registers (BitVec 32) UInt8} {seen seen' : List Observed}
    (h : Trace regs (seen ++ seen') regs') :
    ∃ between, Trace regs seen between ∧ Trace between seen' regs' := by
  induction seen generalizing regs with
  | nil => exact ⟨regs, .nil, h⟩
  | cons o seen ih =>
      cases h with
      | cons hshows hrest =>
          obtain ⟨between, hfirst, hsecond⟩ := ih hrest
          exact ⟨between, .cons hshows hfirst, hsecond⟩

theorem toNat_udp_wd (d : BitVec 32) (i : Nat) : udp_wd d i = UInt8.ofNat (d.toNat / 256 ^ i) := by
  have hmask : data_mask.toNat = 2 ^ 8 - 1 := rfl
  rw [udp_wd, BitVec.toNat_and, hmask, Nat.and_two_pow_sub_one_eq_mod, BitVec.toNat_ushiftRight,
    Nat.shiftRight_eq_div_pow, Nat.pow_mul]
  apply UInt8.toNat_inj.mp
  rw [UInt8.toNat_ofNat', UInt8.toNat_ofNat', Nat.mod_mod]

/-- Where every register can only hold its byte of a word, these bytes are read. -/
theorem MayHold.eq_toLE {regs : Registers (BitVec 32) UInt8} {a d : BitVec 32} {i : Nat}
    {vs : Bytes} (h : MayHold regs a i vs)
    (hbytes : ∀ j < vs.length, regs.now (a + BitVec.ofNat 32 (i + j)) ⊆ {udp_wd d (i + j)}) :
    vs = toLE vs.length (d.toNat / 256 ^ i) := by
  induction vs generalizing i with
  | nil => rfl
  | cons v vs ih =>
      have hv : v = udp_wd d i := hbytes 0 (Nat.succ_pos _) h.1
      have hrest := ih (i := i + 1) h.2 fun j hj => by
        have hnext := hbytes (j + 1) (Nat.succ_lt_succ hj)
        rwa [show i + (j + 1) = i + 1 + j by omega] at hnext
      rw [List.length_cons, toLE, ← toNat_udp_wd, ← hv, Nat.div_div_eq_div_mul, ← Nat.pow_succ,
        ← hrest]

/-- What a network may do to the registers from now on. -/
def registersOf (n : Network Memory Bytes Bytes) : Registers (BitVec 32) UInt8 where
  now a := insert (n.server a) {b | ∃ x ∈ n.requests, written x.2 a = some b}
  late a := {b | ∃ x ∈ n.requests, written x.2 a = some b}
  late_subset _ := Set.subset_insert _ _

theorem known_registersOf (n : Network Memory Bytes Bytes) : Known (registersOf n) n :=
  ⟨fun _ => Set.mem_insert _ _, fun x hx _ _ hwritten => ⟨x, hx, hwritten⟩⟩

/-- A write with success leaves a register with its byte, if no other byte was on the way. -/
theorem Shows.now_of_success {n : Network Memory Bytes Bytes} {a d : BitVec 32}
    {nCycle status : Int} {regs' : Registers (BitVec 32) UInt8}
    (h : Shows (registersOf n) (.wrote a d nCycle status) regs') (hstatus : 0 ≤ status) {i : Nat}
    (hi : i < nCycle.toNat)
    (hquiet : ∀ x ∈ n.requests, ∀ b, written x.2 (a + BitVec.ofNat 32 i) = some b →
      b = udp_wd d i) : regs'.now (a + BitVec.ofNat 32 i) ⊆ {udp_wd d i} := by
  cases h with
  | refused => omega
  | wrote hfew hrounds =>
      cases hrounds with
      | failed hneg _ => omega
      | all =>
          have hnow := now_wroteBytes a d nCycle.toNat 0 (registersOf n) (by omega) hi
          rw [Nat.zero_add] at hnow
          rw [hnow]
          apply Set.insert_subset (Set.mem_singleton _)
          rintro b ⟨x, hx, hwritten⟩
          exact hquiet x hx b hwritten

/-- A read of registers that each hold the byte of a word gives the word. -/
theorem Shows.read_eq {regs regs' : Registers (BitVec 32) UInt8} {a d value : BitVec 32}
    {nCycle : Int} (h : Shows regs (.read a nCycle value) regs')
    (hbytes : ∀ i < nCycle.toNat, regs.now (a + BitVec.ofNat 32 i) ⊆ {udp_wd d i}) :
    value = BitVec.ofNat 32 (d.toNat % 256 ^ nCycle.toNat) ∨ value = 0xeeeeeeee := by
  cases h with
  | notRead => exact .inr rfl
  | read hfew hread =>
      obtain ⟨vs, hlength, hvs, hvalue⟩ := hread
      have hle : vs = toLE vs.length (d.toNat / 256 ^ 0) := hvs.eq_toLE fun j hj => by
        rw [Nat.zero_add]
        exact hbytes j (hlength ▸ hj)
      rw [Nat.pow_zero, Nat.div_one] at hle
      rw [hvalue, hle, ofLE_toLE, hlength]
      exact .inl rfl

theorem of_access_eq_write {o : Observed} {a d : BitVec 32} {nCycle : Int}
    (h : o.access = .write a d nCycle) : ∃ status, o = .wrote a d nCycle status := by
  cases o with
  | wrote a' d' nCycle' status =>
      cases h
      exact ⟨status, rfl⟩
  | read => cases h

theorem of_access_eq_read {o : Observed} {a : BitVec 32} {nCycle : Int}
    (h : o.access = .read a nCycle) : ∃ value, o = .read a nCycle value := by
  cases o with
  | read a' nCycle' value =>
      cases h
      exact ⟨value, rfl⟩
  | wrote => cases h

/-- A word that was written with success is what a later read returns, unless that fails:
requests and replies may be lost, repeated and late, as long as no other byte was on the way
to these registers, nothing else is written to them, and no port is given out again while
something is on the way with it. -/
theorem read_back (h : Sitcp serve) {n n' : Network Memory Bytes Bytes} {m : FPGAModule}
    {a d : BitVec 32} {nCycle : Int} {others : List Access} {r : Except Fault (List Observed)}
    (hquiet : ∀ i < nCycle.toNat, ∀ x ∈ n.requests, ∀ b,
      written x.2 (a + BitVec.ofNat 32 i) = some b → b = udp_wd d i)
    (hothers : ∀ i < nCycle.toNat, ∀ access ∈ others, ¬access.Writes (a + BitVec.ofNat 32 i))
    (hrun : Runs serve (session (.write a d nCycle :: (others ++ [.read a nCycle])) m) n r n') :
    ∃ status seen value, r = .ok (.wrote a d nCycle status :: (seen ++ [.read a nCycle value])) ∧
      (0 ≤ status →
        value = BitVec.ofNat 32 (d.toNat % 256 ^ nCycle.toNat) ∨ value = 0xeeeeeeee) := by
  obtain ⟨all, hr, hmap, regs', htrace, _⟩ :=
    session_spec h _ m _ _ _ _ (known_registersOf n) hrun
  obtain ⟨first, rest, rfl, hfirst, hrest⟩ := List.map_eq_cons_iff.mp hmap
  obtain ⟨seen, last, rfl, hseen, hlast⟩ := List.map_eq_append_iff.mp hrest
  obtain ⟨final, rfl, hfinal⟩ := List.map_eq_singleton_iff.mp hlast
  obtain ⟨status, rfl⟩ := of_access_eq_write hfirst
  obtain ⟨value, rfl⟩ := of_access_eq_read hfinal
  refine ⟨status, seen, value, hr, fun hstatus => ?_⟩
  cases htrace with
  | cons hwrote htail =>
      obtain ⟨between, hothersSeen, hread⟩ := htail.append
      cases hread with
      | cons hread _ =>
          apply hread.read_eq
          intro i hi
          rw [hothersSeen.now_eq (hseen ▸ hothers i hi)]
          exact hwrote.now_of_success hstatus hi (hquiet i hi)

theorem read_back_word : ∃ status seen value,
    (.ok [.wrote 0x10 0x1234 2 8, .read 0x10 2 0x1234] : Except Fault (List Observed)) =
        .ok (.wrote 0x10 0x1234 2 status :: (seen ++ [.read 0x10 2 value])) ∧
      (0 ≤ status → value = BitVec.ofNat 32 ((0x1234#32).toNat % 256 ^ (2 : Int).toNat) ∨
        value = 0xeeeeeeee) := by
  obtain ⟨n', hrun⟩ := runs_word_session
  refine read_back sitcp_board ?_ ?_ hrun
  · exact fun i _ x hx => absurd hx List.not_mem_nil
  · exact fun i _ access haccess => absurd haccess List.not_mem_nil

end Userworks.RegisterAccess
