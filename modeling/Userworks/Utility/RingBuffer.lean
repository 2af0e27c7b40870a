import Userworks.Lib.Ring

/-!
The ring buffer shared by one writer and one reader. The methods are modelled
on the fields of the class; the mutex and the condition variables are the wait
conditions under which a method goes on. What a move leaves in a slot is a
parameter.

`System` runs the two sides against each other. The two-step operations are two
steps, so that the other side can come between them.
-/
namespace Userworks

variable {T : Type}

structure RingBuffer (T : Type) where
  fCapacity : Int := 0
  fFillCount : Int := 0
  fBuffer : List T := []
  fReadPtr : Int := 0
  fWritePtr : Int := 0

namespace RingBuffer

/-- `fBuffer[i]`, undefined outside of the vector. -/
def slot (rb : RingBuffer T) (i : Int) : Option T :=
  if 0 ≤ i then rb.fBuffer[i.toNat]? else none

/-- `fBuffer[i] = x`. -/
def assign (rb : RingBuffer T) (i : Int) (x : T) : Option (RingBuffer T) :=
  (rb.slot i).map fun _ => { rb with fBuffer := rb.fBuffer.set i.toNat x }

def resize (rb : RingBuffer T) (n : Nat) (x : T) : RingBuffer T :=
  { rb with fCapacity := n, fBuffer := rb.fBuffer ++ List.replicate n x }

/-- The constructor; `x` is the value every slot starts with. -/
def make (n : Nat) (x : T) : RingBuffer T := resize {} n x

/-- The wait condition of the writer. -/
def notFull (rb : RingBuffer T) : Bool := rb.fFillCount < rb.fCapacity

/-- The wait condition of the reader. -/
def notEmpty (rb : RingBuffer T) : Bool := rb.fFillCount > 0

/-- The slot that `back` returns a reference to. -/
def back (rb : RingBuffer T) : Option T := rb.slot rb.fWritePtr

def front (rb : RingBuffer T) : Option T := rb.slot rb.fReadPtr

def pop (rb : RingBuffer T) : RingBuffer T :=
  { rb with fReadPtr := (rb.fReadPtr + 1).tmod rb.fCapacity, fFillCount := rb.fFillCount - 1 }

def pop_release (moved : T → T) (rb : RingBuffer T) : Option (T × RingBuffer T) := do
  let ret ← rb.slot rb.fReadPtr
  let rb ← rb.assign rb.fReadPtr (moved ret)
  return (ret, rb.pop)

/-- `push()`. -/
def push (rb : RingBuffer T) : RingBuffer T :=
  { rb with fWritePtr := (rb.fWritePtr + 1).tmod rb.fCapacity, fFillCount := rb.fFillCount + 1 }

/-- `push(x)`. -/
def push_value (rb : RingBuffer T) (x : T) : Option (RingBuffer T) :=
  (rb.assign rb.fWritePtr x).map push

/-- The ring holds `contents`, the oldest first, from slot `start` on. -/
structure Holds (n start : Nat) (rb : RingBuffer T) (contents : List T) : Prop where
  capacity : rb.fCapacity = n
  size : rb.fBuffer.length = n
  fill : rb.fFillCount = contents.length
  fits : contents.length ≤ n
  read_lt : start < n
  read : rb.fReadPtr = start
  write : rb.fWritePtr = ((start + contents.length) % n : Nat)
  slots : window (fun i => rb.fBuffer[i]?) n start contents.length = contents.map some

@[simp] theorem slot_natCast (rb : RingBuffer T) (i : Nat) : rb.slot i = rb.fBuffer[i]? := by
  simp [slot]

theorem holds_make (n : Nat) (hn : 1 ≤ n) (x : T) : Holds n 0 (make n x) [] where
  capacity := rfl
  size := by simp [make, resize]
  fill := rfl
  fits := Nat.zero_le n
  read_lt := hn
  read := rfl
  write := by simp [make, resize]
  slots := rfl

section Methods

variable {n start : Nat} {rb : RingBuffer T} {contents : List T}

theorem Holds.notFull_iff (h : Holds n start rb contents) :
    rb.notFull = true ↔ contents.length < n := by
  rw [notFull, h.fill, h.capacity, decide_eq_true_eq, Int.ofNat_lt]

theorem Holds.notEmpty_iff (h : Holds n start rb contents) :
    rb.notEmpty = true ↔ contents ≠ [] := by
  rw [notEmpty, h.fill, decide_eq_true_eq, gt_iff_lt, Int.natCast_pos, List.length_pos_iff]

theorem Holds.write_lt (h : Holds n start rb contents) : (start + contents.length) % n < n :=
  Nat.mod_lt _ (by have := h.read_lt; omega)

theorem Holds.back_isSome (h : Holds n start rb contents) : rb.back.isSome := by
  have hw := lt_of_lt_of_eq h.write_lt h.size.symm
  rw [back, h.write, slot_natCast, List.getElem?_eq_getElem hw]
  rfl

theorem Holds.front_eq {x : T} (h : Holds n start rb (x :: contents)) : rb.front = some x := by
  have hslots := h.slots
  rw [List.length_cons, window, List.map_cons, List.cons.injEq, Nat.mod_eq_of_lt h.read_lt]
    at hslots
  rw [front, h.read, slot_natCast]
  exact hslots.1

/-- A write through the reference of `back` lands outside of the contents. -/
theorem Holds.assign_back (h : Holds n start rb contents) (hfull : contents.length < n) (x : T) :
    ∃ rb', rb.assign rb.fWritePtr x = some rb' ∧ Holds n start rb' contents ∧
      rb'.back = some x := by
  obtain ⟨old, hold⟩ := Option.isSome_iff_exists.mp h.back_isSome
  have hw := h.write_lt
  refine ⟨{ rb with fBuffer := rb.fBuffer.set rb.fWritePtr.toNat x }, ?_, ?_, ?_⟩
  · rw [back] at hold
    rw [assign, hold]
    rfl
  · refine { h with size := by rw [List.length_set, h.size], slots := ?_ }
    rw [← h.slots]
    apply window_update_outside (Nat.le_refl _) hfull
    intro i hi
    rw [h.write, Int.toNat_natCast, List.getElem?_set_ne (Ne.symm hi)]
  · rw [back]
    show slot _ rb.fWritePtr = some x
    rw [h.write, slot_natCast, Int.toNat_natCast]
    exact List.getElem?_set_self (by rw [h.size]; exact hw)

/-- `push()` takes up what stands in the slot behind the contents. -/
theorem Holds.push (h : Holds n start rb contents) (hfull : contents.length < n) {x : T}
    (hback : rb.back = some x) : Holds n start rb.push (contents ++ [x]) where
  capacity := h.capacity
  size := h.size
  fill := by
    show rb.fFillCount + 1 = _
    rw [h.fill, List.length_append, List.length_singleton, Int.natCast_add]
    rfl
  fits := by
    rw [List.length_append, List.length_singleton]
    omega
  read_lt := h.read_lt
  read := h.read
  write := by
    show (rb.fWritePtr + 1).tmod rb.fCapacity = _
    rw [h.write, h.capacity, List.length_append, List.length_singleton, ← Nat.add_assoc,
      ← Nat.mod_add_mod _ n 1]
    rfl
  slots := by
    rw [back, h.write, slot_natCast] at hback
    rw [List.length_append, List.length_singleton, window_concat, List.map_append]
    show window (fun i => rb.fBuffer[i]?) n start contents.length ++ [rb.fBuffer[_]?] = _
    rw [h.slots, hback]
    rfl

theorem Holds.pop {x : T} (h : Holds n start rb (x :: contents)) :
    Holds n ((start + 1) % n) rb.pop contents where
  capacity := h.capacity
  size := h.size
  fill := by
    show rb.fFillCount - 1 = _
    rw [h.fill, List.length_cons, Int.natCast_add, Int.natCast_one, Int.add_sub_cancel]
  fits := Nat.le_of_succ_le h.fits
  read_lt := Nat.mod_lt _ (Nat.zero_lt_of_lt h.read_lt)
  read := by
    show (rb.fReadPtr + 1).tmod rb.fCapacity = _
    rw [h.read, h.capacity]
    rfl
  write := by
    rw [Nat.mod_add_mod, Nat.add_right_comm, Nat.add_assoc]
    exact h.write
  slots := by
    have hslots := h.slots
    rw [List.length_cons, window, List.map_cons, List.cons.injEq] at hslots
    rw [window_mod]
    exact hslots.2

/-- The moved-from slot is no longer part of the contents, and it is not the one
that the writer may hold a reference to. -/
theorem Holds.pop_release {x : T} (h : Holds n start rb (x :: contents)) (moved : T → T) :
    ∃ rb', rb.pop_release moved = some (x, rb') ∧ Holds n ((start + 1) % n) rb' contents ∧
      (contents.length + 1 < n → rb'.back = rb.back) := by
  have hfront : rb.slot rb.fReadPtr = some x := h.front_eq
  have hset : ∀ i, i ≠ start → (rb.fBuffer.set start (moved x))[i]? = rb.fBuffer[i]? :=
    fun i hi => List.getElem?_set_ne (Ne.symm hi)
  let rb' : RingBuffer T := { rb with fBuffer := rb.fBuffer.set rb.fReadPtr.toNat (moved x) }
  refine ⟨rb'.pop, ?_, ?_, ?_⟩
  · simp [RingBuffer.pop_release, assign, hfront, rb']
  · have hpop := h.pop
    refine { hpop with size := ?_, slots := ?_ }
    · exact (List.length_set ..).trans h.size
    · rw [← hpop.slots, window_mod, window_mod]
      apply window_congr
      intro k hk
      show (rb.fBuffer.set rb.fReadPtr.toNat (moved x))[_]? = rb.fBuffer[_]?
      rw [h.read, Int.toNat_natCast]
      apply hset
      have hne := ring_ne (n := n) (i := 0) (j := k + 1) start (by omega)
        (by have := h.fits; rw [List.length_cons] at this; omega)
      rw [Nat.add_zero, Nat.mod_eq_of_lt h.read_lt] at hne
      rw [Nat.add_assoc, Nat.add_comm 1 k]
      exact Ne.symm hne
  · intro hroom
    show slot _ rb.fWritePtr = rb.slot rb.fWritePtr
    rw [h.write, slot_natCast, slot_natCast]
    show (rb.fBuffer.set rb.fReadPtr.toNat (moved x))[_]? = _
    rw [h.read, Int.toNat_natCast]
    apply hset
    have hne := ring_ne (n := n) (i := 0) (j := (x :: contents).length) start
      (Nat.succ_pos _) (by rw [List.length_cons]; omega)
    rw [Nat.add_zero, Nat.mod_eq_of_lt h.read_lt] at hne
    exact Ne.symm hne

end Methods

end RingBuffer

/-- The ring between its two clients, with what they have done so far. -/
structure System (T : Type) where
  ring : RingBuffer T
  /-- The writer has stored a value through `back` and not pushed yet. -/
  stored : Option T := none
  /-- The reader has read through `front` and not popped yet. -/
  reading : Bool := false
  written : List T := []
  values : List T := []

inductive RingOp (T : Type) where
  | push (x : T)
  | back (x : T)
  | pushBack
  | pop_release
  | front
  | popFront

namespace System

def start (n : Nat) (x : T) : System T where
  ring := .make n x

/-- The wait condition of a method, and that each client finishes a two-step
operation before it begins another one. -/
def enabled (s : System T) : RingOp T → Bool
  | .push _ | .back _ => s.ring.notFull && s.stored.isNone
  | .pushBack => s.stored.isSome
  | .pop_release | .front => s.ring.notEmpty && !s.reading
  | .popFront => s.reading

/-- One operation; `none` when it accesses a slot outside of the buffer. -/
def exec (moved : T → T) (s : System T) : RingOp T → Option (System T)
  | .push x => do
      let ring ← s.ring.push_value x
      return { s with ring, written := s.written ++ [x] }
  | .back x => do
      let ring ← s.ring.assign s.ring.fWritePtr x
      return { s with ring, stored := some x }
  | .pushBack =>
      some { s with ring := s.ring.push, stored := none, written := s.written ++ s.stored.toList }
  | .pop_release => do
      let (x, ring) ← s.ring.pop_release moved
      return { s with ring, values := s.values ++ [x] }
  | .front => do
      let x ← s.ring.front
      return { s with reading := true, values := s.values ++ [x] }
  | .popFront => some { s with ring := s.ring.pop, reading := false }

/-- The runs in which every operation waits until it is enabled. -/
inductive Run (moved : T → T) : System T → List (RingOp T) → System T → Prop
  | nil {s : System T} : Run moved s [] s
  | snoc {s t u : System T} {ops : List (RingOp T)} {op : RingOp T} :
      Run moved s ops t → t.enabled op = true → t.exec moved op = some u →
      Run moved s (ops ++ [op]) u

/-- What was written is what the reader is done with, then the contents. A value
that is being read is read already and the first of the contents still. -/
structure Invariant (n : Nat) (s : System T) (done contents : List T) : Prop where
  holds : ∃ start, s.ring.Holds n start contents
  written : s.written = done ++ contents
  values : s.values = done ++ contents.take (if s.reading then 1 else 0)
  reading : s.reading = true → contents ≠ []
  stored : ∀ x, s.stored = some x → contents.length < n ∧ s.ring.back = some x

theorem invariant_start (n : Nat) (hn : 1 ≤ n) (x : T) : Invariant n (start n x) [] [] where
  holds := ⟨0, RingBuffer.holds_make n hn x⟩
  written := rfl
  values := rfl
  reading := by simp [start]
  stored := by simp [start]

section Steps

variable {n : Nat} {s : System T} {done contents : List T}

theorem step_push (h : Invariant n s done contents) (moved : T → T) (x : T)
    (hen : s.enabled (.push x) = true) :
    ∃ t, s.exec moved (.push x) = some t ∧ Invariant n t done (contents ++ [x]) := by
  obtain ⟨start, hholds⟩ := h.holds
  rw [enabled, Bool.and_eq_true, hholds.notFull_iff, Option.isNone_iff_eq_none] at hen
  obtain ⟨ring, hassign, hring, hback⟩ := hholds.assign_back hen.1 x
  refine ⟨{ s with ring := ring.push, written := s.written ++ [x] }, ?_, ?_⟩
  · simp [exec, RingBuffer.push_value, hassign]
  · exact
      { holds := ⟨start, hring.push hen.1 hback⟩
        written := by rw [h.written, List.append_assoc]
        values := by
          show s.values = _
          rw [h.values]
          cases hreading : s.reading with
          | false => rfl
          | true => rw [if_pos rfl, List.take_append_of_le_length
              (List.length_pos_iff.mpr (h.reading hreading))]
        reading := fun _ => by simp
        stored := fun y hy => by simp [hen.2] at hy }

theorem step_back (h : Invariant n s done contents) (moved : T → T) (x : T)
    (hen : s.enabled (.back x) = true) :
    ∃ t, s.exec moved (.back x) = some t ∧ Invariant n t done contents := by
  obtain ⟨start, hholds⟩ := h.holds
  rw [enabled, Bool.and_eq_true, hholds.notFull_iff] at hen
  obtain ⟨ring, hassign, hring, hback⟩ := hholds.assign_back hen.1 x
  refine ⟨{ s with ring, stored := some x }, ?_, ?_⟩
  · simp [exec, hassign]
  · exact
      { holds := ⟨start, hring⟩
        written := h.written
        values := h.values
        reading := h.reading
        stored := fun y hy => ⟨hen.1, hy ▸ hback⟩ }

theorem step_pushBack (h : Invariant n s done contents) (moved : T → T)
    (hen : s.enabled .pushBack = true) :
    ∃ t x, s.exec moved .pushBack = some t ∧ Invariant n t done (contents ++ [x]) := by
  obtain ⟨start, hholds⟩ := h.holds
  obtain ⟨x, hx⟩ := Option.isSome_iff_exists.mp hen
  obtain ⟨hroom, hback⟩ := h.stored x hx
  refine ⟨_, x, rfl, ?_⟩
  exact
    { holds := ⟨start, hholds.push hroom hback⟩
      written := by
        show s.written ++ s.stored.toList = _
        rw [h.written, hx, List.append_assoc]
        rfl
      values := by
        show s.values = _
        rw [h.values]
        cases hreading : s.reading with
        | false => rfl
        | true => rw [if_pos rfl, List.take_append_of_le_length
            (List.length_pos_iff.mpr (h.reading hreading))]
      reading := fun _ => by simp
      stored := fun y hy => by simp at hy }

theorem step_pop_release (h : Invariant n s done contents) (moved : T → T)
    (hen : s.enabled .pop_release = true) :
    ∃ t x rest, contents = x :: rest ∧ s.exec moved .pop_release = some t ∧
      Invariant n t (done ++ [x]) rest := by
  obtain ⟨start, hholds⟩ := h.holds
  rw [enabled, Bool.and_eq_true, hholds.notEmpty_iff, Bool.not_eq_true'] at hen
  obtain ⟨x, rest, rfl⟩ := List.exists_cons_of_ne_nil hen.1
  obtain ⟨ring, hpop, hring, hback⟩ := hholds.pop_release moved
  refine ⟨{ s with ring, values := s.values ++ [x] }, x, rest, rfl, ?_, ?_⟩
  · simp [exec, hpop]
  · exact
      { holds := ⟨_, hring⟩
        written := by rw [h.written, List.append_assoc]; rfl
        values := by
          show s.values ++ [x] = _
          rw [h.values, hen.2]
          simp
        reading := fun hreading => by simp [hen.2] at hreading
        stored := fun y hy => by
          obtain ⟨hroom, hstored⟩ := h.stored y hy
          exact ⟨Nat.lt_of_succ_lt hroom, (hback hroom).trans hstored⟩ }

theorem step_front (h : Invariant n s done contents) (moved : T → T)
    (hen : s.enabled .front = true) :
    ∃ t, s.exec moved .front = some t ∧ Invariant n t done contents := by
  obtain ⟨start, hholds⟩ := h.holds
  rw [enabled, Bool.and_eq_true, hholds.notEmpty_iff, Bool.not_eq_true'] at hen
  obtain ⟨x, rest, rfl⟩ := List.exists_cons_of_ne_nil hen.1
  refine ⟨{ s with reading := true, values := s.values ++ [x] }, ?_, ?_⟩
  · simp [exec, hholds.front_eq]
  · exact
      { holds := ⟨start, hholds⟩
        written := h.written
        values := by
          show s.values ++ [x] = _
          rw [h.values, hen.2]
          simp
        reading := fun _ => hen.1
        stored := h.stored }

theorem step_popFront (h : Invariant n s done contents) (moved : T → T)
    (hen : s.enabled .popFront = true) :
    ∃ t x rest, contents = x :: rest ∧ s.exec moved .popFront = some t ∧
      Invariant n t (done ++ [x]) rest := by
  obtain ⟨start, hholds⟩ := h.holds
  have hreading : s.reading = true := hen
  obtain ⟨x, rest, rfl⟩ := List.exists_cons_of_ne_nil (h.reading hreading)
  refine ⟨_, x, rest, rfl, rfl, ?_⟩
  exact
    { holds := ⟨_, hholds.pop⟩
      written := by
        show s.written = _
        rw [h.written, List.append_assoc]
        rfl
      values := by
        show s.values = _
        rw [h.values, hreading]
        simp
      reading := fun hfalse => by simp at hfalse
      stored := fun y hy => by
        obtain ⟨hroom, hstored⟩ := h.stored y hy
        exact ⟨Nat.lt_of_succ_lt hroom, hstored⟩ }

end Steps

/-- An enabled operation accesses no slot outside of the buffer. -/
theorem step_invariant {n : Nat} {s : System T} {done contents : List T}
    (h : Invariant n s done contents) (moved : T → T) (op : RingOp T)
    (hen : s.enabled op = true) :
    ∃ t done' contents', s.exec moved op = some t ∧ Invariant n t done' contents' := by
  cases op with
  | push x =>
      obtain ⟨t, hexec, ht⟩ := step_push h moved x hen
      exact ⟨t, _, _, hexec, ht⟩
  | back x =>
      obtain ⟨t, hexec, ht⟩ := step_back h moved x hen
      exact ⟨t, _, _, hexec, ht⟩
  | pushBack =>
      obtain ⟨t, x, hexec, ht⟩ := step_pushBack h moved hen
      exact ⟨t, _, _, hexec, ht⟩
  | pop_release =>
      obtain ⟨t, x, rest, -, hexec, ht⟩ := step_pop_release h moved hen
      exact ⟨t, _, _, hexec, ht⟩
  | front =>
      obtain ⟨t, hexec, ht⟩ := step_front h moved hen
      exact ⟨t, _, _, hexec, ht⟩
  | popFront =>
      obtain ⟨t, x, rest, -, hexec, ht⟩ := step_popFront h moved hen
      exact ⟨t, _, _, hexec, ht⟩

theorem run_invariant {n : Nat} (hn : 1 ≤ n) {x₀ : T} {moved : T → T} {ops : List (RingOp T)}
    {s : System T} (h : Run moved (start n x₀) ops s) :
    ∃ done contents, Invariant n s done contents := by
  induction h with
  | nil => exact ⟨[], [], invariant_start n hn x₀⟩
  | snoc hrun hen hexec ih =>
      obtain ⟨done, contents, hinv⟩ := ih
      obtain ⟨t, done', contents', ht, hinv'⟩ := step_invariant hinv moved _ hen
      rw [ht] at hexec
      cases hexec
      exact ⟨done', contents', hinv'⟩

/-- Whatever the two clients do, the values read are a first part of the values
written, and the ones not done with are counted by `fFillCount`. -/
theorem ring_fifo {n : Nat} (hn : 1 ≤ n) {x₀ : T} {moved : T → T} {ops : List (RingOp T)}
    {s : System T} (h : Run moved (start n x₀) ops s) :
    (0 ≤ s.ring.fFillCount ∧ s.ring.fFillCount ≤ n) ∧
      (0 ≤ s.ring.fReadPtr ∧ s.ring.fReadPtr < n) ∧
      (0 ≤ s.ring.fWritePtr ∧ s.ring.fWritePtr < n) ∧
      s.values <+: s.written ∧
      (s.written.length : Int) + (if s.reading then 1 else 0) =
        s.values.length + s.ring.fFillCount ∧
      ∀ op, s.enabled op = true → (s.exec moved op).isSome = true := by
  obtain ⟨done, contents, hinv⟩ := run_invariant hn h
  obtain ⟨begin, hholds⟩ := hinv.holds
  have hfits := hholds.fits
  have hread := hholds.read_lt
  have hwrite := hholds.write_lt
  refine ⟨?_, ?_, ?_, ?_, ?_, ?_⟩
  · rw [hholds.fill]
    omega
  · rw [hholds.read]
    omega
  · rw [hholds.write]
    omega
  · rw [hinv.values, hinv.written]
    exact List.prefix_append_right_inj done |>.mpr (List.take_prefix _ contents)
  · rw [hholds.fill, hinv.values, hinv.written, List.length_append, List.length_append,
      List.length_take]
    cases hreading : s.reading with
    | false => simp
    | true =>
        have hpos := List.length_pos_iff.mpr (hinv.reading hreading)
        rw [if_pos rfl, if_pos rfl, Nat.min_eq_left hpos]
        omega
  · intro op hen
    obtain ⟨t, _, _, hexec, _⟩ := step_invariant hinv moved op hen
    rw [hexec]
    rfl

/-- One slot: a two-step write, a two-step read, and a write again. -/
theorem ring_fifo_one_slot :
    ∃ s : System Nat,
      Run id (start 1 0) [.back 7, .pushBack, .front, .popFront, .push 8] s ∧
        s.values <+: s.written := by
  have h : Run id (start 1 0) [.back 7, .pushBack, .front, .popFront, .push 8] _ :=
    .snoc (.snoc (.snoc (.snoc (.snoc .nil rfl rfl) rfl rfl) rfl rfl) rfl rfl) rfl rfl
  exact ⟨_, h, (ring_fifo (Nat.le_refl 1) h).2.2.2.1⟩

end System

end Userworks
