import Userworks.Lib.Text
import Mathlib.Data.List.Basic

/-!
Waiting for one state of all devices. Every device is compared with the first one
in at most `STATE_WAIT_RETRY_COUNT` rounds, in each of which both states are read
again. The state that is returned is the last one of the first device, whether or
not the others agreed on it.

The replies of the store are a sequence, one for each `hget`. What was read is kept
as a history; a field that is missing counts as the empty state, as in the code.
-/
namespace Userworks
namespace Processwatchdog

def STATE_WAIT_RETRY_COUNT : Nat := 10

/-- `reply or ""`. -/
def orEmpty (reply : Option Text) : Text := reply.getD []

/-- The states that were read, with their devices. -/
abbrev Seen := List (Text × Text)

section Code

variable (replies : Nat → Option Text)

def hget (dev : Text) (seen : Seen) : Text × Seen :=
  let state := orEmpty (replies seen.length)
  (state, seen ++ [(dev, state)])

/-- What the loop over the rounds leaves in its variables. -/
structure Retried where
  retry_index : Nat
  first_dev_state : Text
  state : Text
  seen : Seen

/-- The rounds that are left of the loop over `retry_index`. -/
def retry (first_dev dev : Text) : Nat → Retried → Retried
  | 0, r => r
  | left + 1, r =>
      let (first_dev_state, seen) := hget replies first_dev r.seen
      let (state, seen) := hget replies dev seen
      let r : Retried := ⟨r.retry_index + 1, first_dev_state, state, seen⟩
      if state = [] then retry first_dev dev left r
      else if state = first_dev_state then r
      else retry first_dev dev left r

/-- The loop over the devices. A device that did not agree ends it. -/
def waitDevices (first_dev : Text) : List Text → Text → Seen → Text × Seen
  | [], first_dev_state, seen => (first_dev_state, seen)
  | dev :: devices, first_dev_state, seen =>
      let r := retry replies first_dev dev STATE_WAIT_RETRY_COUNT ⟨0, first_dev_state, [], seen⟩
      if r.retry_index = STATE_WAIT_RETRY_COUNT ∧ r.state ≠ r.first_dev_state then
        (r.first_dev_state, r.seen)
      else waitDevices first_dev devices r.first_dev_state r.seen

def stateConsistencyWait (devices : List Text) : Text × Seen :=
  match devices with
  | [] => ([], [])
  | first_dev :: _ => waitDevices replies first_dev devices [] []

/-- Whether `state_wait` prints that the states are not consistent. -/
def stateWaitPrints (devices : List Text) (req_state : Text) : Bool :=
  req_state ≠ (stateConsistencyWait replies devices).1

/-- Some reply for the device during the call was the state. -/
def Replied (devices : List Text) (dev state : Text) : Prop :=
  (dev, state) ∈ (stateConsistencyWait replies devices).2

end Code

/-- The rounds of one device, as pairs of the state of the first device and its own,
when `start` replies have been given. -/
def roundsFrom (replies : Nat → Option Text) (start : Nat) : Nat → List (Text × Text)
  | 0 => []
  | left + 1 =>
      let round := (orEmpty (replies start), orEmpty (replies (start + 1)))
      if round.2 ≠ [] ∧ round.2 = round.1 then [round]
      else round :: roundsFrom replies (start + 2) left

structure Visit where
  dev : Text
  rounds : List (Text × Text)

/-- The device did not agree with the first one in its last round. -/
def Visit.GivenUp (v : Visit) : Prop :=
  v.rounds.length = STATE_WAIT_RETRY_COUNT ∧
    (v.rounds.getLastD ([], [])).2 ≠ (v.rounds.getLastD ([], [])).1

instance (v : Visit) : Decidable v.GivenUp :=
  inferInstanceAs (Decidable (_ ∧ _))

/-- The devices that are compared with the first one, and their rounds. -/
def visits (replies : Nat → Option Text) : List Text → Nat → List Visit
  | [], _ => []
  | dev :: devices, start =>
      let v : Visit := ⟨dev, roundsFrom replies start STATE_WAIT_RETRY_COUNT⟩
      v :: if v.GivenUp then [] else visits replies devices (start + 2 * v.rounds.length)

/-- What one visit adds to the history. -/
def Visit.seen (first_dev : Text) (v : Visit) : Seen :=
  v.rounds.flatMap fun round => [(first_dev, round.1), (v.dev, round.2)]

theorem roundsFrom_ne_nil (replies : Nat → Option Text) (start left : Nat) :
    roundsFrom replies start (left + 1) ≠ [] := by
  rw [roundsFrom]
  split <;> exact List.cons_ne_nil _ _

/-- The loop over the rounds, by the rounds. -/
theorem retry_eq (replies : Nat → Option Text) (first_dev dev : Text) (left : Nat) (r : Retried) :
    retry replies first_dev dev left r =
      { retry_index := r.retry_index + (roundsFrom replies r.seen.length left).length
        first_dev_state :=
          ((roundsFrom replies r.seen.length left).getLastD (r.first_dev_state, r.state)).1
        state := ((roundsFrom replies r.seen.length left).getLastD (r.first_dev_state, r.state)).2
        seen := r.seen ++ Visit.seen first_dev ⟨dev, roundsFrom replies r.seen.length left⟩ } := by
  induction left generalizing r with
  | zero => simp [retry, roundsFrom, Visit.seen]
  | succ left ih =>
      let round := (orEmpty (replies r.seen.length), orEmpty (replies (r.seen.length + 1)))
      let next : Retried := ⟨r.retry_index + 1, round.1, round.2,
        r.seen ++ [(first_dev, round.1), (dev, round.2)]⟩
      have hnext : next.seen.length = r.seen.length + 2 := List.length_append
      have hstep : retry replies first_dev dev (left + 1) r =
          if round.2 ≠ [] ∧ round.2 = round.1 then next
          else retry replies first_dev dev left next := by
        simp only [retry, hget, List.length_append, List.length_singleton, List.append_assoc,
          List.singleton_append, next, round]
        by_cases hempty : orEmpty (replies (r.seen.length + 1)) = []
        · simp [hempty]
        · simp [hempty]
      rw [hstep, roundsFrom]
      by_cases hagree : round.2 ≠ [] ∧ round.2 = round.1
      · rw [if_pos hagree, if_pos hagree]
        rfl
      · rw [if_neg hagree, if_neg hagree, ih next, hnext]
        simp only [List.length_cons, List.getLastD_cons, Visit.seen, List.flatMap_cons, next,
          List.append_assoc, Nat.add_assoc, Nat.add_comm 1]
        rfl

theorem length_seen (first_dev : Text) (v : Visit) :
    (v.seen first_dev).length = 2 * v.rounds.length := by
  rw [Visit.seen, List.length_flatMap]
  simp [Nat.mul_comm]

theorem getLastD_of_ne_nil {α : Type} {l : List α} (h : l ≠ []) (a b : α) :
    l.getLastD a = l.getLastD b := by
  rw [List.getLastD_eq_getLast?, List.getLastD_eq_getLast?, List.getLast?_eq_some_getLast h]
  rfl

/-- The state of the first device after a visit. -/
def Visit.lastState (first_dev_state : Text) (v : Visit) : Text :=
  (v.rounds.getLastD (first_dev_state, [])).1

/-- The loop over the devices, by the visits. -/
theorem waitDevices_eq (replies : Nat → Option Text) (first_dev : Text) (devices : List Text)
    (first_dev_state : Text) (seen : Seen) :
    waitDevices replies first_dev devices first_dev_state seen =
      ((visits replies devices seen.length).foldl Visit.lastState first_dev_state,
        seen ++ (visits replies devices seen.length).flatMap (Visit.seen first_dev)) := by
  induction devices generalizing first_dev_state seen with
  | nil => simp [waitDevices, visits]
  | cons dev devices ih =>
      let v : Visit := ⟨dev, roundsFrom replies seen.length STATE_WAIT_RETRY_COUNT⟩
      have hne : v.rounds ≠ [] := roundsFrom_ne_nil replies seen.length 9
      have hlast := getLastD_of_ne_nil hne (first_dev_state, []) ([], [])
      have hgiven : (0 + v.rounds.length = STATE_WAIT_RETRY_COUNT ∧
          (v.rounds.getLastD (first_dev_state, [])).2 ≠
            (v.rounds.getLastD (first_dev_state, [])).1) ↔ v.GivenUp := by
        rw [Visit.GivenUp, hlast, Nat.zero_add]
      have hlength : (seen ++ v.seen first_dev).length = seen.length + 2 * v.rounds.length := by
        rw [List.length_append, length_seen]
      simp only [waitDevices, retry_eq, visits]
      by_cases hup : v.GivenUp
      · rw [if_pos (hgiven.mpr hup), if_pos hup, List.foldl_cons, List.flatMap_cons,
          List.flatMap_nil, List.append_nil]
        rfl
      · rw [if_neg (fun h => hup (hgiven.mp h)), if_neg hup, List.foldl_cons, List.flatMap_cons,
          ih, hlength, List.append_assoc]
        rfl

/-- Rounds that end early end in agreement. -/
theorem agree_of_length_lt (replies : Nat → Option Text) (start left : Nat)
    (h : (roundsFrom replies start left).length < left) (default : Text × Text) :
    ((roundsFrom replies start left).getLastD default).2 =
      ((roundsFrom replies start left).getLastD default).1 := by
  induction left generalizing start default with
  | zero => exact absurd h (Nat.not_lt_zero _)
  | succ left ih =>
      rw [roundsFrom] at h ⊢
      by_cases hagree : orEmpty (replies (start + 1)) ≠ [] ∧
          orEmpty (replies (start + 1)) = orEmpty (replies start)
      · rw [if_pos hagree]
        exact hagree.2
      · rw [if_neg hagree] at h ⊢
        rw [List.getLastD_cons]
        exact ih (start + 2) (Nat.lt_of_succ_lt_succ h) _

theorem length_roundsFrom_le (replies : Nat → Option Text) (start left : Nat) :
    (roundsFrom replies start left).length ≤ left := by
  induction left generalizing start with
  | zero => exact Nat.le_refl 0
  | succ left ih =>
      rw [roundsFrom]
      split
      · exact Nat.succ_le_succ (Nat.zero_le left)
      · exact Nat.succ_le_succ (ih (start + 2))

theorem rounds_of_mem_visits {replies : Nat → Option Text} {devices : List Text} {start : Nat}
    {v : Visit} (h : v ∈ visits replies devices start) :
    ∃ begin, v.rounds = roundsFrom replies begin STATE_WAIT_RETRY_COUNT := by
  induction devices generalizing start with
  | nil => cases h
  | cons dev devices ih =>
      rw [visits, List.mem_cons] at h
      cases h with
      | inl heq => exact ⟨start, by rw [heq]⟩
      | inr htail =>
          split at htail
          · cases htail
          · exact ih htail

theorem rounds_ne_nil_of_mem {replies : Nat → Option Text} {devices : List Text} {start : Nat}
    {v : Visit} (h : v ∈ visits replies devices start) : v.rounds ≠ [] := by
  obtain ⟨begin, hrounds⟩ := rounds_of_mem_visits h
  rw [hrounds]
  exact roundsFrom_ne_nil replies begin 9

/-- A device that is not given up agrees with the first one in its last round. -/
theorem agree_of_not_givenUp {replies : Nat → Option Text} {devices : List Text} {start : Nat}
    {v : Visit} (h : v ∈ visits replies devices start) (hup : ¬v.GivenUp) :
    (v.rounds.getLastD ([], [])).2 = (v.rounds.getLastD ([], [])).1 := by
  obtain ⟨begin, hrounds⟩ := rounds_of_mem_visits h
  have hle := length_roundsFrom_le replies begin STATE_WAIT_RETRY_COUNT
  cases Nat.lt_or_eq_of_le hle with
  | inl hlt =>
      rw [hrounds]
      exact agree_of_length_lt replies begin _ hlt _
  | inr heq =>
      apply Classical.byContradiction
      intro hne
      exact hup ⟨by rw [hrounds, heq], hne⟩

/-- Where no device is given up, all are compared. -/
theorem exists_visit {replies : Nat → Option Text} {devices : List Text} {start : Nat}
    (hkept : ∀ v ∈ visits replies devices start, ¬v.GivenUp) {dev : Text} (hdev : dev ∈ devices) :
    ∃ v ∈ visits replies devices start, v.dev = dev := by
  induction devices generalizing start with
  | nil => cases hdev
  | cons first devices ih =>
      rw [visits] at hkept ⊢
      have hfirst := hkept _ List.mem_cons_self
      rw [if_neg hfirst] at hkept ⊢
      cases List.mem_cons.mp hdev with
      | inl heq => exact ⟨_, List.mem_cons_self, heq.symm⟩
      | inr hrest =>
          obtain ⟨v, hv, hname⟩ := ih (fun v hv => hkept v (List.mem_cons_of_mem _ hv)) hrest
          exact ⟨v, List.mem_cons_of_mem _ hv, hname⟩

/-- The state of the first device in the last round of all. -/
def finalState (vs : List Visit) : Text := vs.foldl Visit.lastState []

theorem finalState_concat (vs : List Visit) {v : Visit} (hne : v.rounds ≠ []) :
    finalState (vs ++ [v]) = (v.rounds.getLastD ([], [])).1 := by
  rw [finalState, List.foldl_append, List.foldl_cons, List.foldl_nil, Visit.lastState,
    getLastD_of_ne_nil hne _ ([], [])]

theorem mem_seen_iff (first_dev dev state : Text) (v : Visit) :
    (dev, state) ∈ v.seen first_dev ↔
      (dev = first_dev ∧ ∃ round ∈ v.rounds, round.1 = state) ∨
        (v.dev = dev ∧ ∃ round ∈ v.rounds, round.2 = state) := by
  simp only [Visit.seen, List.mem_flatMap, List.mem_cons, List.not_mem_nil, or_false,
    Prod.mk.injEq]
  constructor
  · rintro ⟨round, hround, ⟨hdev, hstate⟩ | ⟨hdev, hstate⟩⟩
    · exact Or.inl ⟨hdev, round, hround, hstate.symm⟩
    · exact Or.inr ⟨hdev.symm, round, hround, hstate.symm⟩
  · rintro (⟨hdev, round, hround, hstate⟩ | ⟨hdev, round, hround, hstate⟩)
    · exact ⟨round, hround, Or.inl ⟨hdev, hstate.symm⟩⟩
    · exact ⟨round, hround, Or.inr ⟨hdev.symm, hstate.symm⟩⟩

theorem getLastD_mem {α : Type} {l : List α} (h : l ≠ []) (a : α) : l.getLastD a ∈ l := by
  rw [List.getLastD_eq_getLast?, List.getLast?_eq_some_getLast h]
  exact List.getLast_mem h

/-- What is asked of `state_wait`: it does not stay silent about a device that never
was in the state. -/
def SilentIfConsistent (replies : Nat → Option Text) (devices : List Text) (req_state : Text) :
    Prop :=
  stateWaitPrints replies devices req_state = false →
    ∀ dev ∈ devices, Replied replies devices dev req_state

/-- No device is given up, and the first device is in one state at the end of every wait. -/
structure Steady (replies : Nat → Option Text) (devices : List Text) : Prop where
  kept : ∀ v ∈ visits replies devices 0, ¬v.GivenUp
  first : ∀ v ∈ visits replies devices 0, ∀ w ∈ visits replies devices 0,
    v.lastState [] = w.lastState []

theorem stateConsistencyWait_eq (replies : Nat → Option Text) (first_dev : Text)
    (others : List Text) :
    stateConsistencyWait replies (first_dev :: others) =
      (finalState (visits replies (first_dev :: others) 0),
        (visits replies (first_dev :: others) 0).flatMap (Visit.seen first_dev)) :=
  waitDevices_eq replies first_dev (first_dev :: others) [] []

/-- The state that is returned is that of the first device at the end of any wait. -/
theorem Steady.finalState_eq {replies : Nat → Option Text} {devices : List Text}
    (h : Steady replies devices) {v : Visit} (hv : v ∈ visits replies devices 0) :
    finalState (visits replies devices 0) = v.lastState [] := by
  have hvisits := List.ne_nil_of_mem hv
  have hlast := List.getLast_mem hvisits
  conv_lhs => rw [← List.dropLast_append_getLast hvisits]
  rw [finalState_concat _ (rounds_ne_nil_of_mem hlast)]
  exact h.first _ hlast v hv

end Processwatchdog
end Userworks
