import Mathlib.Data.List.Basic

/-!
Collecting items in groups of a fixed size, where a group can be given up.

The items that come are put into the group at hand, which is delivered as soon as it is
complete. A group that is given up before that is the last one: from then on every item
is dropped. So what was delivered is a first part of what came, cut into groups in
order, and nothing is delivered after a group was given up.
-/
namespace Userworks

variable {α : Type}

inductive Fate (α : Type) where
  | delivered (group : List α)
  | givenUp (group : List α)
  | dropped (item : α)
  deriving DecidableEq

structure Collector (α : Type) where
  group : List α := []
  fates : List (Fate α) := []
  closed : Bool := false

namespace Collector

/-- What can happen, with the items that come with it. -/
inductive Step (size : Nat) (c : Collector α) : List α → Collector α → Prop where
  | idle : Step size c [] c
  | join {item : α} : c.closed = false → (c.group ++ [item]).length < size →
      Step size c [item] { c with group := c.group ++ [item] }
  | deliver {item : α} : c.closed = false → (c.group ++ [item]).length = size →
      Step size c [item]
        { c with group := [], fates := c.fates ++ [.delivered (c.group ++ [item])] }
  | giveUp {items : List α} : c.closed = false → c.group ++ items ≠ [] →
      (c.group ++ items).length < size →
      Step size c items
        { group := [], fates := c.fates ++ [.givenUp (c.group ++ items)], closed := true }
  | drop {item : α} : c.closed = true →
      Step size c [item] { c with fates := c.fates ++ [.dropped item] }

/-- One look at the group at hand: a complete one is delivered, another one can be given
up. -/
inductive Look (size : Nat) (c : Collector α) : Collector α → Prop where
  | kept : c.group.length ≠ size → Look size c c
  | delivered : c.group.length = size →
      Look size c { c with group := [], fates := c.fates ++ [.delivered c.group] }
  | givenUp : c.group.length ≠ size → c.group ≠ [] →
      Look size c { group := [], fates := c.fates ++ [.givenUp c.group], closed := true }

/-- What has become of the items that came. -/
inductive Settled (size : Nat) (received : List α) (c : Collector α) : Prop where
  | collecting (groups : List (List α)) :
      (∀ group ∈ groups, group.length = size) →
      received = groups.flatten ++ c.group → c.group.length < size →
      c.fates = groups.map .delivered → c.closed = false → Settled size received c
  | closed (groups : List (List α)) (part late : List α) :
      (∀ group ∈ groups, group.length = size) →
      received = groups.flatten ++ part ++ late → part ≠ [] → part.length < size →
      c.group = [] → c.fates = groups.map .delivered ++ .givenUp part :: late.map .dropped →
      c.closed = true → Settled size received c

section Look

variable {size : Nat} {c c' : Collector α} {item : α}

theorem Look.idle (hroom : c.group.length < size) (hclosed : c.closed = true → c.group = [])
    (h : Look size c c') : Step size c [] c' := by
  cases h with
  | kept => exact .idle
  | delivered hfull => omega
  | givenUp _ hsome =>
      have hopen : c.closed = false := by
        rw [← Bool.not_eq_true]
        exact fun hshut => hsome (hclosed hshut)
      have hstep := @Step.giveUp α size c [] hopen (by rwa [List.append_nil])
        (by rwa [List.append_nil])
      rwa [List.append_nil] at hstep

theorem Look.join (hroom : c.group.length < size) (hopen : c.closed = false)
    (h : Look size { c with group := c.group ++ [item] } c') : Step size c [item] c' := by
  have hle : (c.group ++ [item]).length ≤ size := by
    rw [List.length_append]
    exact hroom
  cases h with
  | kept hshort => exact .join hopen (Nat.lt_of_le_of_ne hle hshort)
  | delivered hfull => exact .deliver hopen hfull
  | givenUp hshort hsome => exact .giveUp hopen hsome (Nat.lt_of_le_of_ne hle hshort)

theorem Look.drop (hroom : c.group.length < size) (hshut : c.closed = true)
    (hgroup : c.group = []) (h : Look size { c with fates := c.fates ++ [.dropped item] } c') :
    Step size c [item] c' := by
  cases h with
  | kept => exact .drop hshut
  | delivered hfull => exact absurd hfull (Nat.ne_of_lt hroom)
  | givenUp _ hsome => exact absurd hgroup hsome

end Look

/-- The group at hand is not complete, and there is none after one was given up. -/
theorem Settled.room {size : Nat} {received : List α} {c : Collector α} (hsize : 0 < size)
    (h : Settled size received c) :
    c.group.length < size ∧ (c.closed = true → c.group = []) := by
  cases h with
  | collecting _ _ _ hroom _ hopen =>
      refine ⟨hroom, fun hshut => ?_⟩
      rw [hopen] at hshut
      cases hshut
  | closed _ _ _ _ _ _ _ hgroup =>
      rw [hgroup]
      exact ⟨hsize, fun _ => rfl⟩

theorem Settled.step {size : Nat} {received items : List α} {c c' : Collector α}
    (hsize : 0 < size) (h : Settled size received c) (hstep : Step size c items c') :
    Settled size (received ++ items) c' := by
  cases h with
  | collecting groups hgroups hreceived hroom hfates hopen =>
      cases hstep with
      | idle =>
          refine .collecting groups hgroups ?_ hroom hfates hopen
          rw [hreceived, List.append_nil]
      | join _ hlength =>
          refine .collecting groups hgroups ?_ hlength hfates hopen
          rw [hreceived, List.append_assoc]
      | @deliver item _ hlength =>
          refine .collecting (groups ++ [c.group ++ [item]]) ?_ ?_ hsize ?_ hopen
          · intro group hgroup
            cases List.mem_append.mp hgroup with
            | inl hgroup => exact hgroups group hgroup
            | inr hgroup =>
                rw [List.mem_singleton.mp hgroup]
                exact hlength
          · rw [hreceived]
            simp
          · rw [hfates]
            simp
      | giveUp _ hsome hshort =>
          refine .closed groups _ [] hgroups ?_ hsome hshort rfl ?_ rfl
          · rw [hreceived, List.append_nil, List.append_assoc]
          · rw [hfates]
            rfl
      | drop hclosed =>
          rw [hopen] at hclosed
          cases hclosed
  | closed groups part late hgroups hreceived hsome hshort hgroup hfates hclosed =>
      cases hstep with
      | idle =>
          refine .closed groups part late hgroups ?_ hsome hshort hgroup hfates hclosed
          rw [hreceived, List.append_nil]
      | join hopen | deliver hopen | giveUp hopen =>
          rw [hclosed] at hopen
          cases hopen
      | @drop item _ =>
          refine .closed groups part (late ++ [item]) hgroups ?_ hsome hshort hgroup ?_ hclosed
          · rw [hreceived, List.append_assoc]
          · rw [hfates]
            simp

theorem groups_of_few {size : Nat} {groups : List (List α)} {rest : List α} (hsize : 0 < size)
    (hgroups : ∀ group ∈ groups, group.length = size)
    (hfew : (groups.flatten ++ rest).length ≤ size) :
    groups = [] ∨ ∃ group, groups = [group] ∧ group.length = size ∧ rest = [] := by
  cases groups with
  | nil => exact Or.inl rfl
  | cons group groups =>
      have hfull := hgroups group List.mem_cons_self
      rw [List.flatten_cons, List.append_assoc, List.length_append, List.length_append,
        hfull] at hfew
      refine Or.inr ⟨group, ?_, hfull, List.length_eq_zero_iff.mp (by omega)⟩
      cases groups with
      | nil => rfl
      | cons next groups =>
          have hnext := hgroups next (List.mem_cons_of_mem _ List.mem_cons_self)
          rw [List.flatten_cons, List.length_append, hnext] at hfew
          omega

/-- With no more items than make up a group, there is at most one group. -/
theorem Settled.of_few {size : Nat} {received : List α} {c : Collector α} (hsize : 0 < size)
    (hfew : received.length ≤ size) (h : Settled size received c) :
    (received.length < size ∧ c.fates = []) ∨
      (received.length = size ∧ c.fates = [.delivered received]) ∨
      ∃ part late, received = part ++ late ∧ part.length < size ∧
        c.fates = .givenUp part :: late.map .dropped := by
  cases h with
  | collecting groups hgroups hreceived hroom hfates =>
      cases groups_of_few hsize hgroups (hreceived ▸ hfew) with
      | inl hnone =>
          subst hnone
          rw [hreceived, hfates]
          exact Or.inl ⟨hroom, rfl⟩
      | inr hone =>
          obtain ⟨group, rfl, hfull, hrest⟩ := hone
          have hall : received = group := by
            rw [hreceived, hrest, List.flatten_singleton, List.append_nil]
          rw [hall]
          exact Or.inr (Or.inl ⟨hfull, hfates⟩)
  | closed groups part late hgroups hreceived hsome hshort _ hfates =>
      rw [List.append_assoc] at hreceived
      cases groups_of_few hsize hgroups (hreceived ▸ hfew) with
      | inl hnone =>
          subst hnone
          exact Or.inr (Or.inr ⟨part, late, hreceived, hshort, hfates⟩)
      | inr hone =>
          obtain ⟨-, -, -, hrest⟩ := hone
          exact absurd (List.append_eq_nil_iff.mp hrest).1 hsome

end Collector
end Userworks
