import Mathlib.Data.List.Basic

/-!
Streams that arrive in pieces.

A reader is given the pieces of a stream in turn, with timeouts between them. A read of
`n` elements takes pieces, and a part of the last one, until it has them, and gives up
at a timeout. What it has got and what it has left make up the stream in every case;
how many timeouts stand before the `n`-th element says how often it has to be repeated.
-/
namespace Userworks

/-- A piece of the stream, which is never empty, or a timeout. -/
inductive Arrival (α : Type) where
  | data (first : α) (more : List α)
  | timeout
  deriving DecidableEq

namespace Arrival

variable {α : Type}

/-- The stream that has arrived in the end. -/
def content : List (Arrival α) → List α
  | [] => []
  | .data first more :: rest => first :: (more ++ content rest)
  | .timeout :: rest => content rest

/-- What was not taken of a piece stays in front of the others. -/
def putBack : List α → List (Arrival α) → List (Arrival α)
  | [], rest => rest
  | first :: more, rest => .data first more :: rest

/-- The arrivals behind the `n`-th element of the stream. -/
def skip : Nat → List (Arrival α) → List (Arrival α)
  | 0, arrivals => arrivals
  | _ + 1, [] => []
  | n + 1, .timeout :: rest => skip (n + 1) rest
  | n + 1, .data _ more :: rest =>
      if n < more.length then putBack (more.drop n) rest else skip (n - more.length) rest

/-- The timeouts before the `n`-th element; those that no element follows do not count. -/
def timeouts : Nat → List (Arrival α) → Nat
  | 0, _ => 0
  | _ + 1, [] => 0
  | n + 1, .timeout :: rest => if content rest = [] then 0 else timeouts (n + 1) rest + 1
  | n + 1, .data _ more :: rest => timeouts (n - more.length) rest

/-- How a read ends. -/
inductive Ending where
  | full
  | timeout
  | exhausted
  deriving DecidableEq

structure Reading (α : Type) where
  data : List α
  ending : Ending
  rest : List (Arrival α)

def read : Nat → List (Arrival α) → Reading α
  | 0, arrivals => { data := [], ending := .full, rest := arrivals }
  | _ + 1, [] => { data := [], ending := .exhausted, rest := [] }
  | _ + 1, .timeout :: rest => { data := [], ending := .timeout, rest }
  | n + 1, .data first more :: rest =>
      if n < more.length then
        { data := first :: more.take n, ending := .full, rest := putBack (more.drop n) rest }
      else
        let later := read (n - more.length) rest
        { later with data := first :: (more ++ later.data) }

@[simp] theorem content_putBack (part : List α) (rest : List (Arrival α)) :
    content (putBack part rest) = part ++ content rest := by
  cases part <;> rfl

/-- Nothing of the stream is lost or read twice. -/
theorem read_append (n : Nat) (arrivals : List (Arrival α)) :
    (read n arrivals).data ++ content (read n arrivals).rest = content arrivals := by
  fun_induction read n arrivals with
  | case1 => rfl
  | case2 => rfl
  | case3 => rfl
  | case4 n first more rest hlt =>
      rw [content_putBack, content, List.cons_append, ← List.append_assoc, List.take_append_drop]
  | case5 n first more rest hlt later ih =>
      rw [content, ← ih, List.cons_append, List.append_assoc]

theorem length_read_le (n : Nat) (arrivals : List (Arrival α)) :
    (read n arrivals).data.length ≤ n := by
  fun_induction read n arrivals with
  | case1 => exact Nat.le_refl 0
  | case2 => exact Nat.zero_le _
  | case3 => exact Nat.zero_le _
  | case4 n first more rest hlt =>
      rw [List.length_cons, List.length_take]
      omega
  | case5 n first more rest hlt later ih =>
      have hlater : later.data.length ≤ n - more.length := ih
      rw [List.length_cons, List.length_append]
      omega

theorem ending_full_iff (n : Nat) (arrivals : List (Arrival α)) :
    (read n arrivals).ending = .full ↔ (read n arrivals).data.length = n := by
  fun_induction read n arrivals with
  | case1 => simp
  | case2 => simp
  | case3 => simp
  | case4 n first more rest hlt =>
      rw [List.length_cons, List.length_take, Nat.min_eq_left (Nat.le_of_lt hlt)]
      simp
  | case5 n first more rest hlt later ih =>
      have hlater : later.ending = .full ↔ later.data.length = n - more.length := ih
      rw [hlater, List.length_cons, List.length_append]
      omega

/-- A read that runs out of pieces has met no timeout. -/
theorem read_exhausted {n : Nat} {arrivals : List (Arrival α)}
    (h : (read n arrivals).ending = .exhausted) :
    (read n arrivals).rest = [] ∧ timeout ∉ arrivals := by
  fun_induction read n arrivals with
  | case1 => cases h
  | case2 => exact ⟨rfl, List.not_mem_nil⟩
  | case3 => cases h
  | case4 => cases h
  | case5 n first more rest hlt later ih =>
      have hrest := ih h
      refine ⟨hrest.1, ?_⟩
      intro hmem
      cases hmem with
      | tail _ hmem => exact hrest.2 hmem

theorem mem_of_read_timeout {n : Nat} {arrivals : List (Arrival α)}
    (h : (read n arrivals).ending = .timeout) : timeout ∈ arrivals := by
  fun_induction read n arrivals with
  | case1 => cases h
  | case2 => cases h
  | case3 => exact List.mem_cons_self
  | case4 => cases h
  | case5 n first more rest hlt later ih => exact List.mem_cons_of_mem _ (ih h)

/-- A read that no timeout interrupts gives the beginning of the stream. -/
theorem read_take {n : Nat} {arrivals : List (Arrival α)} (h : timeouts n arrivals = 0) :
    (read n arrivals).data = (content arrivals).take n := by
  fun_induction read n arrivals with
  | case1 => rfl
  | case2 => rfl
  | case3 n rest =>
      rw [timeouts] at h
      split at h
      · rename_i hnil
        rw [content, hnil]
        rfl
      · cases h
  | case4 n first more rest hlt =>
      rw [content, List.take_succ_cons, List.take_append_of_le_length (Nat.le_of_lt hlt)]
  | case5 n first more rest hlt later ih =>
      rw [content, List.take_succ_cons, List.take_append, ih h,
        List.take_of_length_le (Nat.le_of_not_lt hlt)]

theorem read_skip {n : Nat} {arrivals : List (Arrival α)} (h : timeouts n arrivals = 0)
    (hn : n ≤ (content arrivals).length) : (read n arrivals).rest = skip n arrivals := by
  fun_induction read n arrivals with
  | case1 arrivals => rw [skip]
  | case2 => rfl
  | case3 n rest =>
      rw [timeouts] at h
      split at h
      · rename_i hnil
        rw [content, hnil] at hn
        cases hn
      · cases h
  | case4 n first more rest hlt => rw [skip, if_pos hlt]
  | case5 n first more rest hlt later ih =>
      rw [content, List.length_cons, List.length_append] at hn
      rw [skip, if_neg hlt]
      exact ih h (by omega)

/-- A read that is interrupted goes on behind the timeout, with one timeout less. -/
theorem read_interrupted {n k : Nat} {arrivals : List (Arrival α)}
    (h : timeouts n arrivals = k + 1) :
    (read n arrivals).ending = .timeout ∧
    timeouts (n - (read n arrivals).data.length) (read n arrivals).rest = k ∧
    skip (n - (read n arrivals).data.length) (read n arrivals).rest = skip n arrivals := by
  fun_induction read n arrivals with
  | case1 arrivals =>
      rw [timeouts] at h
      cases h
  | case2 => cases h
  | case3 n rest =>
      rw [timeouts] at h
      split at h
      · cases h
      · exact ⟨rfl, Nat.succ.inj h, rfl⟩
  | case4 n first more rest hlt =>
      rw [timeouts, Nat.sub_eq_zero_of_le (Nat.le_of_lt hlt), timeouts] at h
      cases h
  | case5 n first more rest hlt later ih =>
      have hleft : n + 1 - (first :: (more ++ later.data)).length =
          n - more.length - later.data.length := by
        rw [List.length_cons, List.length_append]
        omega
      rw [timeouts] at h
      rw [hleft, skip, if_neg hlt]
      exact ih h

theorem timeouts_eq_zero {n : Nat} {arrivals : List (Arrival α)} (h : timeout ∉ arrivals) :
    timeouts n arrivals = 0 := by
  cases hcount : timeouts n arrivals with
  | zero => rfl
  | succ k => exact absurd (mem_of_read_timeout (read_interrupted hcount).1) h

end Arrival
end Userworks
