import Mathlib.InformationTheory.Hamming
import Userworks.Lib.Parity

/-!
The parity bits of a data word, `src/utility/ecc.h`. `reorderBits` spreads the
data bits over the positions that are no powers of two, `eccSingle` takes the
check of every power of two, and `encodeEcc` adds the parity of everything.
-/
namespace Userworks.Ecc

variable {n ni no dsize psize : Nat}

/-! ### The source -/

/-- `bits[i] = v` -/
def assignBit (bits : BitVec n) (i : Nat) (v : Bool) : BitVec n :=
  if v then bits ||| BitVec.twoPow n i else bits &&& ~~~BitVec.twoPow n i

/-- One turn of the loop over the data, which carries `dl` from turn to turn. -/
def reorderStep (d : BitVec dsize) (state : BitVec n × Nat) (i : Nat) : BitVec n × Nat :=
  let rhigh := n - 1
  let hh := if rhigh < 2 ^ (i + 1) then rhigh else 2 ^ (i + 1) - 1
  let hl := 2 ^ i + 1
  let dl := 2 ^ (i - 1) - 1 + state.2
  ((List.range (hh + 1 - hl)).foldl
    (fun ret j => assignBit ret (hl + j) (d.getLsbD (dl + j))) state.1, dl)

def reorderBits (d : BitVec dsize) (p : BitVec psize) : BitVec (dsize + psize) :=
  let phigh := psize - 1
  let ret := assignBit 0 0 (p.getLsbD 0)
  let ret := (List.range' 1 phigh).foldl
    (fun ret i => assignBit ret (2 ^ (i - 1)) (p.getLsbD i)) ret
  ((List.range' 1 (phigh - 1)).foldl (reorderStep d) (ret, 0)).1

def eccSingle (h : BitVec (ni + no)) (_d : BitVec ni) : BitVec no :=
  let hhigh := ni + no - 1
  let rhigh := no - 1
  (List.range' 1 rhigh).foldl (fun ret i =>
    (List.range (hhigh / 2 ^ i + 1)).foldl (fun ret j =>
      (List.range (2 ^ (i - 1))).foldl (fun ret k =>
        let hidx := 2 ^ i * j + 2 ^ (i - 1) + k
        if hidx < hhigh then assignBit ret i (ret.getLsbD i ^^ h.getLsbD hidx) else ret) ret) ret) 0

def encodeBits (no : Nat) (d : BitVec ni) : BitVec no :=
  let h := reorderBits d (0 : BitVec no)
  let ret := eccSingle h d
  let ret := (List.range ni).foldl
    (fun ret i => assignBit ret 0 (ret.getLsbD 0 ^^ d.getLsbD i)) ret
  (List.range' 1 (no - 1)).foldl
    (fun ret i => assignBit ret 0 (ret.getLsbD 0 ^^ ret.getLsbD i)) ret

/-- The loops shift `1`, an `int`, by up to `no - 1` places: from 32 places on that
has no meaning. At 31 places the quotient and the product with it are zero all the same. -/
def encodeEcc (no : Nat) (d : BitVec ni) : Option (BitVec no) :=
  if 32 < no then none else some (encodeBits no d)

/-! ### Codewords -/

def bits (x : BitVec n) : Fin n → Bool := fun i => x.getLsbD i

/-- In how many bit positions two pairs of data and parity bits differ. -/
def distance (c c' : BitVec ni × BitVec no) : Nat :=
  hammingDist (bits c.1) (bits c'.1) + hammingDist (bits c.2) (bits c'.2)

def CorrectsAndDetects (ni no : Nat) : Prop :=
  ∀ d d' : BitVec ni, d ≠ d' → ∃ r r', encodeEcc no d = some r ∧ encodeEcc no d' = some r' ∧
    4 ≤ distance (d, r) (d', r')

/-! ### Assigning bits in a loop -/

@[simp] theorem getLsbD_assignBit (x : BitVec n) (i b : Nat) (v : Bool) :
    (assignBit x i v).getLsbD b = if b = i ∧ b < n then v else x.getLsbD b := by
  by_cases hb : b < n
  · by_cases hi : b = i
    · subst hi
      cases v <;> simp [assignBit, hb]
    · cases v <;> simp [assignBit, hb, hi]
  · simp [hb, BitVec.getLsbD_of_ge _ _ (Nat.not_lt.mp hb)]

theorem getLsbD_foldl_copy (f : Nat → Bool) (x : BitVec n) (start count b : Nat) :
    ((List.range count).foldl (fun ret j => assignBit ret (start + j) (f j)) x).getLsbD b =
      if start ≤ b ∧ b < start + count ∧ b < n then f (b - start) else x.getLsbD b := by
  induction count with
  | zero => simp; omega
  | succ count ih =>
      rw [List.range_succ, List.foldl_append, List.foldl_cons, List.foldl_nil, getLsbD_assignBit,
        ih]
      by_cases hb : b = start + count
      · subst hb
        simp
      · have hiff : b < start + (count + 1) ↔ b < start + count := by omega
        simp [hb, hiff]

theorem getLsbD_foldl_flip {α : Type} (f : α → Bool) (x : BitVec n) (i b : Nat) (l : List α) :
    (l.foldl (fun ret a => assignBit ret i (ret.getLsbD i ^^ f a)) x).getLsbD b =
      if b = i ∧ b < n then x.getLsbD i ^^ parity (l.map f) else x.getLsbD b := by
  induction l generalizing x with
  | nil =>
      by_cases hb : b = i ∧ b < n
      · simp [hb.1]
      · simp [hb]
  | cons a l ih =>
      rw [List.foldl_cons, ih]
      by_cases hb : b = i ∧ b < n
      · have hself : b = b ∧ b < n := ⟨rfl, hb.2⟩
        rw [← hb.1, if_pos hself, if_pos hself, getLsbD_assignBit, if_pos hself, List.map_cons,
          parity_cons, Bool.xor_assoc]
      · simp [hb]

/-! ### Where the data bits stand -/

def isData (x : Nat) : Bool := decide (2 ^ x.log2 < x)

/-- The data bit that `reorderBits` puts at position `x`. -/
def dataIndex (x : Nat) : Nat := x - x.log2 - 2

theorem log2_of_block {x i : Nat} (hlow : 2 ^ i ≤ x) (hhigh : x < 2 ^ (i + 1)) : x.log2 = i := by
  have hpos := Nat.two_pow_pos i
  exact (Nat.log2_eq_iff (by omega)).mpr ⟨hlow, hhigh⟩

theorem isData_iff_block {x i : Nat} (hlow : 2 ^ i ≤ x) (hhigh : x < 2 ^ (i + 1)) :
    isData x = true ↔ 2 ^ i < x := by
  rw [isData, log2_of_block hlow hhigh, decide_eq_true_iff]

theorem block_of_isData {x : Nat} (h : isData x = true) :
    2 ^ x.log2 < x ∧ x < 2 ^ (x.log2 + 1) := by
  exact ⟨of_decide_eq_true h, Nat.lt_log2_self⟩

theorem dataIndex_add {x : Nat} (h : isData x = true) : dataIndex x + x.log2 + 2 = x := by
  have hlow := (block_of_isData h).1
  have hlog := @Nat.lt_two_pow_self x.log2
  unfold dataIndex
  omega

/-- The logarithm grows no faster than the number. -/
theorem add_log2_le {x y : Nat} (hxy : x ≤ y) : x + y.log2 ≤ y + x.log2 := by
  induction y, hxy using Nat.le_induction with
  | base => rfl
  | succ y hxy ih =>
      have hpow := @Nat.lt_log2_self y
      have hdouble : 2 ^ (y.log2 + 1 + 1) = 2 * 2 ^ (y.log2 + 1) := by ring
      have hlog : (y + 1).log2 < y.log2 + 1 + 1 := (Nat.log2_lt (by omega)).mpr (by omega)
      omega

/-- Later data positions hold later bits. -/
theorem dataIndex_lt {x y : Nat} (hx : isData x = true) (hy : isData y = true) (hxy : x < y) :
    dataIndex x < dataIndex y := by
  have hxblock := block_of_isData hx
  have hyblock := block_of_isData hy
  have hxadd := dataIndex_add hx
  have hyadd := dataIndex_add hy
  have hbefore : (y - 1).log2 = y.log2 := log2_of_block (by omega) (by omega)
  have hgrow := @add_log2_le x (y - 1) (by omega)
  omega

theorem dataIndex_inj {x y : Nat} (hx : isData x = true) (hy : isData y = true)
    (h : dataIndex x = dataIndex y) : x = y := by
  rcases Nat.lt_trichotomy x y with hlt | heq | hlt
  · exact absurd h (dataIndex_lt hx hy hlt).ne
  · exact heq
  · exact absurd h (dataIndex_lt hy hx hlt).ne'

/-! ### `reorderBits` -/

/-- The positions one turn writes: those above `2 ^ i`, as far as the next power or the end. -/
theorem reorder_written (n i b : Nat) :
    (2 ^ i + 1 ≤ b ∧ b < 2 ^ i + 1 +
      ((if n - 1 < 2 ^ (i + 1) then n - 1 else 2 ^ (i + 1) - 1) + 1 - (2 ^ i + 1)) ∧ b < n) ↔
      2 ^ i < b ∧ b < 2 ^ (i + 1) ∧ b < n := by
  have hpos := Nat.two_pow_pos i
  rw [Nat.pow_succ]
  generalize 2 ^ i = p at hpos
  split <;> omega

/-- Outside the block of a turn no data bit is added. -/
theorem isData_below_block {k b : Nat} (hblock : ¬(2 ^ k < b ∧ b < 2 ^ (k + 1) ∧ b < n)) :
    (isData b = true ∧ b < 2 ^ k ∧ b < n) ↔ isData b = true ∧ b < 2 ^ (k + 1) ∧ b < n := by
  have hdouble : 2 ^ (k + 1) = 2 * 2 ^ k := Nat.pow_succ'
  constructor
  · rintro ⟨hdata, hlt, hn⟩
    exact ⟨hdata, by omega, hn⟩
  · rintro ⟨hdata, hlt, hn⟩
    refine ⟨hdata, ?_, hn⟩
    by_contra hge
    have hinside := (isData_iff_block (Nat.not_lt.mp hge) hlt).mp hdata
    exact hblock ⟨hinside, hlt, hn⟩

theorem reorder_loop (d : BitVec dsize) (x : BitVec n) (turns : Nat) :
    let state := (List.range' 1 turns).foldl (reorderStep d) (x, 0)
    state.2 + turns + 1 = 2 ^ turns ∧ ∀ b, state.1.getLsbD b =
      if isData b = true ∧ b < 2 ^ (turns + 1) ∧ b < n then d.getLsbD (dataIndex b)
      else x.getLsbD b := by
  induction turns with
  | zero =>
      refine ⟨rfl, fun b => ?_⟩
      have hnone : ¬ (isData b = true ∧ b < 2 ^ (0 + 1) ∧ b < n) := by
        rintro ⟨hdata, hlt, -⟩
        have hblock := block_of_isData hdata
        have := @Nat.lt_two_pow_self b.log2
        omega
      rw [if_neg hnone]
      rfl
  | succ turns ih =>
      obtain ⟨hdl, hbits⟩ := ih
      have hlog := @Nat.lt_two_pow_self (turns + 1)
      have hdouble : 2 ^ (turns + 1) = 2 * 2 ^ turns := by ring
      simp only [List.range'_concat, List.foldl_append, List.foldl_cons, List.foldl_nil]
      generalize (List.range' 1 turns).foldl (reorderStep d) (x, 0) = state at hdl hbits
      rw [Nat.one_mul, Nat.add_comm 1 turns]
      constructor
      · simp only [reorderStep, Nat.add_sub_cancel]
        omega
      · intro b
        simp only [reorderStep, Nat.add_sub_cancel]
        rw [getLsbD_foldl_copy fun j => d.getLsbD (2 ^ turns - 1 + state.2 + j), hbits]
        have hwritten := reorder_written n (turns + 1) b
        by_cases hblock : 2 ^ (turns + 1) < b ∧ b < 2 ^ (turns + 1 + 1) ∧ b < n
        · have hlog2 := log2_of_block hblock.1.le hblock.2.1
          have hdata := (isData_iff_block hblock.1.le hblock.2.1).mpr hblock.1
          rw [if_pos (hwritten.mpr hblock), if_pos ⟨hdata, hblock.2⟩]
          congr 1
          rw [dataIndex, hlog2]
          omega
        · rw [if_neg (mt hwritten.mp hblock)]
          rw [if_congr (isData_below_block hblock) rfl rfl]

theorem getLsbD_reorderBits (d : BitVec ni) (hno : 2 ≤ no) (hhigh : ni + no ≤ 2 ^ (no - 1))
    (b : Nat) : (reorderBits d (0 : BitVec no)).getLsbD b =
      (isData b && decide (b < ni + no) && d.getLsbD (dataIndex b)) := by
  have hzero (i j : Nat) :
      assignBit (0 : BitVec (ni + no)) i ((0 : BitVec no).getLsbD j) = 0 := by
    rw [BitVec.ofNat_eq_ofNat, BitVec.ofNat_eq_ofNat, BitVec.getLsbD_zero]
    simp [assignBit]
  have hparity (l : List Nat) : l.foldl (fun (ret : BitVec (ni + no)) i =>
      assignBit ret (2 ^ (i - 1)) ((0 : BitVec no).getLsbD i)) 0 = 0 := by
    induction l with
    | nil => rfl
    | cons i l ih => rw [List.foldl_cons, hzero, ih]
  have hturns : no - 1 - 1 + 1 = no - 1 := by omega
  have hloop := (reorder_loop d (0 : BitVec (ni + no)) (no - 1 - 1)).2 b
  rw [hturns] at hloop
  simp only [reorderBits, hzero, hparity, hloop]
  by_cases hb : b < ni + no
  · have hpow : b < 2 ^ (no - 1) := by omega
    cases hdata : isData b <;> simp [hb, hpow]
  · simp [hb]

/-! ### `eccSingle` -/

/-- Check `s` of `eccSingle`: what stands at the positions below `hhigh` with bit `s` set. -/
def check (h : Nat → Bool) (hhigh s : Nat) : Bool :=
  parity ((List.range hhigh).map fun x => x.testBit s && h x)

theorem parity_below (h : Nat → Bool) {below upTo : Nat} (hle : below ≤ upTo) :
    parity ((List.range upTo).map fun x => decide (x < below) && h x) =
      parity ((List.range below).map h) := by
  obtain ⟨more, rfl⟩ := Nat.exists_eq_add_of_le hle
  rw [List.range_add, List.map_append, parity_append]
  have hbelow : (List.range below).map (fun x => decide (x < below) && h x) =
      (List.range below).map h := by
    apply List.map_congr_left
    intro x hx
    simp [List.mem_range.mp hx]
  have habove : parity (((List.range more).map (below + ·)).map
      fun x => decide (x < below) && h x) = false := by
    simp only [List.map_map]
    induction List.range more with
    | nil => rfl
    | cons x l ih => simpa using ih
  rw [hbelow, habove, Bool.xor_false]

theorem assignBit_self (x : BitVec n) (i : Nat) : assignBit x i (x.getLsbD i) = x := by
  apply BitVec.eq_of_getLsbD_eq
  intro b hb
  rw [getLsbD_assignBit]
  split
  · next heq => rw [heq.1]
  · rfl

/-- The two inner loops walk through the positions with bit `s` set, block by block. -/
theorem eccSingle_blocks (h : BitVec (ni + no)) (ret : BitVec no) (hhigh s : Nat) :
    (List.range (hhigh / 2 ^ (1 + s) + 1)).foldl (fun ret j =>
      (List.range (2 ^ (1 + s - 1))).foldl (fun ret k =>
        let hidx := 2 ^ (1 + s) * j + 2 ^ (1 + s - 1) + k
        if hidx < hhigh then assignBit ret (1 + s) (ret.getLsbD (1 + s) ^^ h.getLsbD hidx)
        else ret) ret) ret =
    ((List.range (2 ^ (s + 1) * (hhigh / 2 ^ (s + 1) + 1))).filter (·.testBit s)).foldl
      (fun ret x => assignBit ret (1 + s)
        (ret.getLsbD (1 + s) ^^ (decide (x < hhigh) && h.getLsbD x))) ret := by
  rw [filter_testBit_range, List.foldl_flatMap, Nat.add_sub_cancel_left, Nat.add_comm 1 s]
  congr 1
  funext ret j
  rw [List.foldl_map]
  congr 1
  funext ret k
  by_cases hlt : 2 ^ (s + 1) * j + 2 ^ s + k < hhigh
  · simp [hlt]
  · simp [hlt, assignBit_self]

theorem check_eq_blocks (h : Nat → Bool) (hhigh s : Nat) :
    parity (((List.range (2 ^ (s + 1) * (hhigh / 2 ^ (s + 1) + 1))).filter (·.testBit s)).map
      fun x => decide (x < hhigh) && h x) = check h hhigh s := by
  have hle : hhigh ≤ 2 ^ (s + 1) * (hhigh / 2 ^ (s + 1) + 1) :=
    (Nat.lt_mul_div_succ hhigh (Nat.two_pow_pos (s + 1))).le
  rw [parity_map_filter, check, ← parity_below _ hle]
  congr 2
  funext x
  exact Bool.and_left_comm _ _ _

/-- Parity bit `b` is check `b - 1`. -/
theorem getLsbD_eccSingle (h : BitVec (ni + no)) (d : BitVec ni) (b : Nat) :
    (eccSingle h d).getLsbD b =
      (decide (1 ≤ b ∧ b < no) && check h.getLsbD (ni + no - 1) (b - 1)) := by
  have hloop (turns b : Nat) : ((List.range turns).foldl (fun ret s =>
      ((List.range (2 ^ (s + 1) * ((ni + no - 1) / 2 ^ (s + 1) + 1))).filter (·.testBit s)).foldl
        (fun ret x => assignBit ret (1 + s)
          (ret.getLsbD (1 + s) ^^ (decide (x < ni + no - 1) && h.getLsbD x))) ret)
      (0 : BitVec no)).getLsbD b =
      (decide (1 ≤ b ∧ b ≤ turns ∧ b < no) && check h.getLsbD (ni + no - 1) (b - 1)) := by
    induction turns generalizing b with
    | zero =>
        have hnone : ¬ (1 ≤ b ∧ b ≤ 0 ∧ b < no) := by omega
        rw [decide_eq_false hnone]
        exact BitVec.getLsbD_zero
    | succ turns ih =>
        rw [List.range_succ, List.foldl_append, List.foldl_cons, List.foldl_nil,
          getLsbD_foldl_flip, check_eq_blocks, ih, ih]
        by_cases hb : b = 1 + turns ∧ b < no
        · have hearlier : ¬ (1 ≤ 1 + turns ∧ 1 + turns ≤ turns ∧ 1 + turns < no) := by omega
          have hnow : 1 ≤ b ∧ b ≤ turns + 1 ∧ b < no := by omega
          rw [if_pos hb, decide_eq_false hearlier, decide_eq_true hnow, hb.1]
          simp
        · have hiff : (1 ≤ b ∧ b ≤ turns ∧ b < no) ↔ (1 ≤ b ∧ b ≤ turns + 1 ∧ b < no) := by omega
          rw [if_neg hb, decide_eq_decide.mpr hiff]
  have hrange : (1 ≤ b ∧ b ≤ no - 1 ∧ b < no) ↔ (1 ≤ b ∧ b < no) := by omega
  rw [eccSingle, List.range'_eq_map_range, List.foldl_map]
  simp only [eccSingle_blocks]
  rw [hloop, decide_eq_decide.mpr hrange]

/-! ### `encodeEcc` -/

/-- The last loop reads other bits than the one it writes. -/
theorem foldl_flip_own (x : BitVec n) (l : List Nat) (hl : 0 ∉ l) :
    l.foldl (fun ret i => assignBit ret 0 (ret.getLsbD 0 ^^ ret.getLsbD i)) x =
      l.foldl (fun ret i => assignBit ret 0 (ret.getLsbD 0 ^^ x.getLsbD i)) x := by
  have hgeneral (y : BitVec n) (hy : ∀ i, i ≠ 0 → y.getLsbD i = x.getLsbD i) :
      l.foldl (fun ret i => assignBit ret 0 (ret.getLsbD 0 ^^ ret.getLsbD i)) y =
        l.foldl (fun ret i => assignBit ret 0 (ret.getLsbD 0 ^^ x.getLsbD i)) y := by
    induction l generalizing y with
    | nil => rfl
    | cons i l ih =>
        rw [List.mem_cons, not_or] at hl
        obtain ⟨hi, hl⟩ := hl
        rw [List.foldl_cons, List.foldl_cons, hy i (Ne.symm hi)]
        apply ih hl
        intro j hj
        rw [getLsbD_assignBit, if_neg (fun h => hj h.1), hy j hj]
  exact hgeneral x fun _ _ => rfl

theorem getLsbD_encodeBits_succ (d : BitVec ni) (s : Nat) (hs : s + 1 < no) :
    (encodeBits no d).getLsbD (s + 1) =
      check (reorderBits d (0 : BitVec no)).getLsbD (ni + no - 1) s := by
  have hl : 0 ∉ List.range' 1 (no - 1) := by simp
  simp only [encodeBits]
  rw [foldl_flip_own _ _ hl, getLsbD_foldl_flip, if_neg (by omega), getLsbD_foldl_flip,
    if_neg (by omega), getLsbD_eccSingle]
  simp [hs]

theorem getLsbD_encodeBits_zero (d : BitVec ni) (hno : 0 < no) :
    (encodeBits no d).getLsbD 0 = (parity ((List.range ni).map d.getLsbD) ^^
      parity ((List.range (no - 1)).map fun s => (encodeBits no d).getLsbD (s + 1))) := by
  have hl : 0 ∉ List.range' 1 (no - 1) := by simp
  have hchecks : ((List.range (no - 1)).map fun s => (encodeBits no d).getLsbD (s + 1)) =
      (List.range (no - 1)).map fun s =>
        check (reorderBits d (0 : BitVec no)).getLsbD (ni + no - 1) s := by
    apply List.map_congr_left
    intro s hs
    exact getLsbD_encodeBits_succ d s (by have := List.mem_range.mp hs; omega)
  rw [hchecks]
  simp only [encodeBits]
  rw [foldl_flip_own _ _ hl, getLsbD_foldl_flip, if_pos ⟨rfl, hno⟩, getLsbD_foldl_flip,
    if_pos ⟨rfl, hno⟩, getLsbD_eccSingle, List.range'_eq_map_range, List.map_map]
  congr 1
  · simp
  · congr 1
    apply List.map_congr_left
    intro s hs
    have hlt := List.mem_range.mp hs
    rw [Function.comp_apply, getLsbD_foldl_flip, if_neg (by omega), getLsbD_eccSingle,
      Nat.add_sub_cancel_left]
    simp
    omega

end Userworks.Ecc
