import Userworks.Utility.Ecc

/-!
How far apart the codewords of `encodeEcc` are. The code is linear, so this is a
question about the weight of one codeword. `eccSingle` leaves the top position
out of every check: the data bit that stands there is covered by the overall
parity alone, unless the top position belongs to a parity bit.
-/
namespace Userworks.Ecc

variable {n ni no : Nat}

/-! ### Linearity -/

theorem getLsbD_xor_fun (x y : BitVec n) :
    (x ^^^ y).getLsbD = fun b => x.getLsbD b ^^ y.getLsbD b := by
  funext b
  exact BitVec.getLsbD_xor

theorem check_xor (h h' : Nat → Bool) (hhigh s : Nat) :
    check (fun b => h b ^^ h' b) hhigh s = (check h hhigh s ^^ check h' hhigh s) := by
  rw [check, check, check, ← parity_map_xor]
  congr 2
  funext x
  exact Bool.and_xor_distrib_left _ _ _

theorem reorderBits_xor (d d' : BitVec ni) (hno : 2 ≤ no) (hhigh : ni + no ≤ 2 ^ (no - 1)) :
    reorderBits (d ^^^ d') (0 : BitVec no) =
      reorderBits d (0 : BitVec no) ^^^ reorderBits d' (0 : BitVec no) := by
  apply BitVec.eq_of_getLsbD_eq
  intro b _
  rw [BitVec.getLsbD_xor, getLsbD_reorderBits _ hno hhigh, getLsbD_reorderBits _ hno hhigh,
    getLsbD_reorderBits _ hno hhigh, BitVec.getLsbD_xor, Bool.and_xor_distrib_left]

theorem encodeBits_xor (d d' : BitVec ni) (hno : 2 ≤ no) (hhigh : ni + no ≤ 2 ^ (no - 1)) :
    encodeBits no (d ^^^ d') = encodeBits no d ^^^ encodeBits no d' := by
  have hchecks (s : Nat) (hs : s + 1 < no) : (encodeBits no (d ^^^ d')).getLsbD (s + 1) =
      ((encodeBits no d).getLsbD (s + 1) ^^ (encodeBits no d').getLsbD (s + 1)) := by
    rw [getLsbD_encodeBits_succ _ _ hs, getLsbD_encodeBits_succ _ _ hs,
      getLsbD_encodeBits_succ _ _ hs, reorderBits_xor d d' hno hhigh, getLsbD_xor_fun, check_xor]
  apply BitVec.eq_of_getLsbD_eq
  intro b hb
  rw [BitVec.getLsbD_xor]
  cases b with
  | zero =>
      have hmap : ((List.range (no - 1)).map fun s => (encodeBits no (d ^^^ d')).getLsbD (s + 1)) =
          (List.range (no - 1)).map fun s =>
            (encodeBits no d).getLsbD (s + 1) ^^ (encodeBits no d').getLsbD (s + 1) := by
        apply List.map_congr_left
        intro s hs
        exact hchecks s (by have := List.mem_range.mp hs; omega)
      rw [getLsbD_encodeBits_zero _ hb, getLsbD_encodeBits_zero _ hb,
        getLsbD_encodeBits_zero _ hb, hmap, getLsbD_xor_fun, parity_map_xor, parity_map_xor]
      simp only [Bool.xor_assoc, Bool.xor_left_comm]
  | succ s => exact hchecks s hb

/-! ### Weight -/

def weight (x : BitVec n) : Nat := ((Finset.range n).filter (x.getLsbD ·)).card

theorem hammingDist_bits (x y : BitVec n) : hammingDist (bits x) (bits y) = weight (x ^^^ y) := by
  rw [hammingDist, weight, Finset.card_filter, Finset.card_filter,
    ← Fin.sum_univ_eq_sum_range fun b => if (x ^^^ y).getLsbD b = true then 1 else 0]
  apply Finset.sum_congr rfl
  intro i _
  rw [BitVec.getLsbD_xor]
  exact if_congr Bool.xor_iff_ne.symm rfl rfl

theorem distance_encodeBits (d d' : BitVec ni) (hno : 2 ≤ no) (hhigh : ni + no ≤ 2 ^ (no - 1)) :
    distance (d, encodeBits no d) (d', encodeBits no d') =
      weight (d ^^^ d') + weight (encodeBits no (d ^^^ d')) := by
  rw [distance, hammingDist_bits, hammingDist_bits, encodeBits_xor d d' hno hhigh]

/-- The checks that fail when the data bits of `e` are flipped. -/
def failing (no : Nat) (e : BitVec ni) : Finset Nat :=
  (Finset.range (no - 1)).filter fun s => (encodeBits no e).getLsbD (s + 1) = true

theorem weight_encodeBits (e : BitVec ni) (hno : 0 < no) :
    weight (encodeBits no e) =
      (failing no e).card + if Odd (weight e + (failing no e).card) then 1 else 0 := by
  have hzero := getLsbD_encodeBits_zero e hno
  rw [parity_range, parity_range] at hzero
  change _ = (decide (Odd (weight e)) ^^ decide (Odd (failing no e).card)) at hzero
  obtain ⟨m, rfl⟩ := Nat.exists_eq_add_of_lt hno
  have hsplit : weight (encodeBits (0 + m + 1) e) = (failing (0 + m + 1) e).card +
      if (encodeBits (0 + m + 1) e).getLsbD 0 = true then 1 else 0 := by
    rw [weight, Finset.card_filter, Finset.sum_range_succ', failing, Finset.card_filter]
    rfl
  rw [hsplit, hzero]
  by_cases hw : Odd (weight e) <;> by_cases hs : Odd (failing (0 + m + 1) e).card <;>
    simp [hw, Nat.odd_add, ← Nat.not_odd_iff_even]

/-! ### The data positions -/

theorem isData_two_pow (b : Nat) : isData (2 ^ b) = false := by
  rw [isData, Nat.log2_two_pow]
  exact decide_eq_false (Nat.lt_irrefl _)

theorem isData_eq_false_iff {x width : Nat} (hx : x < 2 ^ width) :
    isData x = false ↔ x = 0 ∨ ∃ b < width, x = 2 ^ b := by
  constructor
  · intro h
    by_cases hzero : x = 0
    · exact Or.inl hzero
    · have hself := Nat.log2_self_le hzero
      have hge : x ≤ 2 ^ x.log2 := Nat.not_lt.mp (of_decide_eq_false h)
      have hlog : x.log2 < width := (Nat.log2_lt hzero).mpr hx
      exact Or.inr ⟨x.log2, hlog, by omega⟩
  · intro h
    rcases h with rfl | ⟨b, -, rfl⟩
    · rfl
    · exact isData_two_pow b

def dataPositions (n : Nat) : Finset Nat := (Finset.range n).filter (isData ·)

/-- Every parity bit but the first has its position, and so has every data bit. -/
theorem card_dataPositions (hno : 2 ≤ no) (hhigh : ni + no ≤ 2 ^ (no - 1))
    (hlow : 2 ^ (no - 2) < ni + no) : (dataPositions (ni + no)).card = ni := by
  have hothers : (Finset.range (ni + no)).filter (¬ isData · = true) =
      insert 0 ((Finset.range (no - 1)).image (2 ^ ·)) := by
    ext x
    rw [Finset.mem_filter, Finset.mem_range, Finset.mem_insert, Finset.mem_image,
      Bool.not_eq_true]
    constructor
    · rintro ⟨hx, hdata⟩
      rcases (isData_eq_false_iff (by omega : x < 2 ^ (no - 1))).mp hdata with hzero | ⟨b, hb, rfl⟩
      · exact Or.inl hzero
      · exact Or.inr ⟨b, Finset.mem_range.mpr hb, rfl⟩
    · intro h
      rcases h with rfl | ⟨b, hb, rfl⟩
      · exact ⟨by omega, rfl⟩
      · have hb := Finset.mem_range.mp hb
        have hle := Nat.pow_le_pow_right (n := 2) (by omega) (show b ≤ no - 2 by omega)
        exact ⟨by omega, (isData_eq_false_iff (Nat.pow_lt_pow_right (by omega) hb)).mpr
          (Or.inr ⟨b, hb, rfl⟩)⟩
  have hcard : ((Finset.range (ni + no)).filter (¬ isData · = true)).card = no := by
    rw [hothers, Finset.card_insert_of_notMem, Finset.card_image_of_injective,
      Finset.card_range]
    · omega
    · exact Nat.pow_right_injective (Nat.le_refl 2)
    · simp
  have hboth := Finset.card_filter_add_card_filter_not (s := Finset.range (ni + no))
    (fun x => isData x = true)
  rw [Finset.card_range, hcard] at hboth
  rw [dataPositions]
  omega

/-- The last position is in the last block. -/
theorem log2_last (hno : 2 ≤ no) (hhigh : ni + no ≤ 2 ^ (no - 1))
    (hlow : 2 ^ (no - 2) < ni + no) : (ni + no - 1).log2 = no - 2 := by
  have hturn : no - 2 + 1 = no - 1 := by omega
  exact log2_of_block (by omega) (by rw [hturn]; omega)

theorem dataIndex_mem {x : Nat} (hno : 2 ≤ no) (hhigh : ni + no ≤ 2 ^ (no - 1))
    (hlow : 2 ^ (no - 2) < ni + no) (hx : x < ni + no) (hdata : isData x = true) :
    dataIndex x < ni := by
  have hadd := dataIndex_add hdata
  have hgrow := @add_log2_le x (ni + no - 1) (by omega)
  rw [log2_last hno hhigh hlow] at hgrow
  omega

theorem image_dataIndex (hno : 2 ≤ no) (hhigh : ni + no ≤ 2 ^ (no - 1))
    (hlow : 2 ^ (no - 2) < ni + no) :
    (dataPositions (ni + no)).image dataIndex = Finset.range ni := by
  apply Finset.eq_of_subset_of_card_le
  · intro k hk
    obtain ⟨x, hx, rfl⟩ := Finset.mem_image.mp hk
    obtain ⟨hx, hdata⟩ := Finset.mem_filter.mp hx
    exact Finset.mem_range.mpr (dataIndex_mem hno hhigh hlow (Finset.mem_range.mp hx) hdata)
  · rw [Finset.card_image_of_injOn, card_dataPositions hno hhigh hlow, Finset.card_range]
    intro x hx y hy heq
    exact dataIndex_inj (Finset.mem_filter.mp hx).2 (Finset.mem_filter.mp hy).2 heq

/-! ### The positions a word changes -/

def changed (no : Nat) (e : BitVec ni) : Finset Nat :=
  (Finset.range (ni + no)).filter ((reorderBits e (0 : BitVec no)).getLsbD ·)

theorem mem_changed {x : Nat} (e : BitVec ni) (hno : 2 ≤ no) (hhigh : ni + no ≤ 2 ^ (no - 1)) :
    x ∈ changed no e ↔ x ∈ dataPositions (ni + no) ∧ e.getLsbD (dataIndex x) = true := by
  rw [changed, dataPositions, Finset.mem_filter, Finset.mem_filter, Finset.mem_range,
    getLsbD_reorderBits e hno hhigh]
  by_cases hx : x < ni + no <;> simp [hx]

/-- Each data bit stands at one position. -/
theorem card_changed (e : BitVec ni) (hno : 2 ≤ no) (hhigh : ni + no ≤ 2 ^ (no - 1))
    (hlow : 2 ^ (no - 2) < ni + no) : (changed no e).card = weight e := by
  have himage : (changed no e).image dataIndex = (Finset.range ni).filter (e.getLsbD ·) := by
    rw [← image_dataIndex hno hhigh hlow]
    ext k
    rw [Finset.mem_image, Finset.mem_filter, Finset.mem_image]
    constructor
    · rintro ⟨x, hx, rfl⟩
      obtain ⟨hdata, he⟩ := (mem_changed e hno hhigh).mp hx
      exact ⟨⟨x, hdata, rfl⟩, he⟩
    · rintro ⟨⟨x, hdata, rfl⟩, he⟩
      exact ⟨x, (mem_changed e hno hhigh).mpr ⟨hdata, he⟩, rfl⟩
  rw [weight, ← himage, Finset.card_image_of_injOn]
  intro x hx y hy heq
  have hx := ((mem_changed e hno hhigh).mp hx).1
  have hy := ((mem_changed e hno hhigh).mp hy).1
  exact dataIndex_inj (Finset.mem_filter.mp hx).2 (Finset.mem_filter.mp hy).2 heq

/-! ### The distance -/

theorem weight_pos {e : BitVec n} (he : e ≠ 0) : 0 < weight e := by
  apply Finset.card_pos.mpr
  by_contra hempty
  rw [Finset.not_nonempty_iff_eq_empty, Finset.filter_eq_empty_iff] at hempty
  apply he
  apply BitVec.eq_of_getLsbD_eq
  intro b hb
  rw [Bool.eq_false_of_not_eq_true (hempty (Finset.mem_range.mpr hb))]
  exact BitVec.getLsbD_zero.symm

/-- No data bit at the top: every data bit is under the checks of its position. -/
theorem failing_eq_oddChecks (e : BitVec ni) (hno : 2 ≤ no) (hhigh : ni + no ≤ 2 ^ (no - 1))
    (htop : isData (ni + no - 1) = false) :
    failing no e = oddChecks (changed no e) (no - 1) := by
  apply Finset.filter_congr
  intro s hs
  have hlt : s + 1 < no := by have := Finset.mem_range.mp hs; omega
  have hpositions : ((Finset.range (ni + no - 1)).filter fun x =>
      (x.testBit s && (reorderBits e (0 : BitVec no)).getLsbD x) = true) =
      (changed no e).filter (·.testBit s) := by
    ext x
    rw [changed, Finset.mem_filter, Finset.mem_filter, Finset.mem_filter, Finset.mem_range,
      Finset.mem_range, Bool.and_eq_true, getLsbD_reorderBits e hno hhigh, Bool.and_eq_true,
      Bool.and_eq_true]
    constructor
    · rintro ⟨hx, hbit, hset⟩
      exact ⟨⟨by omega, hset⟩, hbit⟩
    · rintro ⟨⟨hx, ⟨hdata, hlast⟩, hset⟩, hbit⟩
      have hne : x ≠ ni + no - 1 := by
        rintro rfl
        rw [htop] at hdata
        exact Bool.noConfusion hdata
      exact ⟨by omega, hbit, ⟨hdata, hlast⟩, hset⟩
  rw [getLsbD_encodeBits_succ e s hlt, check, parity_range, hpositions, decide_eq_true_iff]

theorem four_le_weight (e : BitVec ni) (he : e ≠ 0) (hno : 2 ≤ no)
    (hhigh : ni + no ≤ 2 ^ (no - 1)) (hlow : 2 ^ (no - 2) < ni + no)
    (htop : isData (ni + no - 1) = false) : 4 ≤ weight e + weight (encodeBits no e) := by
  have hcard := card_changed e hno hhigh hlow
  have hnonempty : (changed no e).Nonempty := by
    rw [← Finset.card_pos, hcard]
    exact weight_pos he
  have hthree : 3 ≤ (changed no e).card + (oddChecks (changed no e) (no - 1)).card := by
    apply three_le_card_add_oddChecks hnonempty
    · intro x hx
      have := Finset.mem_range.mp (Finset.mem_filter.mp hx).1
      omega
    · intro hzero
      have hdata := ((mem_changed e hno hhigh).mp hzero).1
      exact Bool.noConfusion (Finset.mem_filter.mp hdata).2
    · intro b hb
      have hdata := (Finset.mem_filter.mp ((mem_changed e hno hhigh).mp hb).1).2
      rw [isData_two_pow] at hdata
      exact Bool.noConfusion hdata
  rw [← failing_eq_oddChecks e hno hhigh htop, hcard] at hthree
  rw [weight_encodeBits e (by omega)]
  split
  · omega
  · next heven =>
      have hne : weight e + (failing no e).card ≠ 3 := by
        intro heq
        rw [heq] at heven
        exact heven (by decide)
      omega

/-- A data bit at the top is under the overall parity alone. -/
theorem weight_top (hno : 2 ≤ no) (hhigh : ni + no ≤ 2 ^ (no - 1))
    (hlow : 2 ^ (no - 2) < ni + no) (htop : isData (ni + no - 1) = true) :
    let e := BitVec.twoPow ni (dataIndex (ni + no - 1))
    weight e = 1 ∧ weight (encodeBits no e) = 1 := by
  have hmem := dataIndex_mem hno hhigh hlow (by omega) htop
  intro e
  have hbit (k : Nat) : e.getLsbD k = true ↔ dataIndex (ni + no - 1) = k := by
    simp [e, BitVec.getLsbD_twoPow, hmem]
  have hone : weight e = 1 := by
    rw [weight, Finset.card_eq_one]
    refine ⟨dataIndex (ni + no - 1), ?_⟩
    ext k
    rw [Finset.mem_filter, Finset.mem_range, Finset.mem_singleton, hbit]
    omega
  have hnone : failing no e = ∅ := by
    rw [failing, Finset.filter_eq_empty_iff]
    intro s hs
    have hlt : s + 1 < no := by have := Finset.mem_range.mp hs; omega
    rw [getLsbD_encodeBits_succ e s hlt, check, parity_range]
    have hunchecked : ((Finset.range (ni + no - 1)).filter fun x =>
        (x.testBit s && (reorderBits e (0 : BitVec no)).getLsbD x) = true) = ∅ := by
      rw [Finset.filter_eq_empty_iff]
      intro x hx hset
      rw [Bool.and_eq_true, getLsbD_reorderBits e hno hhigh, Bool.and_eq_true, hbit] at hset
      obtain ⟨-, hdata, heq⟩ := hset
      rw [Bool.and_eq_true] at hdata
      have := dataIndex_inj htop hdata.1 heq
      have := Finset.mem_range.mp hx
      omega
    rw [hunchecked]
    decide
  refine ⟨hone, ?_⟩
  rw [weight_encodeBits e (by omega), hone, hnone]
  rfl

theorem isData_top_eq_false_iff (hno : 2 ≤ no) (hhigh : ni + no ≤ 2 ^ (no - 1))
    (hlow : 2 ^ (no - 2) < ni + no) :
    isData (ni + no - 1) = false ↔ ni + no = 2 ^ (no - 2) + 1 := by
  rw [isData, log2_last hno hhigh hlow, decide_eq_false_iff_not]
  omega

/-! ### Single errors corrected, double errors detected -/

/-- The code has distance four just where the top position belongs to the last parity bit. -/
theorem correctsAndDetects_iff (ni no : Nat) (hni : 1 ≤ ni) (hhigh : ni + no ≤ 2 ^ (no - 1))
    (hlow : 2 ^ (no - 2) < ni + no) :
    CorrectsAndDetects ni no ↔ no ≤ 32 ∧ ni + no = 2 ^ (no - 2) + 1 := by
  have hno : 2 ≤ no := by
    by_contra hlt
    cases (show no = 0 ∨ no = 1 by omega) with
    | inl h => subst h; simp at hhigh hlow; omega
    | inr h => subst h; simp at hhigh; omega
  rw [← isData_top_eq_false_iff hno hhigh hlow]
  constructor
  · intro h
    have hdefined : no ≤ 32 := by
      by_contra hlt
      have hne : (0 : BitVec ni) ≠ BitVec.twoPow ni 0 := by
        intro heq
        have hbit := congrArg (·.getLsbD 0) heq
        simp [show 0 < ni from hni] at hbit
      obtain ⟨r, _, hr, -⟩ := h _ _ hne
      rw [encodeEcc, if_pos (by omega)] at hr
      cases hr
    refine ⟨hdefined, ?_⟩
    by_contra htop
    rw [Bool.not_eq_false] at htop
    obtain ⟨hone, hparity⟩ := weight_top hno hhigh hlow htop
    generalize BitVec.twoPow ni (dataIndex (ni + no - 1)) = e at hone hparity
    have hne : e ≠ 0 := by
      rintro rfl
      simp [weight] at hone
    obtain ⟨r, r', hr, hr', hfour⟩ := h e 0 hne
    rw [encodeEcc, if_neg (by omega), Option.some.injEq] at hr hr'
    rw [← hr, ← hr', distance_encodeBits e 0 hno hhigh, BitVec.ofNat_eq_ofNat, BitVec.xor_zero,
      hone, hparity] at hfour
    omega
  · rintro ⟨hdefined, htop⟩ d d' hne
    refine ⟨encodeBits no d, encodeBits no d', if_neg (by omega), if_neg (by omega), ?_⟩
    rw [distance_encodeBits d d' hno hhigh]
    apply four_le_weight _ _ hno hhigh hlow htop
    intro hzero
    exact hne (BitVec.xor_eq_zero_iff.mp hzero)

theorem correctsAndDetects_four_five : CorrectsAndDetects 4 5 :=
  (correctsAndDetects_iff 4 5 (by decide) (by decide) (by decide)).mpr (by decide)

/-- Eight data bits and five parity bits: only the overall parity sees the last data bit. -/
theorem not_correctsAndDetects : ¬ (∀ ni no : Nat, 1 ≤ ni → ni + no ≤ 2 ^ (no - 1) →
    2 ^ (no - 2) < ni + no → CorrectsAndDetects ni no) := by
  intro h
  obtain ⟨r, r', hr, hr', hfour⟩ := h 8 5 (by decide) (by decide) (by decide) 0x80#8 0#8 (by decide)
  rw [encodeEcc, if_neg (by decide), Option.some.injEq] at hr hr'
  rw [← hr, ← hr'] at hfour
  exact absurd hfour (by decide +kernel)

end Userworks.Ecc
