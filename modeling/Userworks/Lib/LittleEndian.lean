import Mathlib.Tactic.Ring

/-!
Byte strings of a little-endian machine: numbers as bytes, a field of a packed
record at its offset, and a buffer read as 64-bit words.

Reading past the end of a buffer gives zero bytes here. The statements that rely
on a field always say that the buffer holds it.
-/
namespace Userworks

abbrev Bytes := List UInt8

abbrev Word := BitVec 64

/-- The low `count` bytes of a number, least significant first. -/
def toLE : Nat → Nat → Bytes
  | 0, _ => []
  | count + 1, n => UInt8.ofNat n :: toLE count (n / 256)

def ofLE : Bytes → Nat
  | [] => 0
  | b :: bs => b.toNat + 256 * ofLE bs

/-- The bytes of an integer of `8 * count` bits. -/
def put (count : Nat) (x : BitVec (8 * count)) : Bytes := toLE count x.toNat

/-- The integer of `8 * count` bits at a byte offset. -/
def field (count offset : Nat) (bs : Bytes) : BitVec (8 * count) :=
  BitVec.ofNat _ (ofLE ((bs.drop offset).take count))

/-- The whole 64-bit words of a buffer; a shorter rest is not a word. -/
def words : Bytes → List Word
  | b0 :: b1 :: b2 :: b3 :: b4 :: b5 :: b6 :: b7 :: bs =>
      BitVec.ofNat 64 (ofLE [b0, b1, b2, b3, b4, b5, b6, b7]) :: words bs
  | _ => []

def putWords (ws : List Word) : Bytes := ws.flatMap (put 8)

@[simp] theorem length_toLE (count n : Nat) : (toLE count n).length = count := by
  induction count generalizing n with
  | zero => rfl
  | succ count ih => simp [toLE, ih]

@[simp] theorem length_put (count : Nat) (x : BitVec (8 * count)) :
    (put count x).length = count :=
  length_toLE count x.toNat

theorem ofLE_toLE (count n : Nat) : ofLE (toLE count n) = n % 256 ^ count := by
  induction count generalizing n with
  | zero => simp [toLE, ofLE, Nat.mod_one]
  | succ count ih =>
      have hbyte : (UInt8.ofNat n).toNat = n % 256 := UInt8.toNat_ofNat'
      rw [toLE, ofLE, ih, hbyte, Nat.pow_succ, Nat.mul_comm (256 ^ count), Nat.mod_mul]

theorem ofLE_put (count : Nat) (x : BitVec (8 * count)) : ofLE (put count x) = x.toNat := by
  have hx := x.isLt
  rw [Nat.pow_mul] at hx
  rw [put, ofLE_toLE, Nat.mod_eq_of_lt hx]

theorem toLE_ofLE (bs : Bytes) : toLE bs.length (ofLE bs) = bs := by
  induction bs with
  | nil => rfl
  | cons b bs ih =>
      have hb := b.toNat_lt
      have hlow : UInt8.ofNat (b.toNat + 256 * ofLE bs) = b := by
        apply UInt8.toNat_inj.mp
        rw [UInt8.toNat_ofNat']
        omega
      have hhigh : (b.toNat + 256 * ofLE bs) / 256 = ofLE bs := by omega
      rw [List.length_cons, toLE, ofLE, hlow, hhigh, ih]

theorem ofLE_lt (bs : Bytes) : ofLE bs < 256 ^ bs.length := by
  have h := ofLE_toLE bs.length (ofLE bs)
  rw [toLE_ofLE] at h
  exact h ▸ Nat.mod_lt _ (Nat.pow_pos (by decide))

/-- Writing a field that was read gives the bytes it was read from. -/
theorem put_field (count offset : Nat) (bs : Bytes) (h : offset + count ≤ bs.length) :
    put count (field count offset bs) = (bs.drop offset).take count := by
  have hlen : ((bs.drop offset).take count).length = count := by
    rw [List.length_take, List.length_drop]; omega
  have hlt := ofLE_lt ((bs.drop offset).take count)
  rw [hlen] at hlt
  rw [put, field, BitVec.toNat_ofNat, Nat.pow_mul, Nat.mod_eq_of_lt hlt]
  calc toLE count (ofLE ((bs.drop offset).take count))
      = toLE ((bs.drop offset).take count).length (ofLE ((bs.drop offset).take count)) := by
        rw [hlen]
    _ = (bs.drop offset).take count := toLE_ofLE _

/-- A field is read back where it was written. -/
theorem field_put (count offset : Nat) (x : BitVec (8 * count)) (before after : Bytes)
    (hoffset : before.length = offset) :
    field count offset (before ++ (put count x ++ after)) = x := by
  have hdrop : (before ++ (put count x ++ after)).drop offset = put count x ++ after := by
    rw [← hoffset, List.drop_left]
  have htake : (put count x ++ after).take count = put count x := by
    rw [List.take_append_of_le_length (by simp), List.take_of_length_le (by simp)]
  rw [field, hdrop, htake, ofLE_put, BitVec.ofNat_toNat, BitVec.setWidth_eq]

@[simp] theorem field_put_self (count : Nat) (x : BitVec (8 * count)) (after : Bytes) :
    field count 0 (put count x ++ after) = x :=
  field_put count 0 x [] after rfl

/-- Fields after the first one of a record are found past its bytes. -/
theorem field_put_skip (count skip offset : Nat) (x : BitVec (8 * skip)) (after : Bytes)
    (h : skip ≤ offset) :
    field count offset (put skip x ++ after) = field count (offset - skip) after := by
  have hdrop : (put skip x ++ after).drop offset = after.drop (offset - skip) := by
    rw [List.drop_append, List.drop_of_length_le (by simpa using h), List.nil_append, length_put]
  rw [field, field, hdrop]

theorem field_take {count offset n : Nat} {bs : Bytes} (h : offset + count ≤ n) :
    field count offset (bs.take n) = field count offset bs := by
  rw [field, field, List.drop_take, List.take_take, Nat.min_eq_left (by omega)]

theorem words_put (w : Word) (bs : Bytes) : words (put 8 w ++ bs) = w :: words bs := by
  have hput := ofLE_put 8 w
  simp only [put, toLE] at hput
  simp only [put, toLE, List.cons_append, List.nil_append, words, hput, BitVec.ofNat_toNat,
    BitVec.setWidth_eq]

theorem words_putWords_append (ws : List Word) (bs : Bytes) :
    words (putWords ws ++ bs) = ws ++ words bs := by
  induction ws with
  | nil => rfl
  | cons w ws ih =>
      rw [putWords, List.flatMap_cons, List.append_assoc, words_put, List.cons_append]
      exact congrArg (w :: ·) ih

@[simp] theorem words_putWords (ws : List Word) : words (putWords ws) = ws := by
  simpa [words] using words_putWords_append ws []

/-- The bytes behind the last whole word of a buffer do not matter. -/
theorem words_take (bs : Bytes) : words (bs.take (8 * (bs.length / 8))) = words bs := by
  fun_induction words bs with
  | case1 b0 b1 b2 b3 b4 b5 b6 b7 bs ih =>
      have hlen : 8 * ((b0 :: b1 :: b2 :: b3 :: b4 :: b5 :: b6 :: b7 :: bs).length / 8) =
          8 * (bs.length / 8) + 8 := by
        simp only [List.length_cons]
        omega
      rw [hlen]
      simp only [List.take_succ_cons, words, ih]
  | case2 bs hshort =>
      have hlen : bs.length < 8 := by
        apply Nat.lt_of_not_le
        intro hlong
        match bs, hlong with
        | b0 :: b1 :: b2 :: b3 :: b4 :: b5 :: b6 :: b7 :: bs, _ =>
            exact hshort b0 b1 b2 b3 b4 b5 b6 b7 bs rfl
      rw [Nat.div_eq_of_lt hlen]
      rfl
@[simp] theorem length_putWords (ws : List Word) : (putWords ws).length = 8 * ws.length := by
  induction ws with
  | nil => rfl
  | cons w ws ih =>
      rw [putWords, List.flatMap_cons, List.length_append, length_put, List.length_cons]
      rw [putWords] at ih
      omega

theorem putWords_append (ws vs : List Word) : putWords (ws ++ vs) = putWords ws ++ putWords vs :=
  List.flatMap_append

/-- A sum that is taken in an integer of `w` bits. -/
theorem foldl_add_ofNat {w : Nat} {α : Type} (f : α → Nat) (xs : List α) (start : Nat) :
    xs.foldl (fun sum x => sum + BitVec.ofNat w (f x)) (BitVec.ofNat w start) =
      BitVec.ofNat w (start + (xs.map f).sum) := by
  induction xs generalizing start with
  | nil => rfl
  | cons x xs ih =>
      rw [List.foldl_cons, ← BitVec.ofNat_add, ih, List.map_cons, List.sum_cons, Nat.add_assoc]

end Userworks
