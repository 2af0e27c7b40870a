import Userworks.Lib.LittleEndian
import Userworks.Recbe.UnpackRecbe

/-!
Events of a RECBE board as bytes in memory: numbers in network byte order, and
the header, which the decoder takes over field by field.
-/
namespace Userworks

/-- A memory with some bytes at its start. -/
def place (bs : Bytes) (behind : Nat → UInt8) (offset : Nat) : UInt8 :=
  bs.getD offset (behind offset)

/-- A memory holds bytes at an offset. -/
def Holds (raw : Nat → UInt8) : Nat → Bytes → Prop
  | _, [] => True
  | offset, b :: bs => raw offset = b ∧ Holds raw (offset + 1) bs

theorem holds_append {raw : Nat → UInt8} {offset : Nat} {bs cs : Bytes} :
    Holds raw offset (bs ++ cs) ↔ Holds raw offset bs ∧ Holds raw (offset + bs.length) cs := by
  induction bs generalizing offset with
  | nil => exact ⟨fun h => ⟨trivial, h⟩, fun h => h.2⟩
  | cons b bs ih =>
      rw [List.cons_append, Holds, Holds, ih, and_assoc, List.length_cons, Nat.add_assoc,
        Nat.add_comm 1]

theorem holds_place (bs : Bytes) (behind : Nat → UInt8) : Holds (place bs behind) 0 bs := by
  suffices h : ∀ before after, before ++ after = bs →
      Holds (place bs behind) before.length after from h [] bs rfl
  intro before after heq
  induction after generalizing before with
  | nil => trivial
  | cons b after ih =>
      refine ⟨?_, ?_⟩
      · rw [place, ← heq, List.getD_eq_getElem?_getD, List.getElem?_append_right (Nat.le_refl _),
          Nat.sub_self]
        rfl
      · have hrest := ih (before ++ [b]) (by rw [List.append_assoc, List.singleton_append, heq])
        rwa [List.length_append] at hrest

theorem length_flatMap_of_size {α : Type} {f : α → Bytes} {size : Nat}
    (hsize : ∀ x, (f x).length = size) (xs : List α) :
    (xs.flatMap f).length = size * xs.length := by
  induction xs with
  | nil => rfl
  | cons x xs ih =>
      rw [List.flatMap_cons, List.length_append, hsize, ih, List.length_cons, Nat.mul_succ,
        Nat.add_comm]

/-- Pieces of one size are found at multiples of it. -/
theorem holds_flatMap {α : Type} {raw : Nat → UInt8} {f : α → Bytes} {size : Nat}
    (hsize : ∀ x, (f x).length = size) {offset : Nat} {xs : List α}
    (h : Holds raw offset (xs.flatMap f)) {i : Nat} {x : α} (hx : xs[i]? = some x) :
    Holds raw (offset + size * i) (f x) := by
  induction xs generalizing offset i with
  | nil => cases hx
  | cons y xs ih =>
      rw [List.flatMap_cons, holds_append, hsize] at h
      cases i with
      | zero =>
          cases hx
          exact h.1
      | succ i =>
          have hrest := ih h.2 hx
          rwa [Nat.add_assoc, Nat.add_comm size, ← Nat.mul_succ] at hrest

namespace Recbe

open Reads

/-- A number in network byte order. -/
def hton (count : Nat) (x : BitVec (8 * count)) : Bytes := (put count x).reverse

@[simp] theorem length_hton (count : Nat) (x : BitVec (8 * count)) :
    (hton count x).length = count := by
  rw [hton, List.length_reverse, length_put]

variable {raw : Nat → UInt8} {offset : Nat}

theorem byte_hton {x : BitVec 8} (h : Holds raw offset (hton 1 x)) :
    (raw offset).toNat = x.toNat := by
  have hx := ofLE_put 1 x
  simp only [put, toLE, ofLE] at hx
  simp only [hton, put, toLE, List.reverse_cons, List.reverse_nil, List.nil_append, Holds] at h
  rw [h.1]
  omega

theorem ntohs_hton {x : BitVec 16} (h : Holds raw offset (hton 2 x)) :
    (ntohs offset).value raw = x.toNat := by
  have hx := ofLE_put 2 x
  simp only [put, toLE, ofLE] at hx
  simp only [hton, put, toLE, List.reverse_cons, List.reverse_nil, List.nil_append,
    List.cons_append, Holds] at h
  simp only [ntohs, value_bind, value_byte, value_pure, h.1, h.2.1]
  omega

theorem ntohl_hton {x : BitVec 32} (h : Holds raw offset (hton 4 x)) :
    (ntohl offset).value raw = x.toNat := by
  have hx := ofLE_put 4 x
  simp only [put, toLE, ofLE] at hx
  simp only [hton, put, toLE, List.reverse_cons, List.reverse_nil, List.nil_append,
    List.cons_append, Holds, Nat.add_assoc, Nat.reduceAdd] at h
  simp only [ntohl, ntohs, value_bind, value_byte, value_pure, h.1, h.2.1, h.2.2.1, h.2.2.2.1,
    Nat.add_assoc, Nat.reduceAdd]
  omega

structure EventHeader where
  type : BitVec 8
  id : BitVec 8
  sentNumber : BitVec 16
  timeStamp : BitVec 16
  length : BitVec 16
  triggerCount : BitVec 32

namespace EventHeader

def bytes (header : EventHeader) : Bytes :=
  hton 1 header.type ++ (hton 1 header.id ++ (hton 2 header.sentNumber ++
    (hton 2 header.timeStamp ++ (hton 2 header.length ++ hton 4 header.triggerCount))))

/-- The data with the fields of a header. -/
def fill (header : EventHeader) (data : Data) : Data :=
  { data with
    type := header.type.toNat, id := header.id.toNat, sentNumber := header.sentNumber.toNat
    timeStamp := header.timeStamp.toNat, length := header.length.toNat
    triggerCount := header.triggerCount.toNat }

theorem length_bytes (header : EventHeader) : header.bytes.length = Header.sizeof := by
  simp only [bytes, List.length_append, length_hton]
  rfl

end EventHeader

theorem value_readHeader {header : EventHeader} (h : Holds raw 0 header.bytes) (data : Data) :
    (readHeader data).value raw = header.fill data := by
  simp only [EventHeader.bytes, holds_append, length_hton, Nat.zero_add, Nat.reduceAdd] at h
  simp only [readHeader, value_bind, value_byte, value_pure, byte_hton h.1, byte_hton h.2.1,
    ntohs_hton h.2.2.1, ntohs_hton h.2.2.2.1, ntohs_hton h.2.2.2.2.1, ntohl_hton h.2.2.2.2.2]
  rfl

end Recbe
end Userworks
