import Mathlib.Data.List.Basic
import Mathlib.Tactic

/-!
# Byte memory and host byte order

A block of memory is a list of cells.  `overwrite` stores a run of cells at an
offset, `slice` reads one back.  A store that runs past the end of the block
makes the block longer, so that an out-of-bounds store is visible in its length.

The second part lays 16- and 32-bit words out in memory as a little-endian host
does, and defines the byte swaps behind `htons`, `ntohs`, `htonl` and `ntohl`.
-/

namespace CRpc
namespace Lib

universe u

section Memory

variable {α : Type u}

/-- Store the cells `xs` at offset `pos`. -/
def overwrite (mem : List α) (pos : Nat) (xs : List α) : List α :=
  mem.take pos ++ xs ++ mem.drop (pos + xs.length)

/-- Read `n` cells from offset `pos`. -/
def slice (mem : List α) (pos n : Nat) : List α :=
  (mem.drop pos).take n

theorem length_overwrite {mem xs : List α} {pos : Nat}
    (h : pos + xs.length ≤ mem.length) :
    (overwrite mem pos xs).length = mem.length := by
  simp only [overwrite, List.length_append, List.length_take, List.length_drop]
  omega

theorem length_slice {mem : List α} {pos n : Nat}
    (h : pos + n ≤ mem.length) : (slice mem pos n).length = n := by
  simp only [slice, List.length_take, List.length_drop]
  omega

@[simp] theorem slice_zero (mem : List α) (pos : Nat) : slice mem pos 0 = [] := by
  simp [slice]

/-- Advancing the start of a slice drops cells from its front. -/
theorem slice_drop (mem : List α) (pos n k : Nat) :
    slice mem (pos + k) (n - k) = (slice mem pos n).drop k := by
  simp only [slice, List.drop_take, List.drop_drop]

/-- A slice that ends where cells are stored is extended by these cells. -/
theorem slice_overwrite (mem xs : List α) {lo pos : Nat}
    (hlo : lo ≤ pos) (hpos : pos ≤ mem.length) :
    slice (overwrite mem pos xs) lo (pos + xs.length - lo) =
      slice mem lo (pos - lo) ++ xs := by
  have htake : (mem.take pos).length = pos := by
    rw [List.length_take]
    omega
  have hdrop : (overwrite mem pos xs).drop lo =
      (mem.take pos).drop lo ++ (xs ++ mem.drop (pos + xs.length)) := by
    rw [overwrite, List.append_assoc, List.drop_append_of_le_length (by omega)]
  have hlen : ((mem.take pos).drop lo).length = pos - lo := by
    rw [List.length_drop, htake]
  have hsplit : pos + xs.length - lo =
      ((mem.take pos).drop lo).length + xs.length := by
    omega
  rw [slice, hdrop, hsplit, List.take_length_add_append, List.take_left]
  rw [slice, List.drop_take]

end Memory

section ByteOrder

/-- The bytes of a 16-bit word in the memory of a little-endian host. -/
def le16 (x : UInt16) : List UInt8 :=
  [UInt8.ofNat x.toNat, UInt8.ofNat (x.toNat / 256)]

/-- The 16-bit word a little-endian host reads from two bytes. -/
def ofLe16 (a b : UInt8) : UInt16 :=
  UInt16.ofNat (a.toNat + 256 * b.toNat)

/-- The bytes of a 32-bit word in the memory of a little-endian host. -/
def le32 (x : UInt32) : List UInt8 :=
  [UInt8.ofNat x.toNat, UInt8.ofNat (x.toNat / 256),
    UInt8.ofNat (x.toNat / 65536), UInt8.ofNat (x.toNat / 16777216)]

/-- The 32-bit word a little-endian host reads from four bytes. -/
def ofLe32 (a b c d : UInt8) : UInt32 :=
  UInt32.ofNat
    (a.toNat + 256 * b.toNat + 65536 * c.toNat + 16777216 * d.toNat)

/-- Exchange the two bytes of a 16-bit word. -/
def swap16 (x : UInt16) : UInt16 :=
  ofLe16 (UInt8.ofNat (x.toNat / 256)) (UInt8.ofNat x.toNat)

/-- Reverse the four bytes of a 32-bit word. -/
def swap32 (x : UInt32) : UInt32 :=
  ofLe32 (UInt8.ofNat (x.toNat / 16777216)) (UInt8.ofNat (x.toNat / 65536))
    (UInt8.ofNat (x.toNat / 256)) (UInt8.ofNat x.toNat)

@[simp] theorem ofLe32_le32 (x : UInt32) :
    ofLe32 (UInt8.ofNat x.toNat) (UInt8.ofNat (x.toNat / 256))
      (UInt8.ofNat (x.toNat / 65536)) (UInt8.ofNat (x.toNat / 16777216)) = x := by
  have hx := x.toNat_lt
  apply UInt32.toNat_inj.mp
  simp only [ofLe32, UInt32.toNat_ofNat', UInt8.toNat_ofNat']
  omega

theorem le16_ofLe16 (a b : UInt8) : le16 (ofLe16 a b) = [a, b] := by
  have ha := a.toNat_lt
  have hb := b.toNat_lt
  have h1 : UInt8.ofNat (ofLe16 a b).toNat = a := by
    apply UInt8.toNat_inj.mp
    simp only [ofLe16, UInt16.toNat_ofNat', UInt8.toNat_ofNat']
    omega
  have h2 : UInt8.ofNat ((ofLe16 a b).toNat / 256) = b := by
    apply UInt8.toNat_inj.mp
    simp only [ofLe16, UInt16.toNat_ofNat', UInt8.toNat_ofNat']
    omega
  rw [le16, h1, h2]

theorem le32_ofLe32 (a b c d : UInt8) : le32 (ofLe32 a b c d) = [a, b, c, d] := by
  have ha := a.toNat_lt
  have hb := b.toNat_lt
  have hc := c.toNat_lt
  have hd := d.toNat_lt
  have h1 : UInt8.ofNat (ofLe32 a b c d).toNat = a := by
    apply UInt8.toNat_inj.mp
    simp only [ofLe32, UInt32.toNat_ofNat', UInt8.toNat_ofNat']
    omega
  have h2 : UInt8.ofNat ((ofLe32 a b c d).toNat / 256) = b := by
    apply UInt8.toNat_inj.mp
    simp only [ofLe32, UInt32.toNat_ofNat', UInt8.toNat_ofNat']
    omega
  have h3 : UInt8.ofNat ((ofLe32 a b c d).toNat / 65536) = c := by
    apply UInt8.toNat_inj.mp
    simp only [ofLe32, UInt32.toNat_ofNat', UInt8.toNat_ofNat']
    omega
  have h4 : UInt8.ofNat ((ofLe32 a b c d).toNat / 16777216) = d := by
    apply UInt8.toNat_inj.mp
    simp only [ofLe32, UInt32.toNat_ofNat', UInt8.toNat_ofNat']
    omega
  rw [le32, h1, h2, h3, h4]

theorem swap16_ofLe16 (a b : UInt8) : swap16 (ofLe16 a b) = ofLe16 b a := by
  have h := le16_ofLe16 a b
  simp only [le16, List.cons.injEq, and_true] at h
  rw [swap16, h.1, h.2]

theorem swap32_ofLe32 (a b c d : UInt8) :
    swap32 (ofLe32 a b c d) = ofLe32 d c b a := by
  have h := le32_ofLe32 a b c d
  simp only [le32, List.cons.injEq, and_true] at h
  rw [swap32, h.1, h.2.1, h.2.2.1, h.2.2.2]

@[simp] theorem swap32_swap32 (x : UInt32) : swap32 (swap32 x) = x := by
  conv_lhs => rw [swap32.eq_def x]
  rw [swap32_ofLe32, ofLe32_le32]

end ByteOrder

end Lib
end CRpc
