import Xdec.Bits

/-!
# Reading the image

A `ByteReader` fills a span of bytes from an address of the image or refuses.
The analyses put the bytes together with the first one lowest.
-/

namespace Xdec

/-- `ByteReader`: the bytes from an address, if the image has them. -/
structure ByteImage where
  read : U64 → Nat → Option (List (BitVec 8))
  length_read : ∀ address n bytes, read address n = some bytes → bytes.length = n

/-- The loop `value |= bytes[at] << (at * 8)`. -/
def littleEndian : List (BitVec 8) → U64
  | [] => 0#64
  | b :: bs => b.setWidth 64 ||| littleEndian bs <<< 8

theorem littleEndian_lt {bytes : List (BitVec 8)} (h : bytes.length ≤ 8) :
  (littleEndian bytes).toNat < 2 ^ (8 * bytes.length) := by
  induction bytes with
  | nil => decide
  | cons b bs ih =>
    rw [List.length_cons] at h ⊢
    have hrest := ih (by omega)
    have hpow : 2 ^ (8 * (bs.length + 1)) = 2 ^ (8 * bs.length) * 256 := by
      rw [Nat.mul_add, Nat.pow_add]
    rw [littleEndian, BitVec.toNat_or]
    apply Nat.or_lt_two_pow
    · have hb := b.isLt
      have hone : 0 < 2 ^ (8 * bs.length) := Nat.two_pow_pos _
      rw [BitVec.toNat_setWidth]
      omega
    · rw [BitVec.toNat_shiftLeft, Nat.shiftLeft_eq]
      omega

/-- An entry of `n` bytes at an address. -/
def ByteImage.word (image : ByteImage) (address : U64) (n : Nat) : Option U64 :=
  (image.read address n).map littleEndian

theorem ByteImage.word_lt {image : ByteImage} {address value : U64} {n : Nat} (hn : n ≤ 8)
  (h : image.word address n = some value) : value.toNat < 2 ^ (8 * n) := by
  obtain ⟨bytes, hbytes, rfl⟩ := Option.map_eq_some_iff.mp h
  have hlength := image.length_read _ _ _ hbytes
  subst hlength
  exact littleEndian_lt hn

end Xdec
