/-
# `Convd.Lib.Word` — a machine word and the bytes it is stored in

An unsigned word of `w` bytes is a number below `256 ^ w`.  Which byte of it a
host stores first is the parameter `Endian`; `image` is the memory image of a
word, `value` the word an image stands for, and the two are inverse at every
width.  Reversing an image is reading it on the other kind of host
(`value_reverse`), which is all that a byte swap does.
-/
import Mathlib.Algebra.Group.Nat.Defs
import Mathlib.Tactic.Common

/-- Which end of a word lies at its lowest address. -/
inductive Endian where
  | little
  | big
  deriving DecidableEq, Repr

namespace Endian

/-- The other byte order. -/
def flip : Endian → Endian
  | little => big
  | big => little

/-- The number whose base-256 digits are `bs`, least significant first. -/
def digits : List UInt8 → Nat
  | [] => 0
  | b :: bs => b.toNat + 256 * digits bs

/-- The `w` low base-256 digits of `v`, least significant first. -/
def lowDigits : Nat → Nat → List UInt8
  | 0, _ => []
  | w + 1, v => UInt8.ofNat v :: lowDigits w (v / 256)

/-- The word stored in `bs`. -/
def value : Endian → List UInt8 → Nat
  | little, bs => digits bs
  | big, bs => digits bs.reverse

/-- The bytes a word of width `w` is stored in. -/
def image : Endian → Nat → Nat → List UInt8
  | little, w, v => lowDigits w v
  | big, w, v => (lowDigits w v).reverse

@[simp] theorem length_lowDigits : ∀ w v, (lowDigits w v).length = w
  | 0, _ => rfl
  | w + 1, v => by simp [lowDigits, length_lowDigits w (v / 256)]

@[simp] theorem length_image (e : Endian) (w v : Nat) : (image e w v).length = w := by
  cases e <;> simp [image]

theorem digits_lowDigits : ∀ w v, digits (lowDigits w v) = v % 256 ^ w
  | 0, v => by simp [lowDigits, digits, Nat.mod_one]
  | w + 1, v => by
      have hb : (UInt8.ofNat v).toNat = v % 256 := by simp
      rw [lowDigits, digits, hb, digits_lowDigits w (v / 256), Nat.pow_succ', Nat.mod_mul]

theorem lowDigits_digits : ∀ bs : List UInt8, lowDigits bs.length (digits bs) = bs
  | [] => rfl
  | b :: bs => by
      have hb : b.toNat < 256 := b.toNat_lt
      have hdiv : (b.toNat + 256 * digits bs) / 256 = digits bs := by omega
      have hhead : UInt8.ofNat (b.toNat + 256 * digits bs) = b := by
        apply UInt8.toNat_inj.mp
        simp only [UInt8.toNat_ofNat']
        omega
      rw [List.length_cons, lowDigits, digits, hdiv, hhead, lowDigits_digits bs]

theorem value_image (e : Endian) (w v : Nat) : value e (image e w v) = v % 256 ^ w := by
  cases e <;> simp [value, image, digits_lowDigits]

theorem image_value (e : Endian) (bs : List UInt8) : image e bs.length (value e bs) = bs := by
  cases e with
  | little => exact lowDigits_digits bs
  | big =>
      have := lowDigits_digits bs.reverse
      rw [List.length_reverse] at this
      simp [value, image, this]

/-- A reversed image is the word of the other host. -/
theorem value_reverse (e : Endian) (bs : List UInt8) : value e bs.reverse = value e.flip bs := by
  cases e <;> simp [value, flip]

theorem image_reverse (e : Endian) (w v : Nat) : (image e w v).reverse = image e.flip w v := by
  cases e <;> simp [image, flip]

/-- The lowest byte of a word, wherever the host puts it. -/
theorem ofNat_value (e : Endian) {w v : Nat} (hw : 0 < w) :
    UInt8.ofNat (value e (image e w v)) = UInt8.ofNat v := by
  obtain ⟨k, rfl⟩ := Nat.exists_eq_add_of_lt hw
  have hdvd : 256 ∣ 256 ^ (0 + k + 1) := ⟨256 ^ (0 + k), Nat.pow_succ'⟩
  apply UInt8.toNat_inj.mp
  simp only [UInt8.toNat_ofNat', value_image]
  exact Nat.mod_mod_of_dvd v hdvd

theorem ofNat_digits (bs : List UInt8) : UInt8.ofNat (digits bs) = bs.headD 0 := by
  cases bs with
  | nil => rfl
  | cons b bs =>
      apply UInt8.toNat_inj.mp
      have := b.toNat_lt
      rw [UInt8.toNat_ofNat', digits, List.headD_cons]
      omega

theorem eq_zero_of_digits_eq_zero {bs : List UInt8} (h : digits bs = 0) : ∀ b ∈ bs, b = 0 := by
  induction bs with
  | nil =>
      intro b hb
      cases hb
  | cons b bs ih =>
      rw [digits] at h
      intro c hc
      rcases List.mem_cons.mp hc with rfl | hc
      · exact UInt8.toNat_inj.mp (by rw [UInt8.toNat_zero]; omega)
      · exact ih (by omega) c hc

/-- A word below 256 has its one byte at the low end. -/
theorem headD_reverse_of_digits_lt {bs : List UInt8} (hlen : 2 ≤ bs.length)
    (h : digits bs < 256) : bs.reverse.headD 0 = 0 := by
  obtain ⟨b, bs, rfl⟩ := List.exists_cons_of_length_pos (Nat.lt_of_lt_of_le Nat.two_pos hlen)
  have hne : bs.reverse ≠ [] := by
    rw [List.length_cons] at hlen
    exact List.length_pos_iff.mp (by rw [List.length_reverse]; omega)
  have hrest : digits bs = 0 := by
    rw [digits] at h
    omega
  obtain ⟨d, ds, hrev⟩ := List.exists_cons_of_ne_nil hne
  have hd : d ∈ bs := List.mem_reverse.mp (hrev ▸ List.mem_cons_self)
  rw [List.reverse_cons, hrev]
  exact eq_zero_of_digits_eq_zero hrest d hd

/-- The other host finds a 0 there. -/
theorem ofNat_flip_value (e : Endian) {bs : List UInt8} (hlen : 2 ≤ bs.length)
    (h : e.value bs < 256) : UInt8.ofNat (e.flip.value bs) = 0 := by
  cases e with
  | little => exact (ofNat_digits _).trans (headD_reverse_of_digits_lt hlen h)
  | big =>
      have hrev := @headD_reverse_of_digits_lt bs.reverse (by simpa using hlen) h
      rw [List.reverse_reverse] at hrev
      exact (ofNat_digits _).trans hrev

end Endian
