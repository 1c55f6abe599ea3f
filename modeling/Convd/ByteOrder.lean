/-
# `Convd.ByteOrder` — the byte order helpers of `bo.h`

The byte order of the machine the code runs on is a parameter, `host`.  What the
code believes it to be is another matter: it reads one byte of a four-byte union
(`hostLittleEndian`), and that is modelled as it stands.

A converter of `bo.h` exists at each width; they share a body, so each is the
body at its own width.  Words are unsigned here, a negative `int16_t` being the
number its bits stand for.
-/
import Convd.Def
import Convd.Lib.Word

namespace Convd

/-! ## What the code takes the host for -/

/-- `__endianess.c` -/
def endianess : List UInt8 := ascii "l00b"

/-- `__endianess.f`: a `uint8_t` laid over the first byte of the array. -/
def endianessF (host : Endian) : Nat := host.value (endianess.take 1)

/-- `_host_little_endian`: is it `'l'`? -/
def hostLittleEndian (host : Endian) : Bool := endianessF host == 108

/-- `_host_big_endian`: is it `'b'`? -/
def hostBigEndian (host : Endian) : Bool := endianessF host == 98

@[simp] theorem hostLittleEndian_eq (host : Endian) : hostLittleEndian host = true := by
  cases host <;> rfl

@[simp] theorem hostBigEndian_eq (host : Endian) : hostBigEndian host = false := by
  cases host <;> rfl

/-! ## Bits and swaps -/

/-- `BO_check_bit(number, x)` -/
def boCheckBit (number x : Nat) : Nat := (number >>> x) &&& 1

/-- One turn of the loop of `BO_swap_even_bytes`: `b[i]` against `b[size - i - 1]`. -/
def boSwapPair (b : List UInt8) (i : Nat) : List UInt8 :=
  (b.set i (b.getD (b.length - i - 1) 0)).set (b.length - i - 1) (b.getD i 0)

/-- `BO_swap_even_bytes`, which is `BO_swap_bytes` on the compilers the Makefile uses. -/
def boSwapBytes (b : List UInt8) : List UInt8 := (List.range (b.length / 2)).foldl boSwapPair b

@[simp] theorem length_boSwapPair (b : List UInt8) (i : Nat) :
    (boSwapPair b i).length = b.length := by simp [boSwapPair]

/-- After `k` turns the outer `k` bytes on either side are in place. -/
theorem getElem?_foldl_boSwapPair (b : List UInt8) : ∀ k, k ≤ b.length / 2 →
    ((List.range k).foldl boSwapPair b).length = b.length ∧
    ∀ i < b.length, ((List.range k).foldl boSwapPair b)[i]? =
      if i < k ∨ b.length - i ≤ k then b[b.length - i - 1]? else b[i]?
  | 0, _ => by
      refine ⟨rfl, fun i hi => ?_⟩
      rw [if_neg (by omega)]
      rfl
  | k + 1, hk => by
      obtain ⟨hlen, hget⟩ := getElem?_foldl_boSwapPair b k (by omega)
      rw [List.range_succ, List.foldl_append]
      simp only [List.foldl_cons, List.foldl_nil]
      refine ⟨by rw [length_boSwapPair, hlen], fun i hi => ?_⟩
      have h1 := hget k (by omega)
      have h2 := hget (b.length - k - 1) (by omega)
      rw [if_neg (by omega)] at h1 h2
      simp only [boSwapPair, hlen, List.getD_eq_getElem?_getD, h1, h2, List.getElem?_set,
        List.length_set, hget i hi]
      -- the two cells of this turn, then the cells of earlier turns, then the rest
      by_cases hlast : b.length - k - 1 = i
      · have hk' : b.length - i - 1 = k := by omega
        have hb : k < b.length := by omega
        rw [if_pos hlast, if_pos (by omega), if_pos (by omega), hk', List.getElem?_eq_getElem hb]
        rfl
      · rw [if_neg hlast]
        by_cases hki : k = i
        · subst hki
          have hb : b.length - k - 1 < b.length := by omega
          rw [if_pos rfl, if_pos (by omega), if_pos (by omega), List.getElem?_eq_getElem hb]
          rfl
        · rw [if_neg hki]
          by_cases hdone : i < k ∨ b.length - i ≤ k
          · rw [if_pos hdone, if_pos (by omega)]
          · rw [if_neg hdone, if_neg (by omega)]

theorem boSwapBytes_eq (b : List UInt8) : boSwapBytes b = b.reverse := by
  obtain ⟨hlen, hget⟩ := getElem?_foldl_boSwapPair b (b.length / 2) (Nat.le_refl _)
  apply List.ext_getElem?
  intro i
  by_cases hi : i < b.length
  · have hrev := List.getElem?_reverse hi
    rw [boSwapBytes, hget i hi, hrev]
    -- an odd length leaves the middle byte, which is its own mirror image
    by_cases hmid : i < b.length / 2 ∨ b.length - i ≤ b.length / 2
    · rw [if_pos hmid, Nat.sub_right_comm]
    · rw [if_neg hmid]
      congr 1
      omega
  · rw [List.getElem?_eq_none (by rw [boSwapBytes, hlen]; omega),
      List.getElem?_eq_none (by rw [List.length_reverse]; omega)]

/-! ## Bytes in place -/

/-- `BO_bytes_betoh` -/
def boBytesBetoh (host : Endian) (bytes : List UInt8) : List UInt8 :=
  if hostLittleEndian host then boSwapBytes bytes else bytes

/-- `BO_bytes_letoh` -/
def boBytesLetoh (host : Endian) (bytes : List UInt8) : List UInt8 :=
  if hostBigEndian host then boSwapBytes bytes else bytes

theorem boBytesBetoh_eq (host : Endian) (bytes : List UInt8) :
    boBytesBetoh host bytes = bytes.reverse := by simp [boBytesBetoh, boSwapBytes_eq]

theorem boBytesLetoh_eq (host : Endian) (bytes : List UInt8) :
    boBytesLetoh host bytes = bytes := by simp [boBytesLetoh]

/-! ## Words -/

/-- `BO_swap_bytes(&val, sizeof(val))` -/
def boSwapWord (host : Endian) (w val : Nat) : Nat := host.value (boSwapBytes (host.image w val))

/-- The body of `BO_iN_htobe` and of `BO_iN_betoh`. -/
def boHtobe (host : Endian) (w val : Nat) : Nat :=
  if hostLittleEndian host then boSwapWord host w val else val

/-- The body of `BO_iN_htole` and of `BO_iN_letoh`. -/
def boHtole (host : Endian) (w val : Nat) : Nat :=
  if hostBigEndian host then boSwapWord host w val else val

def boI16Htobe (host : Endian) : Nat → Nat := boHtobe host 2
def boI16Betoh (host : Endian) : Nat → Nat := boHtobe host 2
def boI16Htole (host : Endian) : Nat → Nat := boHtole host 2
def boI16Letoh (host : Endian) : Nat → Nat := boHtole host 2
def boI32Htobe (host : Endian) : Nat → Nat := boHtobe host 4
def boI32Betoh (host : Endian) : Nat → Nat := boHtobe host 4
def boI32Htole (host : Endian) : Nat → Nat := boHtole host 4
def boI32Letoh (host : Endian) : Nat → Nat := boHtole host 4
def boI64Htobe (host : Endian) : Nat → Nat := boHtobe host 8
def boI64Betoh (host : Endian) : Nat → Nat := boHtobe host 8
def boI64Htole (host : Endian) : Nat → Nat := boHtole host 8
def boI64Letoh (host : Endian) : Nat → Nat := boHtole host 8

/-- The body of `BO_bytes_betoh_iN`: the word as stored, converted. -/
def boReadBetoh (host : Endian) (w : Nat) (b : List UInt8) : Nat :=
  if hostLittleEndian host then boHtobe host w (host.value b) else host.value b

/-- The body of `BO_bytes_letoh_iN`; it converts by the big-endian function, as the source does. -/
def boReadLetoh (host : Endian) (w : Nat) (b : List UInt8) : Nat :=
  if hostBigEndian host then boHtobe host w (host.value b) else host.value b

def boBytesBetohI16 (host : Endian) : List UInt8 → Nat := boReadBetoh host 2
def boBytesLetohI16 (host : Endian) : List UInt8 → Nat := boReadLetoh host 2
def boBytesBetohI32 (host : Endian) : List UInt8 → Nat := boReadBetoh host 4
def boBytesLetohI32 (host : Endian) : List UInt8 → Nat := boReadLetoh host 4
def boBytesBetohI64 (host : Endian) : List UInt8 → Nat := boReadBetoh host 8
def boBytesLetohI64 (host : Endian) : List UInt8 → Nat := boReadLetoh host 8

theorem boSwapWord_eq (host : Endian) (w val : Nat) :
    boSwapWord host w val = host.flip.value (host.image w val) := by
  rw [boSwapWord, boSwapBytes_eq, Endian.value_reverse]

/-- What is stored of a word made by `htobe`: the image of the other host. -/
theorem image_boHtobe (host : Endian) (w val : Nat) :
    host.image w (boHtobe host w val) = host.flip.image w val := by
  have hlen : (host.image w val).reverse.length = w := by simp
  have := Endian.image_value host (host.image w val).reverse
  rw [hlen] at this
  rw [boHtobe, if_pos (hostLittleEndian_eq host), boSwapWord, boSwapBytes_eq, this,
    Endian.image_reverse]

theorem image_boHtole (host : Endian) (w val : Nat) :
    host.image w (boHtole host w val) = host.image w val := by simp [boHtole]

/-- Reading a big-endian word is reading the stored bytes by the other order. -/
theorem boReadBetoh_eq (host : Endian) (b : List UInt8) :
    boReadBetoh host b.length b = host.flip.value b := by
  rw [boReadBetoh, if_pos (hostLittleEndian_eq host), boHtobe, if_pos (hostLittleEndian_eq host),
    boSwapWord_eq, Endian.image_value]

theorem boReadLetoh_eq (host : Endian) (w : Nat) (b : List UInt8) :
    boReadLetoh host w b = host.value b := by simp [boReadLetoh]

/-! ## The converters of a width -/

/-- The functions of one width. -/
structure Converters where
  width : Nat
  htobe : Nat → Nat
  htole : Nat → Nat
  betoh : Nat → Nat
  letoh : Nat → Nat
  bytesBetoh : List UInt8 → Nat
  bytesLetoh : List UInt8 → Nat

/-- The integer converters of `bo.h`. -/
def converters (host : Endian) : List Converters :=
  [⟨2, boI16Htobe host, boI16Htole host, boI16Betoh host, boI16Letoh host,
      boBytesBetohI16 host, boBytesLetohI16 host⟩,
    ⟨4, boI32Htobe host, boI32Htole host, boI32Betoh host, boI32Letoh host,
      boBytesBetohI32 host, boBytesLetohI32 host⟩,
    ⟨8, boI64Htobe host, boI64Htole host, boI64Betoh host, boI64Letoh host,
      boBytesBetohI64 host, boBytesLetohI64 host⟩]

/-- What the converters of a width are for, at the value `v`: the images are the two
encodings, the readers read these, the way back is the inverse, and bytes converted in
place are the word the readers read. -/
structure Converters.Right (c : Converters) (host : Endian) (v : Nat) : Prop where
  image_htobe : host.image c.width (c.htobe v) = Endian.big.image c.width v
  image_htole : host.image c.width (c.htole v) = Endian.little.image c.width v
  bytesBetoh_eq : c.bytesBetoh (Endian.big.image c.width v) = v
  bytesLetoh_eq : c.bytesLetoh (Endian.little.image c.width v) = v
  betoh_htobe : c.betoh (c.htobe v) = v
  letoh_htole : c.letoh (c.htole v) = v
  bytes_betoh : ∀ b : List UInt8, b.length = c.width →
    host.value (boBytesBetoh host b) = c.bytesBetoh b
  bytes_letoh : ∀ b : List UInt8, b.length = c.width →
    host.value (boBytesLetoh host b) = c.bytesLetoh b

/-- All of them share the bodies above. -/
theorem eq_of_mem_converters {host : Endian} {c : Converters} (hc : c ∈ converters host) :
    c = ⟨c.width, boHtobe host c.width, boHtole host c.width, boHtobe host c.width,
      boHtole host c.width, boReadBetoh host c.width, boReadLetoh host c.width⟩ := by
  simp only [converters, List.mem_cons, List.not_mem_nil, or_false] at hc
  rcases hc with rfl | rfl | rfl <;> rfl

theorem boHtobe_boHtobe (host : Endian) {w v : Nat} (hv : v < 256 ^ w) :
    boHtobe host w (boHtobe host w v) = v := by
  have hswap : ∀ u, boHtobe host w u = host.flip.value (host.image w u) := by
    intro u
    rw [boHtobe, if_pos (hostLittleEndian_eq host), boSwapWord_eq]
  rw [hswap (boHtobe host w v), image_boHtobe, Endian.value_image, Nat.mod_eq_of_lt hv]

/-- The code takes every host for a little-endian one, so on a big-endian host both images
come out in the wrong order, which the values that are the same in both do not show. -/
theorem converters_right_iff {host : Endian} {c : Converters} (hc : c ∈ converters host)
    {v : Nat} (hv : v < 256 ^ c.width) :
    c.Right host v ↔
      host = .little ∨ Endian.little.image c.width v = Endian.big.image c.width v := by
  obtain ⟨w, hw⟩ : ∃ w, c.width = w := ⟨_, rfl⟩
  rw [eq_of_mem_converters hc, hw]
  rw [hw] at hv
  constructor
  · intro h
    cases host with
    | little => exact .inl rfl
    | big =>
        have himage := h.image_htobe
        rw [image_boHtobe] at himage
        exact .inr himage
  · intro hsame
    have hbe : host.flip.image w v = Endian.big.image w v := by
      cases host with
      | little => rfl
      | big => exact hsame.resolve_left Endian.noConfusion
    have hle : host.image w v = Endian.little.image w v := by
      cases host with
      | little => rfl
      | big => exact (hsame.resolve_left Endian.noConfusion).symm
    have hread : ∀ b : List UInt8, b.length = w → boReadBetoh host w b = host.flip.value b := by
      rintro b rfl
      exact boReadBetoh_eq host b
    refine ⟨?_, ?_, ?_, ?_, boHtobe_boHtobe host hv, ?_, ?_, ?_⟩
    · exact (image_boHtobe host w v).trans hbe
    · exact (image_boHtole host w v).trans hle
    · show boReadBetoh host w (Endian.big.image w v) = v
      rw [hread _ (Endian.length_image _ _ _), ← hbe, Endian.value_image, Nat.mod_eq_of_lt hv]
    · show boReadLetoh host w (Endian.little.image w v) = v
      rw [boReadLetoh_eq, ← hle, Endian.value_image, Nat.mod_eq_of_lt hv]
    · show boHtole host w (boHtole host w v) = v
      simp [boHtole]
    · intro b hb
      show host.value (boBytesBetoh host b) = boReadBetoh host w b
      rw [boBytesBetoh_eq, Endian.value_reverse, hread b hb]
    · intro b _
      show host.value (boBytesLetoh host b) = boReadLetoh host w b
      rw [boBytesLetoh_eq, boReadLetoh_eq]

/-- A word of two bytes, on the hosts the library is built for. -/
theorem converters_right_iff_letters :
    (⟨2, boI16Htobe .little, boI16Htole .little, boI16Betoh .little, boI16Letoh .little,
        boBytesBetohI16 .little, boBytesLetohI16 .little⟩ : Converters).Right .little 0x6162 ↔
      Endian.little = .little ∨ Endian.little.image 2 0x6162 = Endian.big.image 2 0x6162 :=
  @converters_right_iff .little _ List.mem_cons_self _ (by decide)

/-- On a big-endian host `BO_i16_htobe` swaps all the same. -/
theorem converters_not_right :
    ¬ ∀ host, ∀ c ∈ converters host, ∀ v < 256 ^ c.width, c.Right host v := by
  intro h
  have himage := (h .big _ List.mem_cons_self 0x6162 (by decide)).image_htobe
  exact absurd himage (by decide)

end Convd
